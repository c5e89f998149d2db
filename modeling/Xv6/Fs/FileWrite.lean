import Xv6.Fs.FileArray
import Xv6.Fs.GroupCommit

/-!
# The transactions of `filewrite`

`filewrite` of `file.c` cuts a write into transactions.  Its functions are those of `fs.c`, with a
record of the block numbers that each transaction passes to `log_write`.

## Main definitions

* `Tx` — the disk, and the record.
* `Tx.balloc`, `Tx.bmap`, `Tx.writei` — the functions that keep it.
* `filewrite` — the loop.

## Main results

* `silent_writei` — the functions do what they do without a record.
* `logs_bmap`, `logs_writei` — what one call logs.
* `wp_writeChunks` — the loop, from anywhere in the buffer.
* `filewrite_transactions` — **no transaction logs more than `MAXOPBLOCKS` blocks, and together
  they write the buffer.**
-/

namespace Xv6
namespace Fs

open Prog Bytes

/-! ### The code -/

/-- The disk, with the block numbers that were passed to `log_write`. -/
structure Tx where
  disk : Disk
  /-- In the transaction that is open. -/
  logged : List ℕ
  /-- In those that are closed. -/
  closed : List (List ℕ)

/-- A panic keeps the record. -/
abbrev TxProg (α : Type) := Prog Tx (Stop × Tx) α

namespace Tx

def panic {α : Type} (e : Stop) : TxProg α := do stop (e, ← get)

def beginOp : TxProg Unit := modify fun t => { t with logged := [] }

def endOp : TxProg Unit := modify fun t => { t with logged := [], closed := t.closed ++ [t.logged] }

def bread (b : ℕ) : TxProg Block := do return (← get).disk b

def logWrite (b : ℕ) (data : Block) : TxProg Unit :=
  modify fun t => { t with disk := Function.update t.disk b data, logged := t.logged ++ [b] }

def bzero (b : ℕ) : TxProg Unit := logWrite b zeroBlock

def balloc (sb : Superblock) : TxProg UInt32 := do
  match freeBlock sb (← get).disk with
  | some b =>
      let bp ← bread (sb.bblock b)
      logWrite (sb.bblock b) (setBit bp (b % bpb))
      bzero b
      return UInt32.ofNat b
  | none => panic noBlocks

def loadIndirect (sb : Superblock) (ip : Dinode) : TxProg Dinode := do
  if ip.addr ndirect = 0 then
    let addr ← balloc sb
    return ip.setAddr ndirect addr
  else
    return ip

def bmap (sb : Superblock) (ip : Dinode) (bn : ℕ) : TxProg (UInt32 × Dinode) := do
  if bn < ndirect then
    if ip.addr bn = 0 then
      let addr ← balloc sb
      return (addr, ip.setAddr bn addr)
    else
      return (ip.addr bn, ip)
  else if bn - ndirect < nindirect then
    let ip ← loadIndirect sb ip
    let bp ← bread (ip.addr ndirect).toNat
    if entry bp (bn - ndirect) = 0 then
      let addr ← balloc sb
      logWrite (ip.addr ndirect).toNat (setEntry bp (bn - ndirect) addr)
      return (addr, ip)
    else
      return (entry bp (bn - ndirect), ip)
  else
    panic (.panic "bmap: out of range")

def writeLoop (sb : Superblock) (ip : Dinode) (src : ℕ → UInt8) (off n : ℕ) : TxProg Dinode := do
  if n = 0 then
    return ip
  else
    let (addr, ip) ← bmap sb ip (off / bsize)
    let bp ← bread addr.toNat
    let m := min n (bsize - off % bsize)
    logWrite addr.toNat (patch bp (off % bsize) ((List.range m).map src))
    writeLoop sb ip (fun k => src (m + k)) (off + m) (n - m)
termination_by n
decreasing_by
  have : off % bsize < bsize := Nat.mod_lt _ (by decide)
  omega

def iupdate (sb : Superblock) (i : ℕ) (ip : Dinode) : TxProg Unit := do
  let bp ← bread (sb.iblock i)
  logWrite (sb.iblock i) (patch bp (64 * (i % ipb)) ip.encode)

def writei (sb : Superblock) (dev : Devsw) (inum : ℕ) (ip : Dinode) (src : ℕ → UInt8)
    (off n : UInt32) : TxProg (ℤ × Dinode) := do
  if ip.type = tDev then
    if ip.major < 0 ∨ ndev ≤ ip.major then
      return (-1, ip)
    else
      match dev.write ip.major.toNatClampNeg with
      | none => return (-1, ip)
      | some f => return (f src n, ip)
  else if ip.size < off ∨ off + n < off then
    return (-1, ip)
  else if maxfile * bsize < (off + n).toNat then
    return (-1, ip)
  else
    let ip ← writeLoop sb ip src off.toNat n.toNat
    if 0 < n ∧ ip.size < off + n then
      let ip := { ip with size := off + n }
      iupdate sb inum ip
      return (n.toNat, ip)
    else
      return (n.toNat, ip)

end Tx

inductive FileType
  | none
  | pipe
  | inode
  deriving DecidableEq

/-- `struct file`, with the inode that `ip` points to. -/
structure File where
  type : FileType
  writable : Bool
  ip : Dinode
  off : UInt32

/-- `max` in `filewrite`: the most that is written in one transaction. -/
def maxBytes : ℤ := (GroupCommit.maxOpBlocks - 1 - 1 - 2) / 2 * 512

/-- `n1` -/
def chunk (n i : ℤ) : ℤ := if maxBytes < n - i then maxBytes else n - i

theorem chunk_bounds {n i : ℤ} (h : i < n) :
    0 < chunk n i ∧ chunk n i ≤ 1536 ∧ i + chunk n i ≤ n := by
  have hmax : maxBytes = 1536 := rfl
  rw [chunk, hmax]
  split <;> omega

/-- The loop of `filewrite`, from `i` on: what `i` is behind it. -/
def writeChunks (sb : Superblock) (dev : Devsw) (inum : ℕ) (f : File) (addr : ℕ → UInt8) (n i : ℤ) :
    TxProg (ℤ × File) := do
  if i < n then
    Tx.beginOp
    let (r, ip) ← Tx.writei sb dev inum f.ip (fun k => addr (i.toNat + k)) f.off
      (UInt32.ofNat (chunk n i).toNat)
    let f := { f with ip := ip, off := if 0 < r then f.off + UInt32.ofNat r.toNat else f.off }
    Tx.endOp
    if r < 0 then
      return (i, f)
    else if r ≠ chunk n i then
      Tx.panic (.panic "short filewrite")
    else
      writeChunks sb dev inum f addr n (i + r)
  else
    return (i, f)
termination_by (n - i).toNat
decreasing_by
  have hchunk := chunk_bounds (n := n) (i := i) (by assumption)
  omega

/-- `filewrite`; `pipewrite` has no part in the file system. -/
def filewrite (sb : Superblock) (dev : Devsw) (pipewrite : (ℕ → UInt8) → ℤ → TxProg ℤ) (inum : ℕ)
    (f : File) (addr : ℕ → UInt8) (n : ℤ) : TxProg (ℤ × File) := do
  if f.writable = false then
    return (-1, f)
  else
    match f.type with
    | .pipe =>
        let r ← pipewrite addr n
        return (r, f)
    | .inode =>
        let (i, f) ← writeChunks sb dev inum f addr n 0
        return (if i = n then n else -1, f)
    | .none => Tx.panic (.panic "filewrite")

/-! ### Without the record -/

section Erasure

variable {sb : Superblock}

/-- A program with the record does what one without does. -/
def Silent {α : Type} (x : TxProg α) (y : DiskProg α) : Prop := Erases Tx.disk Prod.fst x y

theorem silent_panic {α : Type} (e : Stop) : Silent (Tx.panic e : TxProg α) (stop e) := fun _ => rfl

theorem silent_bread (b : ℕ) : Silent (Tx.bread b) (bread b) := fun _ => rfl

theorem silent_logWrite (b : ℕ) (data : Block) : Silent (Tx.logWrite b data) (logWrite b data) :=
  fun _ => rfl

theorem txBalloc_some {t : Tx} {b : ℕ} (h : freeBlock sb t.disk = some b) :
    Tx.balloc sb t = .ok (UInt32.ofNat b,
      ⟨taken sb t.disk b, t.logged ++ [sb.bblock b] ++ [b], t.closed⟩) := by
  apply eq_ok_of_wp
  rw [Tx.balloc, wp_bind, wp_get, h]
  exact ⟨rfl, rfl⟩

theorem txBalloc_none {t : Tx} (h : freeBlock sb t.disk = none) :
    Tx.balloc sb t = .error (noBlocks, t) := by
  apply eq_error_of_wp
  rw [Tx.balloc, wp_bind, wp_get, h]
  rfl

theorem silent_balloc (sb : Superblock) : Silent (Tx.balloc sb) (balloc sb) := by
  intro t
  cases h : freeBlock sb t.disk with
  | some b => rw [balloc_some h, txBalloc_some h]
  | none => rw [balloc_none h, txBalloc_none h]

theorem silent_loadIndirect (sb : Superblock) (ip : Dinode) :
    Silent (Tx.loadIndirect sb ip) (loadIndirect sb ip) :=
  Erases.ite ((silent_balloc sb).bind fun _ => erases_pure _) (erases_pure _)

theorem silent_bmap (sb : Superblock) (ip : Dinode) (bn : ℕ) :
    Silent (Tx.bmap sb ip bn) (bmap sb ip bn) := by
  refine Erases.ite ?_ (Erases.ite ?_ (silent_panic _))
  · exact Erases.ite ((silent_balloc sb).bind fun _ => erases_pure _) (erases_pure _)
  · refine (silent_loadIndirect sb ip).bind fun _ => (silent_bread _).bind fun _ => Erases.ite ?_ ?_
    · exact (silent_balloc sb).bind fun _ => (silent_logWrite _ _).bind fun _ => erases_pure _
    · exact erases_pure _

theorem silent_writeLoop (sb : Superblock) (n : ℕ) : ∀ (ip : Dinode) (src : ℕ → UInt8) (off : ℕ),
    Silent (Tx.writeLoop sb ip src off n) (writeLoop sb ip src off n) := by
  induction n using Nat.strong_induction_on with
  | _ n ih =>
    intro ip src off
    rw [Tx.writeLoop, writeLoop]
    by_cases hn : n = 0
    · rw [if_pos hn, if_pos hn]
      exact erases_pure _
    · have hoff : off % bsize < bsize := Nat.mod_lt _ (by decide)
      rw [if_neg hn, if_neg hn]
      refine (silent_bmap sb ip _).bind fun _ => (silent_bread _).bind fun _ =>
        (silent_logWrite _ _).bind fun _ => ih _ ?_ _ _ _
      omega

theorem silent_iupdate (sb : Superblock) (i : ℕ) (ip : Dinode) :
    Silent (Tx.iupdate sb i ip) (iupdate sb i ip) :=
  (silent_bread _).bind fun _ => silent_logWrite _ _

/-- **The functions do what they do without a record.** -/
theorem silent_writei (sb : Superblock) (dev : Devsw) (inum : ℕ) (ip : Dinode) (src : ℕ → UInt8)
    (off n : UInt32) :
    Silent (Tx.writei sb dev inum ip src off n) (writei sb dev inum ip src off n) := by
  refine Erases.ite (Erases.ite (erases_pure _) ?_) (Erases.ite (erases_pure _)
    (Erases.ite (erases_pure _) ((silent_writeLoop sb _ ip src _).bind fun _ => Erases.ite ?_ ?_)))
  · cases dev.write ip.major.toNatClampNeg with
    | none => exact erases_pure _
    | some f => exact erases_pure _
  · exact (silent_iupdate sb inum _).bind fun _ => erases_pure _
  · exact erases_pure _

end Erasure

/-! ### What is logged -/

/-- `FSSIZE` -/
def fssize : ℕ := 1000

/-- There is room for the blocks in a transaction. -/
def Few (ls : List ℕ) : Prop := ls.toFinset.card ≤ GroupCommit.maxOpBlocks

section Logs

variable {sb : Superblock} {t : Tx} {ip : Dinode} {A : Finset ℕ} {cs : List (List ℕ)}

/-- So far the open transaction has logged the free map, the indirect block, and blocks in `A`. -/
structure Logs (sb : Superblock) (ip : Dinode) (A : Finset ℕ) (cs : List (List ℕ)) (t : Tx) :
    Prop where
  closed : t.closed = cs
  logged : ∀ b ∈ t.logged, b = sb.bmapstart ∨
    (ip.addr ndirect ≠ 0 ∧ b = (ip.addr ndirect).toNat) ∨ b ∈ A

theorem Logs.subset (h : Logs sb ip A cs t) :
    t.logged.toFinset ⊆ insert sb.bmapstart (insert (ip.addr ndirect).toNat A) := by
  intro b hb
  rw [Finset.mem_insert, Finset.mem_insert]
  exact (h.logged b (List.mem_toFinset.mp hb)).imp_right fun h => h.imp_left fun h => h.2

theorem Logs.few (h : Logs sb ip A cs t) (hA : A.card ≤ 8) : Few t.logged := by
  have hcard := Finset.card_le_card h.subset
  have hle := Finset.card_insert_le sb.bmapstart (insert (ip.addr ndirect).toNat A)
  have hle' := Finset.card_insert_le (ip.addr ndirect).toNat A
  rw [Few, GroupCommit.maxOpBlocks]
  omega

theorem Logs.mono {B : Finset ℕ} (h : Logs sb ip A cs t) (hAB : A ⊆ B) : Logs sb ip B cs t :=
  ⟨h.closed, fun b hb => (h.logged b hb).imp_right fun h => h.imp_right fun hA => hAB hA⟩

/-- The inode has got an indirect block, or other addresses have changed. -/
theorem Logs.inode {ip' : Dinode} (h : Logs sb ip A cs t)
    (hip : ip.addr ndirect ≠ 0 → ip'.addr ndirect = ip.addr ndirect) : Logs sb ip' A cs t := by
  refine ⟨h.closed, fun b hb => (h.logged b hb).imp_right fun h => h.imp_left ?_⟩
  rintro ⟨hind, rfl⟩
  rw [hip hind]
  exact ⟨hind, rfl⟩

/-- One more block is logged. -/
theorem Logs.logWrite {b : ℕ} (h : Logs sb ip A cs t) (hb : b = sb.bmapstart ∨
    (ip.addr ndirect ≠ 0 ∧ b = (ip.addr ndirect).toNat) ∨ b ∈ A) (d : Disk) :
    Logs sb ip A cs ⟨d, t.logged ++ [b], t.closed⟩ := by
  refine ⟨h.closed, fun c hc => ?_⟩
  rcases List.mem_append.mp hc with hc | hc
  · exact h.logged c hc
  · rw [List.mem_singleton.mp hc]
    exact hb

/-- The free map of a small disk is one block. -/
theorem bblock_of_lt {b : ℕ} (hsize : sb.size ≤ fssize) (hb : b < sb.size) :
    sb.bblock b = sb.bmapstart := by
  rw [fssize] at hsize
  rw [Superblock.bblock, Nat.div_eq_of_lt (by rw [bpb]; omega), Nat.zero_add]

/-- `balloc` logs the free map and the block that it gives out. -/
theorem wp_txBalloc {E : Stop × Tx → Prop} {Q : UInt32 → Tx → Prop} (hsize : sb.size ≤ fssize)
    (hfull : E (noBlocks, t))
    (hok : ∀ a d, (marked sb t.disk 0 = true → a ≠ 0) →
      Q a ⟨d, t.logged ++ [sb.bmapstart] ++ [a.toNat], t.closed⟩) : wp (Tx.balloc sb) E Q t := by
  cases h : freeBlock sb t.disk with
  | some b =>
    have hb : b < sb.size := List.mem_range.mp (List.mem_of_find?_eq_some h)
    have hfree : marked sb t.disk b = false := by simpa using List.find?_some h
    have hto : (UInt32.ofNat b).toNat = b := UInt32.toNat_ofNat_of_lt' (by
      rw [fssize] at hsize
      have hlt : b < 2 ^ 32 := by omega
      simpa using hlt)
    have hQ := hok (UInt32.ofNat b) (taken sb t.disk b) fun h0 heq => by
      rw [← hto, heq] at hfree
      rw [show ((0 : UInt32).toNat) = 0 from rfl, h0] at hfree
      exact Bool.noConfusion hfree
    rw [wp, txBalloc_some h, bblock_of_lt hsize hb]
    rw [hto] at hQ
    exact hQ
  | none =>
    rw [wp, txBalloc_none h]
    exact hfull

/-- The second half of `bmap`. -/
theorem logs_entry {j : ℕ} (hsize : sb.size ≤ fssize) (h : Logs sb ip A cs t)
    (hind : ip.addr ndirect ≠ 0) :
    wp (do
      let bp ← Tx.bread (ip.addr ndirect).toNat
      if entry bp j = 0 then
        let addr ← Tx.balloc sb
        Tx.logWrite (ip.addr ndirect).toNat (setEntry bp j addr)
        return (addr, ip)
      else
        return (entry bp j, ip)) (fun e => ∃ ip', Logs sb ip' A cs e.2)
      (fun r t' => Logs sb r.2 (insert r.1.toNat A) cs t') t := by
  rw [wp_bind, Tx.bread, wp_bind, wp_get, wp_pure, wp_ite]
  refine ⟨fun _ => ?_, fun _ => h.mono (Finset.subset_insert _ _)⟩
  rw [wp_bind]
  refine wp_txBalloc hsize ⟨ip, h⟩ fun a d _ => ?_
  exact (((h.mono (Finset.subset_insert _ _)).logWrite (.inl rfl) d).logWrite
    (.inr (.inr (Finset.mem_insert_self _ _))) d).logWrite (.inr (.inl ⟨hind, rfl⟩)) _

/-- What `bmap` logs. -/
theorem logs_bmap {bn : ℕ} (hsize : sb.size ≤ fssize) (h0 : marked sb t.disk 0 = true)
    (h : Logs sb ip A cs t) :
    wp (Tx.bmap sb ip bn) (fun e => ∃ ip', Logs sb ip' A cs e.2)
      (fun r t' => Logs sb r.2 (insert r.1.toNat A) cs t') t := by
  have hinsert : ∀ {ip' : Dinode} {t' : Tx} (a : UInt32), Logs sb ip' A cs t' →
      Logs sb ip' (insert a.toNat A) cs t' := fun a h => h.mono (Finset.subset_insert _ _)
  rw [Tx.bmap, wp_ite]
  refine ⟨fun hbn => ?_, fun hbn => ?_⟩
  · rw [wp_ite]
    refine ⟨fun _ => ?_, fun _ => hinsert _ h⟩
    rw [wp_bind]
    refine wp_txBalloc hsize ⟨ip, h⟩ fun a d _ => ?_
    have hkeep : (ip.setAddr bn a).addr ndirect = ip.addr ndirect := by
      rw [ndirect] at hbn ⊢
      rw [Dinode.addr_setAddr (by omega), if_neg (by omega)]
    exact (((hinsert a h).logWrite (.inl rfl) d).logWrite
      (.inr (.inr (Finset.mem_insert_self _ _))) d).inode fun _ => hkeep
  · rw [wp_ite]
    refine ⟨fun _ => ?_, fun _ => ⟨ip, h⟩⟩
    rw [wp_bind, Tx.loadIndirect, wp_ite]
    refine ⟨fun hind => ?_, fun hind => ?_⟩
    · rw [wp_bind]
      refine wp_txBalloc hsize ⟨ip, h⟩ fun a d ha => ?_
      have hself : (ip.setAddr ndirect a).addr ndirect = a := by
        rw [Dinode.addr_setAddr (by decide), if_pos rfl]
      have hne : (ip.setAddr ndirect a).addr ndirect ≠ 0 := by
        rw [hself]
        exact ha h0
      rw [wp_pure]
      refine logs_entry hsize (((h.inode fun h => absurd hind h).logWrite (.inl rfl) d).logWrite
        (.inr (.inl ⟨hne, ?_⟩)) d) hne
      rw [hself]
    · rw [wp_pure]
      exact logs_entry hsize h hind

/-- What the loop of `writei` logs: it goes through at most four blocks. -/
theorem logs_writeLoop (hl : Layout sb) (hsize : sb.size ≤ fssize) (n : ℕ) :
    ∀ {t : Tx} {ip : Dinode} {src : ℕ → UInt8} {off : ℕ} {A : Finset ℕ},
      Good True sb (needed (maxfile * bsize)) t.disk ip → off + n ≤ maxfile * bsize →
      Logs sb ip A cs t → A.card ≤ 4 → (n = 0 ∨ A.card + (off % 512 + n + 511) / 512 ≤ 4) →
      wp (Tx.writeLoop sb ip src off n) (fun e => ∃ ip' A', A'.card ≤ 4 ∧ Logs sb ip' A' cs e.2)
        (fun ip' t' => ∃ A', A'.card ≤ 4 ∧ Logs sb ip' A' cs t') t := by
  induction n using Nat.strong_induction_on with
  | _ n ih =>
    intro t ip src off A hg hmax h hA hroom
    rw [Tx.writeLoop]
    by_cases hn : n = 0
    · rw [if_pos hn]
      exact ⟨A, hA, h⟩
    have hoff : off % bsize < bsize := Nat.mod_lt _ (by decide)
    have hbn : off / bsize < maxfile := by rw [maxfile, bsize] at *; omega
    have hbmap := (silent_bmap sb ip (off / bsize)).wp (E := fun _ => True)
      (Q := fun r d' => r.1 ≠ 0 ∧ slot d' r.2 (slotOf (off / bsize)) = r.1 ∧
        Good True sb (needed (maxfile * bsize)) d' r.2)
      (wp_bmap hl hg hbn (slotOf_mem_needed (by omega) le_rfl)
        (fun hge => ndirect_mem_needed (i := off) (by omega) hge)
        fun a d' ip' ha hslot _ hg' _ _ _ => ⟨ha, hslot, hg'⟩)
    have h0 : marked sb t.disk 0 = true := hg.owns.meta_marked 0 sb.nmeta_pos
    rw [if_neg hn, wp_bind]
    refine wp_mono (wp_and hbmap (logs_bmap hsize h0 h)) ?_
      fun e he => ⟨he.2.choose, A, hA, he.2.choose_spec⟩
    rintro ⟨a, ip₁⟩ t₁ ⟨⟨ha, hslot, hg₁⟩, hlogs⟩
    dsimp only at ha hslot hg₁ hlogs ⊢
    generalize hm : min n (bsize - off % bsize) = m
    have hslot0 : slot t₁.disk ip₁ (slotOf (off / bsize)) ≠ 0 := by rwa [hslot]
    have hcard := Finset.card_insert_le a.toNat A
    rw [bsize] at hm hoff
    rw [wp_bind, Tx.bread, wp_bind, wp_get, wp_pure, wp_bind, Tx.logWrite, wp_modify]
    refine ih (n - m) (by omega) ?_ (by omega) (hlogs.logWrite
      (.inr (.inr (Finset.mem_insert_self _ _))) _) (by omega) (by omega)
    rw [← hslot]
    have hslots := slot_update_block hg₁.owns (slotOf_ne _) hslot0
    have hbits := fun data b hb => marked_update_block hg₁.owns hslot0 data (b := b) hb
    exact ⟨hg₁.owns.congr hl (hslots _) (hbits _), .inl trivial⟩

/-- **What `writei` logs**, of a chunk. -/
theorem logs_writei (dev : Devsw) (inum : ℕ) (src : ℕ → UInt8) (off : UInt32)
    (cs : List (List ℕ)) {n : UInt32} {d : Disk}
    (hl : Layout sb) (hsize : sb.size ≤ fssize) (htype : ip.type ≠ tDev) (ho : Owns sb d ip)
    (hn : n.toNat ≤ 1536) :
    wp (Tx.writei sb dev inum ip src off n) (fun e => e.2.closed = cs ∧ Few e.2.logged)
      (fun _ t' => t'.closed = cs ∧ Few t'.logged) ⟨d, [], cs⟩ := by
  have hempty : Few [] := by simp [Few]
  rw [Tx.writei, if_neg htype, wp_ite]
  refine ⟨fun _ => ⟨rfl, hempty⟩, fun hacc => ?_⟩
  rw [wp_ite]
  refine ⟨fun _ => ⟨rfl, hempty⟩, fun hmax => ?_⟩
  have hsum := (toNat_add_of_le (UInt32.not_lt.mp (not_or.mp hacc).2)).1
  rw [wp_bind]
  refine wp_mono (logs_writeLoop (A := ∅) hl hsize n.toNat ⟨ho, .inl trivial⟩
    (by omega) ⟨rfl, nofun⟩ (by simp) (by rw [Finset.card_empty]; omega)) ?_ ?_
  · rintro ip' t' ⟨A, hA, h⟩
    rw [wp_ite]
    refine ⟨fun _ => ?_, fun _ => ⟨h.closed, h.few (by omega)⟩⟩
    have hcard := Finset.card_insert_le (sb.iblock inum) A
    have hlogs := (h.mono (Finset.subset_insert (sb.iblock inum) A)).logWrite
      (.inr (.inr (Finset.mem_insert_self _ _)))
    exact ⟨h.closed, (hlogs _).few (by omega)⟩
  · rintro e ⟨ip', A, hA, h⟩
    exact ⟨h.closed, h.few (by omega)⟩

end Logs

/-! ### The whole write -/

/-- The array `c` with the first `k` bytes of the buffer at `off`. -/
def written (c : List UInt8) (addr : ℕ → UInt8) (off k : ℕ) : List UInt8 :=
  c.take off ++ (List.range k).map addr ++ c.drop (off + k)

theorem written_zero (c : List UInt8) (addr : ℕ → UInt8) (off : ℕ) : written c addr off 0 = c := by
  simp [written]

/-- Two pieces of the buffer, one behind the other. -/
theorem written_written {c : List UInt8} {off : ℕ} (h : off ≤ c.length) (addr : ℕ → UInt8)
    (j k : ℕ) : written (written c addr off j) (fun l => addr (j + l)) (off + j) k =
      written c addr off (j + k) := by
  have hlen : (c.take off ++ (List.range j).map addr).length = off + j := by
    simp [List.length_take, h]
  have htake : (written c addr off j).take (off + j) = c.take off ++ (List.range j).map addr := by
    rw [written, List.take_left' hlen]
  have hdrop : (written c addr off j).drop (off + j + k) = c.drop (off + (j + k)) := by
    rw [← List.drop_drop, written, List.drop_left' hlen, List.drop_drop, Nat.add_assoc]
  rw [written, htake, hdrop, written, List.range_add, List.map_append, List.map_map,
    ← List.append_assoc]
  rfl

/-- The file has room for `n` bytes at `off`. -/
def FitsFile (ip : Dinode) (off : UInt32) (n : ℤ) : Prop :=
  off.toNat ≤ ip.size.toNat ∧ off.toNat + n ≤ maxfile * bsize

section Write

variable {sb : Superblock} {dev : Devsw} {inum : ℕ} {addr : ℕ → UInt8} {n : ℤ} {full : Prop}

/-- **The loop of `filewrite`.** -/
theorem wp_writeChunks (hl : Layout sb) (hsize : sb.size ≤ fssize) (hinum : inum < sb.ninodes)
    {len : ℕ} (m : ℕ) : ∀ {i : ℤ} {f : File} {t : Tx}, (n - i).toNat = m → 0 ≤ i →
      FileOk sb inum t.disk f.ip → Enough full sb t.disk f.ip (needed len) →
      f.ip.size.toNat ≤ len → f.off.toNat + m ≤ len → t.logged = [] → (∀ ls ∈ t.closed, Few ls) →
      wp (writeChunks sb dev inum f addr n i)
        (fun e => e.1 = noBlocks ∧ full ∧ (∀ ls ∈ e.2.closed, Few ls) ∧ Few e.2.logged)
        (fun r t' => (∀ ls ∈ t'.closed, Few ls) ∧ ∃ k : ℕ, r.1 = i + k ∧
          r.2.off.toNat = f.off.toNat + k ∧ Refines sb inum t.disk t'.disk r.2.ip
            (written (contents t.disk f.ip) (fun l => addr (i.toNat + l)) f.off.toNat k) ∧
          (r.1 = n ↔ i = n ∨ i < n ∧ FitsFile f.ip f.off (n - i))) t := by
  induction m using Nat.strong_induction_on with
  | _ m ih =>
    intro i f t hm hi hok he hlen hlen' hlogged hfew
    have hstay : Refines sb inum t.disk t.disk f.ip
        (written (contents t.disk f.ip) (fun l => addr (i.toNat + l)) f.off.toNat 0) := by
      rw [written_zero]
      exact ⟨rfl, hok, Kept.refl sb inum t.disk⟩
    rw [writeChunks, wp_ite]
    refine ⟨fun hin => ?_, fun hin => ⟨hfew, 0, by simp, rfl, hstay, by dsimp only; omega⟩⟩
    obtain ⟨hpos, hmax, hle⟩ := chunk_bounds hin
    generalize chunk n i = n1 at hpos hmax hle
    obtain ⟨u, hu⟩ : ∃ u, u = UInt32.ofNat n1.toNat := ⟨_, rfl⟩
    have hun : (u.toNat : ℤ) = n1 := by
      rw [hu, UInt32.toNat_ofNat_of_lt' (by simp; omega)]
      omega
    rw [wp_bind, Tx.beginOp, wp_modify, wp_bind, ← hu]
    have hlogs := logs_writei dev inum (fun k => addr (i.toNat + k)) f.off t.closed (n := u) hl
      hsize hok.type hok.owns (by omega)
    have hop := wp_fileOp dev (E := fun e => e = noBlocks ∧ full) hl hinum hok
      (he.imp (fun h => ⟨rfl, h⟩) id) (.write (fun k => addr (i.toNat + k)) f.off u) (by
        rw [FileOp.flat]
        split
        · simp only [List.length_append, List.length_take, List.length_map, List.length_range,
            List.length_drop, length_contents]
          omega
        · exact length_contents.trans_le hlen)
    rw [FileOp.exec, wp_bind] at hop
    refine wp_mono (wp_and ((silent_writei _ _ _ _ _ _ _).wp hop) hlogs) ?_ fun e he =>
      ⟨he.1.1, he.1.2, he.2.1 ▸ hfew, he.2.2⟩
    rintro ⟨r, ip'⟩ t₁ ⟨⟨hr, href, he₁, hnone⟩, hclosed, hlast⟩
    dsimp only at hr href he₁ hnone hclosed hlast ⊢
    have hfew₁ : ∀ ls ∈ t₁.closed ++ [t₁.logged], Few ls := by
      intro ls hls
      rcases List.mem_append.mp hls with hls | hls
      · exact hfew ls (hclosed ▸ hls)
      · rw [List.mem_singleton.mp hls]
        exact hlast
    rw [wp_bind, Tx.endOp, wp_modify, wp_ite]
    by_cases hw : (FileOp.write (fun k => addr (i.toNat + k)) f.off u).Writes
      (contents t.disk f.ip)
    · -- the chunk is written, and the loop goes on behind it
      rw [FileOp.flat, if_pos hw, Prod.mk.injEq] at hr
      rw [FileOp.flat, if_pos hw] at href
      obtain ⟨hoff, hwrap, hend⟩ := hw
      have hr := hr.1
      rw [length_contents] at hoff
      have hwritten : contents t₁.disk ip' =
        written (contents t.disk f.ip) (fun k => addr (i.toNat + k)) f.off.toNat u.toNat :=
          href.contents
      have hsize' : ip'.size.toNat = max f.ip.size.toNat (f.off.toNat + u.toNat) := by
        have hlength := congrArg List.length hwritten
        simp only [written, List.length_append, List.length_take, List.length_map,
          List.length_range, List.length_drop, length_contents] at hlength
        omega
      have hsum : (f.off + UInt32.ofNat r.toNat).toNat = f.off.toNat + u.toNat := by
        rw [hr, Int.toNat_natCast, UInt32.ofNat_toNat, UInt32.toNat_add, Nat.mod_eq_of_lt hwrap]
      refine ⟨fun hneg => by omega, fun _ => ?_⟩
      rw [wp_ite]
      refine ⟨fun hshort => absurd (hr.trans hun) hshort, fun _ => ?_⟩
      rw [if_pos (by omega)]
      refine wp_mono (ih (m - u.toNat) (by omega) (by omega) (by omega) href.ok
        (he₁.imp (fun h => h.2) id) ?_ ?_ rfl hfew₁) ?_ fun e he => he
      · dsimp only
        omega
      · dsimp only
        rw [hsum]
        omega
      rintro ⟨i', f'⟩ t' ⟨hfew', k, hi', hoff', href', hiff⟩
      dsimp only at hi' hoff' href' hiff ⊢
      refine ⟨hfew', u.toNat + k, by omega, by omega, ?_, ?_⟩
      · have hshift : (fun l => addr ((i + r).toNat + l)) =
            fun l => (fun k => addr (i.toNat + k)) (u.toNat + l) := by
          funext l
          exact congrArg addr (by omega)
        rw [hwritten, hsum, hshift,
          written_written (by rw [length_contents]; exact hoff)] at href'
        exact ⟨href'.contents, href'.ok, href.kept.trans href'.kept⟩
      · rw [hiff, FitsFile, FitsFile, hsum]
        omega
    · -- `writei` refuses the chunk
      rw [FileOp.flat, if_neg hw, Prod.mk.injEq] at hr
      obtain ⟨hip, hdisk⟩ := hnone hw
      have hr := hr.1
      refine ⟨fun _ => ?_, fun hneg => by omega⟩
      rw [if_neg (by omega)]
      refine ⟨hfew₁, 0, by simp, rfl, ?_, ?_⟩
      · dsimp only
        rw [hip, hdisk]
        exact hstay
      · rw [FileOp.Writes, length_contents] at hw
        rw [FitsFile, maxfile, bsize]
        rw [maxfile, bsize] at hw
        dsimp only
        omega

end Write

end Fs
end Xv6

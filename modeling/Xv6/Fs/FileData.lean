import Xv6.Fs.Bmap

/-!
# Reading and writing files

`readi` and `writei` of `fs.c`, which go through a file block by block.

* `byte` — a byte of the content of an inode.
* `Covered` — the blocks of a stretch of the file are there.
* `wp_readLoop`, `wp_readi` — a read gives the bytes, and changes nothing.
* `wp_writeLoop`, `wp_writei` — **a write changes these bytes and no others**.
-/

namespace Xv6
namespace Fs

open Prog Bytes

/-! ### The code -/

/-- `devsw`: the functions of the devices, which have no part in the file system.  A read
stores some bytes. -/
structure Devsw where
  read : ℕ → Option (UInt32 → ℤ × List UInt8)
  write : ℕ → Option ((ℕ → UInt8) → UInt32 → ℤ)

def ndev : Int16 := 10

/-- The loop of `readi`, for the `n` bytes that are left: the bytes it stores. -/
def readLoop (sb : Superblock) (ip : Dinode) (off n : ℕ) : DiskProg (List UInt8 × Dinode) := do
  if n = 0 then
    return ([], ip)
  else
    let (addr, ip) ← bmap sb ip (off / bsize)
    let bp ← bread addr.toNat
    let m := min n (bsize - off % bsize)
    let (rest, ip) ← readLoop sb ip (off + m) (n - m)
    return (slice bp (off % bsize) m ++ rest, ip)
termination_by n
decreasing_by
  have : off % bsize < bsize := Nat.mod_lt _ (by decide)
  omega

/-- `readi`: the result, the bytes stored at `dst`, and the inode. -/
def readi (sb : Superblock) (dev : Devsw) (ip : Dinode) (off n : UInt32) :
    DiskProg (ℤ × List UInt8 × Dinode) := do
  if ip.type = tDev then
    if ip.major < 0 ∨ ndev ≤ ip.major then
      return (-1, [], ip)
    else
      match dev.read ip.major.toNatClampNeg with
      | none => return (-1, [], ip)
      | some f => return ((f n).1, (f n).2, ip)
  else if ip.size < off ∨ off + n < off then
    return (-1, [], ip)
  else
    let n := if ip.size < off + n then ip.size - off else n
    let (bs, ip) ← readLoop sb ip off.toNat n.toNat
    return (n.toNat, bs, ip)

/-- The loop of `writei`, for the `n` bytes that are left at `src`. -/
def writeLoop (sb : Superblock) (ip : Dinode) (src : ℕ → UInt8) (off n : ℕ) : DiskProg Dinode := do
  if n = 0 then
    return ip
  else
    let (addr, ip) ← bmap sb ip (off / bsize)
    let bp ← bread addr.toNat
    let m := min n (bsize - off % bsize)
    logWrite addr.toNat (patch bp (off % bsize) ((List.range m).map src))
    writeLoop sb ip (fun k => src (m + k)) (off + m) (n - m)
termination_by n
decreasing_by
  have : off % bsize < bsize := Nat.mod_lt _ (by decide)
  omega

/-- `writei` of the inode `inum`: the result and the inode. -/
def writei (sb : Superblock) (dev : Devsw) (inum : ℕ) (ip : Dinode) (src : ℕ → UInt8)
    (off n : UInt32) : DiskProg (ℤ × Dinode) := do
  if ip.type = tDev then
    if ip.major < 0 ∨ ndev ≤ ip.major then
      return (-1, ip)
    else
      match dev.write ip.major.toNatClampNeg with
      | none => return (-1, ip)
      | some f => return (f src n, ip)
  else if ip.size < off ∨ off + n < off then
    return (-1, ip)
  else if maxfile * bsize < (off + n).toNat then
    return (-1, ip)
  else
    let ip ← writeLoop sb ip src off.toNat n.toNat
    if 0 < n ∧ ip.size < off + n then
      let ip := { ip with size := off + n }
      iupdate sb inum ip
      return (n.toNat, ip)
    else
      return (n.toNat, ip)

/-! ### Bytes of a file -/

/-- The byte `i` of the content. -/
def byte (d : Disk) (ip : Dinode) (i : ℕ) : UInt8 :=
  byteAt (d (slot d ip (slotOf (i / bsize))).toNat) (i % bsize)

/-- The blocks of the bytes from `off` to `off + n` are there. -/
def Covered (d : Disk) (ip : Dinode) (off n : ℕ) : Prop :=
  ∀ i, off ≤ i → i < off + n → slot d ip (slotOf (i / bsize)) ≠ 0

/-- The slots of the first `len` bytes. -/
def needed (len : ℕ) : Finset ℕ :=
  (Finset.range (ndirect + nindirect + 1)).filter fun s =>
    if s < ndirect then s * bsize < len else max ndirect (s - 1) * bsize < len

theorem needed_mono {len len' : ℕ} (h : len ≤ len') : needed len ⊆ needed len' := by
  refine Finset.monotone_filter_right _ fun s _ hs => ?_
  by_cases hs12 : s < ndirect
  · rw [if_pos hs12] at hs ⊢
    exact hs.trans_le h
  · rw [if_neg hs12] at hs ⊢
    exact hs.trans_le h

theorem slotOf_mem_needed {i len : ℕ} (hi : i < len) (hmax : len ≤ maxfile * bsize) :
    slotOf (i / bsize) ∈ needed len := by
  rw [maxfile, bsize] at hmax
  rw [needed, Finset.mem_filter, Finset.mem_range, slotOf, bsize, ndirect, nindirect]
  by_cases h12 : i / 512 < 12
  · rw [if_pos h12, if_pos h12]
    omega
  · rw [if_neg h12, if_neg (by omega)]
    omega

theorem ndirect_mem_needed {i len : ℕ} (hi : i < len) (h : ndirect ≤ i / bsize) :
    ndirect ∈ needed len := by
  rw [ndirect, bsize] at h
  rw [needed, Finset.mem_filter, Finset.mem_range, ndirect, nindirect, bsize]
  refine ⟨by omega, ?_⟩
  rw [if_neg (by omega)]
  omega

section Rules

variable {E : Stop → Prop} {full : Prop} {S : Finset ℕ} {sb : Superblock} {d : Disk} {ip : Dinode}

/-- The bytes of one piece lie in one block. -/
theorem piece_div {off k m : ℕ} (hk : k < m) (hm : m ≤ bsize - off % bsize) :
    (off + k) / bsize = off / bsize ∧ (off + k) % bsize = off % bsize + k := by
  rw [bsize] at *
  omega

theorem slice_block {off m : ℕ} (hm : m ≤ bsize - off % bsize) :
    slice (d (slot d ip (slotOf (off / bsize))).toNat) (off % bsize) m =
      (List.range m).map fun k => byte d ip (off + k) := by
  refine List.map_congr_left fun k hk => ?_
  obtain ⟨hdiv, hmod⟩ := piece_div (List.mem_range.mp hk) hm
  rw [byte, hdiv, hmod]

theorem range_map_split {α : Type} {m n : ℕ} (h : m ≤ n) (f : ℕ → α) :
    (List.range n).map f = (List.range m).map f ++ (List.range (n - m)).map fun k => f (m + k) := by
  obtain ⟨k, rfl⟩ := Nat.exists_eq_add_of_le h
  rw [List.range_add, List.map_append, List.map_map, Nat.add_sub_cancel_left]
  rfl

/-- **The rule of the loop of `readi`**, where the blocks are there. -/
theorem wp_readLoop (n : ℕ) : ∀ {off : ℕ} {Q : List UInt8 × Dinode → Disk → Prop},
    off + n ≤ maxfile * bsize → Covered d ip off n →
      Q ((List.range n).map fun k => byte d ip (off + k), ip) d →
        wp (readLoop sb ip off n) E Q d := by
  induction n using Nat.strong_induction_on with
  | _ n ih =>
    intro off Q hmax hcov hQ
    rw [readLoop]
    by_cases hn : n = 0
    · rw [if_pos hn]
      rw [hn] at hQ
      exact hQ
    · have hoff : off % bsize < bsize := Nat.mod_lt _ (by decide)
      have hbn : off / bsize < maxfile := by rw [maxfile, bsize] at *; omega
      have hslot := hcov off le_rfl (by omega)
      rw [if_neg hn, wp_bind, wp_bmap_of_ne hbn hslot, wp_bind, wp_bread, wp_bind]
      generalize hm : min n (bsize - off % bsize) = m
      refine ih (n - m) (by omega) (by omega) (fun i hi hi' => hcov i (by omega) (by omega)) ?_
      rw [wp_pure, slice_block (by omega)]
      rw [range_map_split (m := m) (by omega)] at hQ
      simpa only [Nat.add_assoc] using hQ

/-- A block of the file is written: the slots and the free map are the same. -/
theorem slot_update_block (ho : Owns sb d ip) {j : ℕ} (hj : j ≠ ndirect) (h0 : slot d ip j ≠ 0)
    (data : Block) (k : ℕ) :
    slot (Function.update d (slot d ip j).toNat data) ip k = slot d ip k := by
  refine slot_congr (fun hind => Function.update_of_ne (fun heq => hj ?_) _ _) k
  rw [← slot_direct (d := d) le_rfl] at heq
  exact ho.inj j ndirect h0 (UInt32.toNat_inj.mp heq.symm)

theorem marked_update_block (ho : Owns sb d ip) {j : ℕ} (h0 : slot d ip j ≠ 0) (data : Block)
    {b : ℕ} (hb : b < sb.size) :
    marked sb (Function.update d (slot d ip j).toNat data) b = marked sb d b :=
  marked_update (ho.slot_outside h0) hb data

/-- Nothing but the slots and the free map matters. -/
theorem Owns.congr {d' : Disk} {ip' : Dinode} (hl : Layout sb) (ho : Owns sb d ip)
    (hslot : ∀ i, slot d' ip' i = slot d ip i)
    (hbits : ∀ b < sb.size, marked sb d' b = marked sb d b) : Owns sb d' ip' where
  meta_marked := fun b hb => by
    rw [hbits b (hb.trans_le hl.data)]
    exact ho.meta_marked b hb
  range := fun k hk => by
    rw [hslot] at hk ⊢
    exact ho.range k hk
  slot_marked := fun k hk => by
    rw [hslot] at hk ⊢
    rw [hbits _ (ho.range k hk).2]
    exact ho.slot_marked k hk
  inj := fun k l hk hkl => by
    rw [hslot] at hk hkl
    rw [hslot] at hkl
    exact ho.inj k l hk hkl

theorem Enough.congr {d' : Disk} {ip' : Dinode} (he : Enough full sb d ip S)
    (hslot : ∀ i, slot d' ip' i = slot d ip i)
    (hbits : ∀ b < sb.size, marked sb d' b = marked sb d b) : Enough full sb d' ip' S := by
  have hmissing : missing d' ip' S = missing d ip S := Finset.filter_congr fun k _ => by rw [hslot]
  have hfree : free sb d' = free sb d :=
    Finset.filter_congr fun b hb => by rw [hbits b (Finset.mem_range.mp hb)]
  rw [Enough, hmissing, hfree]
  exact he

theorem grows_update_block (ho : Owns sb d ip) {j : ℕ} (hj : j ≠ ndirect)
    (h0 : slot d ip j ≠ 0) (data : Block) :
    Grows sb d ip (Function.update d (slot d ip j).toNat data) ip where
  fields := rfl
  keep := fun i _ => slot_update_block ho hj h0 data i
  fresh := fun i hi hi' => absurd ((slot_update_block ho hj h0 data i).trans hi) hi'
  bits := fun b hb => by
    rw [marked_update_block ho h0 data hb, iff_self_or]
    rintro ⟨i, hi, hi', -⟩
    exact absurd ((slot_update_block ho hj h0 data i).trans hi) hi'
  frame := fun b _ _ _ hne => Function.update_of_ne (hne j h0).symm _ _

theorem byte_update_block (ho : Owns sb d ip) {bn : ℕ} (h0 : slot d ip (slotOf bn) ≠ 0)
    (data : Block) {i : ℕ} (hi : slot d ip (slotOf (i / bsize)) ≠ 0) :
    byte (Function.update d (slot d ip (slotOf bn)).toNat data) ip i =
      if i / bsize = bn then byteAt data (i % bsize) else byte d ip i := by
  rw [byte, slot_update_block ho (slotOf_ne bn) h0]
  by_cases hbn : i / bsize = bn
  · rw [if_pos hbn, hbn, Function.update_self]
  · rw [if_neg hbn, Function.update_of_ne, byte]
    intro heq
    exact hbn (slotOf_injective (ho.inj _ _ hi (UInt32.toNat_inj.mp heq)))

/-- **The rule of the loop of `writei`.** -/
theorem wp_writeLoop (hl : Layout sb) (n : ℕ) : ∀ {d : Disk} {ip : Dinode} {src : ℕ → UInt8}
    {off : ℕ} {Q : Dinode → Disk → Prop}, Good (E noBlocks) sb S d ip → off + n ≤ maxfile * bsize →
      (∀ i, off ≤ i → i < off + n →
        slotOf (i / bsize) ∈ S ∧ (ndirect ≤ i / bsize → ndirect ∈ S)) →
      (∀ d' ip', Grows sb d ip d' ip' → Good (E noBlocks) sb S d' ip' → Covered d' ip' off n →
        (∀ i, slot d ip (slotOf (i / bsize)) ≠ 0 ∨ (off ≤ i ∧ i < off + n) →
          byte d' ip' i = if off ≤ i ∧ i < off + n then src (i - off) else byte d ip i) →
        (∀ i, slot d ip (slotOf (i / bsize)) = 0 → slot d' ip' (slotOf (i / bsize)) ≠ 0 →
          ¬(off ≤ i ∧ i < off + n) → byte d' ip' i = 0) →
        (∀ b, (∀ i, off ≤ i → i < off + n → i / bsize ≠ b) →
          slot d' ip' (slotOf b) = slot d ip (slotOf b)) →
        (Covered d ip off n → ip' = ip) → Q ip' d') →
      wp (writeLoop sb ip src off n) E Q d := by
  induction n using Nat.strong_induction_on with
  | _ n ih =>
    intro d ip src off Q hg hmax hS hQ
    rw [writeLoop]
    by_cases hn : n = 0
    · rw [if_pos hn]
      refine hQ d ip (Grows.refl sb d ip) hg (fun i hi hi' => absurd hi' (by omega))
        (fun i _ => ?_) (fun i h h' => absurd h h') (fun _ _ => rfl) fun _ => rfl
      rw [if_neg (by omega)]
    have hoff : off % bsize < bsize := Nat.mod_lt _ (by decide)
    have hbn : off / bsize < maxfile := by rw [maxfile, bsize] at *; omega
    obtain ⟨hSbn, hS12⟩ := hS off le_rfl (by omega)
    rw [if_neg hn, wp_bind]
    refine wp_bmap hl hg hbn hSbn hS12 fun a d₁ ip₁ ha hslot hgrow₁ hg₁ hkeep₁ hsame₁ honly₁ => ?_
    generalize hm : min n (bsize - off % bsize) = m
    rw [wp_bind, wp_bread, wp_bind, wp_logWrite, ← hslot]
    have h0 : slot d₁ ip₁ (slotOf (off / bsize)) ≠ 0 := by rwa [hslot]
    generalize hdata : patch (d₁ (slot d₁ ip₁ (slotOf (off / bsize))).toNat) (off % bsize)
      ((List.range m).map src) = data
    have hgrow₂ := grows_update_block hg₁.owns (slotOf_ne _) h0 data
    have hslot₂ := slot_update_block hg₁.owns (slotOf_ne _) h0 data
    have hbits₂ := fun b hb => marked_update_block hg₁.owns h0 data (b := b) hb
    have hg₂ : Good (E noBlocks) sb S _ ip₁ :=
      ⟨hg₁.owns.congr hl hslot₂ hbits₂, hg₁.enough.congr hslot₂ hbits₂⟩
    have hbyte₂ := fun {i} => byte_update_block hg₁.owns h0 data (i := i)
    refine ih (n - m) (by omega) hg₂ (by omega) (fun i hi hi' => hS i (by omega) (by omega)) ?_
    intro d' ip' hgrow₃ hg' hcov hbytes hzero honly₃ hsame₃
    have hpiece : ∀ {k : ℕ}, k < m →
        (off + k) / bsize = off / bsize ∧ (off + k) % bsize = off % bsize + k :=
      fun hk => piece_div hk (by omega)
    have hgrow₁₂ := hgrow₁.trans hgrow₂ hg₂.owns
    -- the blocks that are there, after the first piece
    have hthere : ∀ i, slot d ip (slotOf (i / bsize)) ≠ 0 ∨ i / bsize = off / bsize →
        slot d₁ ip₁ (slotOf (i / bsize)) ≠ 0 := fun i hi => by
      rcases hi with hi | hi
      · rwa [hgrow₁.keep _ hi]
      · rwa [hi]
    refine hQ d' ip' (hgrow₁₂.trans hgrow₃ hg'.owns) hg' (fun i hi hi' => ?_) (fun i hi => ?_)
      (fun i hi hi' hnot => ?_) (fun b hb => ?_) ?_
    · rcases Nat.lt_or_ge i (off + m) with him | him
      · obtain ⟨k, rfl⟩ := Nat.exists_eq_add_of_le hi
        have hdiv := (hpiece (k := k) (by omega)).1
        rw [hgrow₃.keep _ (by rw [hslot₂, hdiv]; exact h0), hslot₂, hdiv]
        exact h0
      · exact hcov i him (by omega)
    · by_cases hi2 : off + m ≤ i ∧ i < off + m + (n - m)
      · rw [hbytes i (Or.inr hi2), if_pos hi2, if_pos (by omega)]
        congr 1
        omega
      by_cases hi1 : off ≤ i ∧ i < off + n
      · obtain ⟨k, rfl⟩ := Nat.exists_eq_add_of_le hi1.1
        have hk : k < m := by omega
        obtain ⟨hdiv, hmod⟩ := hpiece hk
        have hi₁ := hthere (off + k) (Or.inr hdiv)
        rw [hbytes _ (Or.inl (by rwa [hslot₂])), if_neg hi2, hbyte₂ hi₁, if_pos hdiv, if_pos hi1,
          ← hdata, hmod, byteAt_patch (by rw [bsize] at *; omega), if_pos (by simp [hk]),
          Nat.add_sub_cancel_left, Nat.add_sub_cancel_left,
          List.getD_eq_getElem _ _ (by simpa using hk)]
        simp
      · have hi := hi.resolve_right hi1
        have hi₁ := hthere i (Or.inl hi)
        have hkept : byte d₁ ip₁ i = byte d ip i := by
          rw [byte, hgrow₁.keep _ hi, hkeep₁.blocks _ (slotOf_ne _) hi, byte]
        rw [hbytes i (Or.inl (by rwa [hslot₂])), if_neg hi2, hbyte₂ hi₁, if_neg hi1]
        by_cases hdiv : i / bsize = off / bsize
        · rw [if_pos hdiv, ← hdata, byteAt_patch_of_disjoint, ← hkept, byte, hdiv]
          rw [List.length_map, List.length_range]
          rw [bsize] at *
          omega
        · rw [if_neg hdiv, hkept]
    · by_cases hi₁ : slot d₁ ip₁ (slotOf (i / bsize)) = 0
      · exact hzero i (by rwa [hslot₂]) hi' (by omega)
      · have hz : byte d₁ ip₁ i = 0 := by
          rw [byte, hkeep₁.zero _ (slotOf_ne _) hi hi₁, byteAt_zeroBlock]
        rw [hbytes i (Or.inl (by rwa [hslot₂])), if_neg (by omega), hbyte₂ hi₁]
        by_cases hdiv : i / bsize = off / bsize
        · rw [if_pos hdiv, ← hdata, byteAt_patch_of_disjoint, ← hz, byte, hdiv]
          rw [List.length_map, List.length_range]
          rw [bsize] at *
          omega
        · rw [if_neg hdiv, hz]
    · rw [honly₃ b fun i hi hi' => hb i (by omega) (by omega), hslot₂,
        honly₁ b (hb off le_rfl (by omega)).symm]
    · intro hcov₀
      have hip₁ : ip₁ = ip := hsame₁ (hcov₀ off le_rfl (by omega))
      rw [hsame₃ fun i hi hi' => ?_, hip₁]
      rw [hslot₂]
      exact hthere i (Or.inl (hcov₀ i (by omega) (by omega)))

/-! ### The two functions -/

/-- The file has no more blocks than an inode has room for. -/
theorem Covered.size_le (hcov : Covered d ip 0 ip.size.toNat) :
    ip.size.toNat ≤ maxfile * bsize := by
  by_contra hlt
  refine hcov (maxfile * bsize) (Nat.zero_le _) (by omega) (slot_of_lt ?_)
  decide

/-- A file whose blocks are there lacks none. -/
theorem Covered.missing (hcov : Covered d ip 0 ip.size.toNat) :
    missing d ip (needed ip.size.toNat) = ∅ := by
  rw [Fs.missing, Finset.filter_eq_empty_iff]
  intro j hj
  rw [needed, Finset.mem_filter] at hj
  obtain ⟨-, hj⟩ := hj
  have hslot : ∀ bn, bn * bsize < ip.size.toNat → slot d ip (slotOf bn) ≠ 0 := fun bn hbn => by
    have hi := hcov (bn * bsize) (Nat.zero_le _) (by omega)
    rwa [Nat.mul_div_cancel bn (by decide)] at hi
  by_cases hdirect : j < ndirect
  · rw [if_pos hdirect] at hj
    have h := hslot j hj
    rwa [slotOf, if_pos hdirect] at h
  · rw [if_neg hdirect] at hj
    have h := hslot _ hj
    rcases Nat.lt_or_eq_of_le (not_lt.mp hdirect) with hlt | heq
    · rw [max_eq_right (by omega), slotOf, if_neg (by omega)] at h
      rwa [Nat.sub_add_cancel (by omega)] at h
    · -- an entry of the indirect block is there, and so the block is
      intro hzero
      rw [← heq, slot_direct le_rfl] at hzero
      refine h (slot_of_addr_eq_zero hzero ?_)
      rw [slotOf, if_neg (by omega)]
      omega

theorem toNat_add_of_le {off n : UInt32} (h : off ≤ off + n) :
    (off + n).toNat = off.toNat + n.toNat ∧ off.toNat + n.toNat < 2 ^ 32 := by
  have hn := n.toNat_lt
  have hoff := off.toNat_lt
  rw [UInt32.le_iff_toNat_le, UInt32.toNat_add] at h
  rw [UInt32.toNat_add]
  omega

/-- The arguments that `readi` and `writei` accept. -/
def Accepts (ip : Dinode) (off n : UInt32) : Prop :=
  off.toNat ≤ ip.size.toNat ∧ off.toNat + n.toNat < 2 ^ 32

theorem accepts_iff {off n : UInt32} :
    Accepts ip off n ↔ ¬(ip.size < off ∨ off + n < off) := by
  rw [Accepts, not_or, UInt32.not_lt, UInt32.not_lt, UInt32.le_iff_toNat_le]
  refine and_congr Iff.rfl ⟨fun h => ?_, fun h => (toNat_add_of_le h).2⟩
  rw [UInt32.le_iff_toNat_le, UInt32.toNat_add, Nat.mod_eq_of_lt h]
  exact Nat.le_add_right _ _

/-- The content of an inode. -/
def contents (d : Disk) (ip : Dinode) : List UInt8 := (List.range ip.size.toNat).map (byte d ip)

@[simp] theorem length_contents : (contents d ip).length = ip.size.toNat := by
  simp [contents]

theorem getElem_contents {i : ℕ} (hi : i < (contents d ip).length) :
    (contents d ip)[i] = byte d ip i := by
  simp [contents]

/-- **The rule of `readi`**, for a file whose blocks are there. -/
theorem wp_readi {dev : Devsw} {off n : UInt32} {Q : ℤ × List UInt8 × Dinode → Disk → Prop}
    (htype : ip.type ≠ tDev) (hcov : Covered d ip 0 ip.size.toNat)
    (hbad : ¬Accepts ip off n → Q (-1, [], ip) d)
    (hok : Accepts ip off n → Q ((((contents d ip).drop off.toNat).take n.toNat).length,
      ((contents d ip).drop off.toNat).take n.toNat, ip) d) :
    wp (readi sb dev ip off n) E Q d := by
  rw [readi, if_neg htype, wp_ite]
  refine ⟨fun h => hbad fun hacc => accepts_iff.mp hacc h, fun h => ?_⟩
  have hacc : Accepts ip off n := accepts_iff.mpr h
  have hsum := (toNat_add_of_le (UInt32.not_lt.mp (not_or.mp h).2)).1
  obtain ⟨hoff, -⟩ := hacc
  have hmax := hcov.size_le
  generalize hm : (if ip.size < off + n then ip.size - off else n) = m
  have hmin : m.toNat = min n.toNat (ip.size.toNat - off.toNat) := by
    rw [← hm]
    by_cases hlt : ip.size < off + n
    · rw [if_pos hlt, UInt32.toNat_sub_of_le _ _ (UInt32.le_iff_toNat_le.mpr hoff)]
      rw [UInt32.lt_iff_toNat_lt, hsum] at hlt
      omega
    · rw [if_neg hlt]
      rw [UInt32.lt_iff_toNat_lt, hsum] at hlt
      omega
  have hbytes : (List.range m.toNat).map (fun k => byte d ip (off.toNat + k)) =
      ((contents d ip).drop off.toNat).take n.toNat := by
    refine List.ext_getElem (by simp [hmin]) fun k hk _ => ?_
    rw [List.getElem_map, List.getElem_range, List.getElem_take, List.getElem_drop,
      getElem_contents]
  simp only [wp_bind]
  refine wp_readLoop _ (by omega) (fun i _ hi => hcov i (Nat.zero_le _) (by omega)) ?_
  rw [wp_pure, hbytes]
  have hlen : m.toNat = (((contents d ip).drop off.toNat).take n.toNat).length := by
    rw [← hbytes, List.length_map, List.length_range]
  rw [hlen]
  exact hok ⟨hoff, (toNat_add_of_le (UInt32.not_lt.mp (not_or.mp h).2)).2⟩

/-- The arguments with which `writei` writes. -/
def AcceptsWrite (ip : Dinode) (off n : UInt32) : Prop :=
  off.toNat ≤ ip.size.toNat ∧ off.toNat + n.toNat ≤ maxfile * bsize

/-- What the bytes of the file are after a write. -/
def Patched (d : Disk) (ip : Dinode) (src : ℕ → UInt8) (off n : ℕ) (d' : Disk) (ip' : Dinode) :
    Prop :=
  ∀ i < max ip.size.toNat (off + n),
    byte d' ip' i = if off ≤ i ∧ i < off + n then src (i - off) else byte d ip i

/-- **The rule of `writei`**, for a file whose blocks are there: it refuses, or it writes
into the file, or it makes the file longer and updates the inode. -/
theorem wp_writei {dev : Devsw} {inum : ℕ} {src : ℕ → UInt8} {off n : UInt32}
    {Q : ℤ × Dinode → Disk → Prop} (hl : Layout sb) (htype : ip.type ≠ tDev)
    (hg : Good (E noBlocks) sb S d ip) (hcov : Covered d ip 0 ip.size.toNat)
    (hS : AcceptsWrite ip off n → needed (max ip.size.toNat (off.toNat + n.toNat)) ⊆ S)
    (hbad : ¬AcceptsWrite ip off n → Q (-1, ip) d)
    (hsame : AcceptsWrite ip off n → off.toNat + n.toNat ≤ ip.size.toNat → ∀ d',
      Grows sb d ip d' ip → Good (E noBlocks) sb S d' ip →
      Patched d ip src off.toNat n.toNat d' ip → Q (n.toNat, ip) d')
    (hgrow : AcceptsWrite ip off n → (off + n).toNat = off.toNat + n.toNat →
      ip.size.toNat < off.toNat + n.toNat → ∀ d' ip',
      Grows sb d ip d' ip' → Good (E noBlocks) sb S d' ip' → Covered d' ip' 0 (off + n).toNat →
      Patched d ip src off.toNat n.toNat d' ip' →
      Q (n.toNat, { ip' with size := off + n })
        (putDinode sb d' inum { ip' with size := off + n })) :
    wp (writei sb dev inum ip src off n) E Q d := by
  rw [writei, if_neg htype, wp_ite]
  -- the two checks of the source are `AcceptsWrite`
  refine ⟨fun h => hbad fun hacc => ?_, fun h => ?_⟩
  · refine accepts_iff.mp ⟨hacc.1, hacc.2.trans_lt ?_⟩ h
    rw [maxfile, bsize]
    omega
  have hsum := (toNat_add_of_le (UInt32.not_lt.mp (not_or.mp h).2)).1
  have hoff : off.toNat ≤ ip.size.toNat := (accepts_iff.mpr h).1
  rw [wp_ite]
  refine ⟨fun hbig => hbad fun hacc => ?_, fun hsmall => ?_⟩
  · rw [hsum] at hbig
    exact absurd hacc.2 (by omega)
  rw [hsum, not_lt] at hsmall
  have hacc : AcceptsWrite ip off n := ⟨hoff, hsmall⟩
  have hlt_iff : ip.size < off + n ↔ ip.size.toNat < off.toNat + n.toNat := by
    rw [UInt32.lt_iff_toNat_lt, hsum]
  have hneed := hS hacc
  have hmax := hcov.size_le
  rw [wp_bind]
  refine wp_writeLoop hl _ hg hsmall (fun i _ hi =>
    ⟨hneed (slotOf_mem_needed (hi.trans_le (le_max_right _ _)) (by omega)),
      fun h12 => hneed (ndirect_mem_needed (hi.trans_le (le_max_right _ _)) h12)⟩) ?_
  intro d' ip' hgr hg' hcov' hbytes _ _ hsame'
  have hsize : ip'.size = ip.size := by rw [hgr.fields]
  have hpatched : Patched d ip src off.toNat n.toNat d' ip' := fun i hi => hbytes i <| by
    rcases Nat.lt_or_ge i ip.size.toNat with his | his
    · exact Or.inl (hcov i (Nat.zero_le _) (by omega))
    · exact Or.inr (by omega)
  rcases Nat.lt_or_ge ip.size.toNat (off.toNat + n.toNat) with hlt | hge
  · -- the file grows
    have hcond : 0 < n ∧ ip'.size < off + n := by
      rw [hsize, hlt_iff, UInt32.lt_iff_toNat_lt, UInt32.toNat_zero]
      exact ⟨by omega, hlt⟩
    simp only [if_pos hcond, wp_bind, wp_iupdate, wp_pure]
    refine hgrow hacc hsum hlt d' ip' hgr hg' (fun i _ hi => ?_) hpatched
    rw [hsum] at hi
    rcases Nat.lt_or_ge i off.toNat with hio | hio
    · have hi0 := hcov i (Nat.zero_le _) (by omega)
      rwa [hgr.keep _ hi0]
    · exact hcov' i hio (by omega)
  · -- it does not, and no block has been added
    have hcond : ¬(0 < n ∧ ip'.size < off + n) := by
      rw [hsize, hlt_iff]
      exact fun h => absurd h.2 (not_lt.mpr hge)
    have hip : ip' = ip := hsame' fun i _ hi => hcov i (Nat.zero_le _) (by omega)
    simp only [if_neg hcond, wp_pure]
    rw [hip] at hgr hg' hpatched ⊢
    exact hsame hacc hge d' hgr hg' hpatched

end Rules

end Fs
end Xv6

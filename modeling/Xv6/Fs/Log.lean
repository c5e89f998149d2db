import Xv6.Lib.Counter
import Xv6.Lib.Crash

/-!
# The log

The write-ahead log of `log.c`.  A transaction is a set of blocks whose new contents are
in the buffer cache; `commit` copies them to the log, writes the header that names them,
installs them at home and clears the header, and `recover_from_log` installs, at boot,
what the header names.

All of this is block writes, one after the other; a store keeps the list of them.

* `Region`, `Transaction` — where the log is, and what it takes.
* `bread`, `bwrite`, `writeLog`, `installTrans`, `writeHead`, `readHead`, `commit`,
  `recoverFromLog`, `logWrite` — the functions.
* `writeLog_eq`, `installTrans_eq`, `commit_eq`, `recoverFromLog_eq` — the block writes
  that each issues.
* `readHeader_setHeader` — the header is read back as it was written.
* `transaction_of_logWrite` — `log_write` builds transactions.
-/

namespace Xv6
namespace Log

open Counter

/-! ### Blocks and the header -/

/-- A block: `BSIZE` bytes, as words. -/
abbrev Block := Vector UInt32 128

/-- `LOGSIZE`. -/
def logSize : ℕ := 30

/-- `hb->block[i] = …`, from the word `i` of the block on. -/
def setWords : Block → ℕ → List UInt32 → Block
  | b, _, [] => b
  | b, i, w :: ws => setWords (b.setIfInBounds i w) (i + 1) ws

/-- The `n` words from the word `i` on. -/
def getWords (b : Block) : ℕ → ℕ → List UInt32
  | _, 0 => []
  | i, n + 1 => b[i]?.getD 0 :: getWords b (i + 1) n

/-- The header block with `n` and `block` written to it. -/
def setHeader (hb : Block) (bs : List UInt32) : Block :=
  setWords (hb.setIfInBounds 0 (UInt32.ofNat bs.length)) 1 bs

/-- `n` and `block` of a header block, as the loops use them.  More blocks than
`log.lh.block` has room for leave the array. -/
def readHeader (hb : Block) : Option (List UInt32) :=
  let n := (hb[0]?.getD 0).toInt32.toInt.toNat
  if n ≤ logSize then some (getWords hb 1 n) else none

theorem getElem?_setWords (ws : List UInt32) : ∀ (b : Block) (i j : ℕ), j < i →
    (setWords b i ws)[j]? = b[j]? := by
  induction ws with
  | nil => intro b i j _; rfl
  | cons w ws ih =>
    intro b i j hj
    rw [setWords, ih _ _ _ (by omega), Vector.getElem?_setIfInBounds, if_neg (by omega)]

theorem getWords_setWords (ws : List UInt32) : ∀ (b : Block) (i : ℕ), i + ws.length ≤ 128 →
    getWords (setWords b i ws) i ws.length = ws := by
  induction ws with
  | nil => intro b i _; rfl
  | cons w ws ih =>
    intro b i hlen
    rw [List.length_cons] at hlen ⊢
    rw [getWords, setWords, getElem?_setWords _ _ _ _ (Nat.lt_succ_self i), ih _ _ (by omega),
      Vector.getElem?_setIfInBounds, if_pos rfl, if_pos (by omega)]
    rfl

/-- **The header is read back as it was written.** -/
theorem readHeader_setHeader (hb : Block) {bs : List UInt32} (h : bs.length ≤ logSize) :
    readHeader (setHeader hb bs) = some bs := by
  have hcast : ∀ n ≤ logSize, (UInt32.ofNat n).toInt32.toInt.toNat = n := by decide
  have hlen : bs.length ≤ 30 := h
  have hcount : (setHeader hb bs)[0]? = some (UInt32.ofNat bs.length) := by
    rw [setHeader, getElem?_setWords _ _ _ _ Nat.zero_lt_one, Vector.getElem?_setIfInBounds]
    rfl
  simp only [readHeader, hcount, Option.getD_some, hcast _ h]
  rw [if_pos h, setHeader, getWords_setWords _ _ _ (by omega)]

/-! ### The store -/

/-- The disk as the log sees it: `view b` is the buffer of block `b` if it is cached and the
block on the disk if not, which is what `bread` returns; `writes` are the block writes so
far. -/
structure Store where
  view : UInt32 → Block
  writes : List (UInt32 × Block)

/-- The store at boot: nothing is cached. -/
def Store.boot (disk : UInt32 → Block) : Store := ⟨disk, []⟩

/-- `bread`. -/
def bread (s : Store) (b : UInt32) : Block := s.view b

/-- `bwrite`, of the buffer of block `b` with new contents. -/
def bwrite (s : Store) (b : UInt32) (data : Block) : Store :=
  ⟨Function.update s.view b data, s.writes ++ [(b, data)]⟩

/-- The block of the log for the `tail`-th logged block. -/
def logBlock (start : UInt32) (tail : ℕ) : UInt32 := start + UInt32.ofNat tail + 1

/-! ### The code -/

/-- The loop of `install_trans`, from `tail` on. -/
def installLoop (start : UInt32) : ℕ → List UInt32 → Store → Store
  | _, [], s => s
  | tail, b :: bs, s => installLoop start (tail + 1) bs (bwrite s b (bread s (logBlock start tail)))

/-- `install_trans`. -/
def installTrans (start : UInt32) (bs : List UInt32) (s : Store) : Store :=
  installLoop start 0 bs s

/-- `read_head`. -/
def readHead (start : UInt32) (s : Store) : Option (List UInt32) := readHeader (bread s start)

/-- `write_head`. -/
def writeHead (start : UInt32) (bs : List UInt32) (s : Store) : Store :=
  bwrite s start (setHeader (bread s start) bs)

/-- `recover_from_log`. -/
def recoverFromLog (start : UInt32) (s : Store) : Option Store :=
  (readHead start s).map fun bs => writeHead start [] (installTrans start bs s)

/-- The loop of `write_log`, from `tail` on. -/
def writeLoop (start : UInt32) : ℕ → List UInt32 → Store → Store
  | _, [], s => s
  | tail, b :: bs, s => writeLoop start (tail + 1) bs (bwrite s (logBlock start tail) (bread s b))

/-- `write_log`. -/
def writeLog (start : UInt32) (bs : List UInt32) (s : Store) : Store := writeLoop start 0 bs s

/-- `commit`. -/
def commit (start : UInt32) (bs : List UInt32) (s : Store) : Store :=
  if 0 < bs.length then
    writeHead start [] (installTrans start bs (writeHead start bs (writeLog start bs s)))
  else s

/-- `log_write`, of the block `b`: the logged blocks, or a panic. -/
def logWrite (size outstanding : ℕ) (bs : List UInt32) (b : UInt32) : Except String (List UInt32) :=
  if logSize ≤ bs.length ∨ (size : ℤ) - 1 ≤ bs.length then .error "too big a transaction"
  else if outstanding < 1 then .error "log_write outside of trans"
  else .ok (if b ∈ bs then bs else bs ++ [b])

/-! ### Regions and transactions -/

/-- Where the log is: `log.start` and `log.size`. -/
structure Region where
  start : UInt32
  size : ℕ
  size_pos : 0 < size

/-- The block is in the log. -/
def Region.Has (r : Region) (b : UInt32) : Prop := dist r.start b < r.size

/-- The blocks of a transaction: different blocks outside the log, which it has room for. -/
structure Transaction (r : Region) where
  blocks : List UInt32
  nodup : blocks.Nodup
  outside : ∀ b ∈ blocks, ¬ r.Has b
  length_le_size : blocks.length ≤ r.size - 1
  length_le : blocks.length ≤ logSize

/-- The transaction without blocks. -/
def Transaction.empty (r : Region) : Transaction r :=
  ⟨[], List.nodup_nil, by simp, Nat.zero_le _, Nat.zero_le _⟩

/-- **`log_write` builds transactions**: a block outside the log, where it does not panic. -/
theorem transaction_of_logWrite {r : Region} (t : Transaction r) {outstanding : ℕ} {b : UInt32}
    {bs : List UInt32} (hb : ¬ r.Has b) (h : logWrite r.size outstanding t.blocks b = .ok bs) :
    ∃ t' : Transaction r, t'.blocks = bs := by
  unfold logWrite at h
  split at h
  · contradiction
  · next hroom =>
    split at h
    · contradiction
    · rw [Except.ok.injEq] at h
      subst h
      split
      · exact ⟨t, rfl⟩
      · next hmem =>
        have hsize := r.size_pos
        refine ⟨⟨t.blocks ++ [b], ?_, ?_, ?_, ?_⟩, rfl⟩
        · rw [List.nodup_append]
          refine ⟨t.nodup, List.nodup_singleton b, fun a ha a' ha' heq => hmem ?_⟩
          rw [← List.mem_singleton.mp ha', ← heq]
          exact ha
        · intro a ha
          rcases List.mem_append.mp ha with ha | ha
          · exact t.outside a ha
          · rw [List.mem_singleton.mp ha]
            exact hb
        · rw [List.length_append, List.length_singleton]
          omega
        · rw [List.length_append, List.length_singleton]
          omega

theorem Region.has_start (r : Region) : r.Has r.start := by
  rw [Region.Has, dist_self]
  exact r.size_pos

/-! ### The block writes -/

/-- The block writes `ws` are issued. -/
def Store.issue (s : Store) (ws : List (UInt32 × Block)) : Store :=
  ⟨Crash.apply s.view ws, s.writes ++ ws⟩

theorem bwrite_eq (s : Store) (b : UInt32) (data : Block) :
    bwrite s b data = s.issue [(b, data)] := rfl

@[simp] theorem issue_nil (s : Store) : s.issue [] = s := by simp [Store.issue]

theorem issue_append (s : Store) (ws vs : List (UInt32 × Block)) :
    (s.issue ws).issue vs = s.issue (ws ++ vs) := by
  simp [Store.issue, Crash.apply_append]

/-- The blocks of the log for `n` logged blocks, from the `tail`-th on. -/
def logBlocks (start : UInt32) (tail n : ℕ) : List UInt32 :=
  (List.range' tail n).map (logBlock start)

@[simp] theorem logBlocks_succ (start : UInt32) (tail n : ℕ) :
    logBlocks start tail (n + 1) = logBlock start tail :: logBlocks start (tail + 1) n := rfl

@[simp] theorem length_logBlocks (start : UInt32) (tail n : ℕ) :
    (logBlocks start tail n).length = n := by simp [logBlocks]

section Writes

variable {r : Region} (t : Transaction r)

theorem dist_logBlock (start : UInt32) (tail : ℕ) (h : tail < logSize) :
    dist start (logBlock start tail) = tail + 1 := by
  have hlt : tail < 30 := h
  have hd : dist start (start + UInt32.ofNat tail) = tail := dist_add_ofNat start (by omega)
  rw [logBlock, dist_succ_right (by omega), hd]

/-- The blocks of the log for a transaction are in the log, behind the header. -/
theorem logBlock_spec (tail : ℕ) (h : tail < t.blocks.length) :
    r.Has (logBlock r.start tail) ∧ logBlock r.start tail ≠ r.start := by
  have hd := dist_logBlock r.start tail (lt_of_lt_of_le h t.length_le)
  have hsize := t.length_le_size
  refine ⟨?_, fun heq => ?_⟩
  · rw [Region.Has, hd]
    omega
  · rw [heq, dist_self] at hd
    omega

theorem logBlocks_spec {b : UInt32} (h : b ∈ logBlocks r.start 0 t.blocks.length) :
    r.Has b ∧ b ≠ r.start := by
  obtain ⟨tail, htail, rfl⟩ := List.mem_map.mp h
  rw [List.mem_range'_1] at htail
  exact logBlock_spec t tail (by omega)

theorem nodup_logBlocks : (logBlocks r.start 0 t.blocks.length).Nodup := by
  refine List.Nodup.map_on (fun i hi j hj heq => ?_) List.nodup_range'
  rw [List.mem_range'_1] at hi hj
  have hle := t.length_le
  have hdi := dist_logBlock r.start i (by omega)
  have hdj := dist_logBlock r.start j (by omega)
  rw [heq] at hdi
  omega

/-- `write_log` copies the buffers of the logged blocks to the log. -/
theorem writeLoop_eq : ∀ (bs : List UInt32) (tail : ℕ) (s : Store), (∀ b ∈ bs, ¬ r.Has b) →
    tail + bs.length ≤ t.blocks.length →
      writeLoop r.start tail bs s =
        s.issue ((logBlocks r.start tail bs.length).zip (bs.map s.view)) := by
  intro bs
  induction bs with
  | nil => intro tail s _ _; simp [writeLoop]
  | cons b bs ih =>
    intro tail s hbs hlen
    rw [List.length_cons] at hlen
    have hlog := (logBlock_spec t tail (by omega)).1
    -- the buffers still to be copied are none of the log's
    have hview : bs.map (bwrite s (logBlock r.start tail) (bread s b)).view = bs.map s.view := by
      refine List.map_congr_left fun b' hb' => Function.update_of_ne (fun heq => ?_) _ _
      exact hbs b' (List.mem_cons_of_mem b hb') (heq ▸ hlog)
    rw [writeLoop, ih _ _ (fun b' hb' => hbs b' (List.mem_cons_of_mem b hb')) (by omega), hview,
      bwrite_eq, issue_append]
    rfl

theorem writeLog_eq (s : Store) : writeLog r.start t.blocks s =
    s.issue ((logBlocks r.start 0 t.blocks.length).zip (t.blocks.map s.view)) :=
  writeLoop_eq t t.blocks 0 s t.outside (by omega)

/-- `install_trans` copies the log to the homes of the logged blocks. -/
theorem installLoop_eq : ∀ (bs : List UInt32) (tail : ℕ) (s : Store), (∀ b ∈ bs, ¬ r.Has b) →
    tail + bs.length ≤ t.blocks.length →
      installLoop r.start tail bs s =
        s.issue (bs.zip ((logBlocks r.start tail bs.length).map s.view)) := by
  intro bs
  induction bs with
  | nil => intro tail s _ _; simp [installLoop]
  | cons b bs ih =>
    intro tail s hbs hlen
    rw [List.length_cons] at hlen
    -- the copies still to be installed are in the log, where `b` is not
    have hview : (logBlocks r.start (tail + 1) bs.length).map
          (bwrite s b (bread s (logBlock r.start tail))).view =
        (logBlocks r.start (tail + 1) bs.length).map s.view := by
      refine List.map_congr_left fun b' hb' => Function.update_of_ne (fun heq => ?_) _ _
      obtain ⟨i, hi, rfl⟩ := List.mem_map.mp hb'
      rw [List.mem_range'_1] at hi
      exact hbs b List.mem_cons_self (heq ▸ (logBlock_spec t i (by omega)).1)
    rw [installLoop, ih _ _ (fun b' hb' => hbs b' (List.mem_cons_of_mem b hb')) (by omega), hview,
      bwrite_eq, issue_append]
    rfl

theorem installTrans_eq (s : Store) : installTrans r.start t.blocks s =
    s.issue (t.blocks.zip ((logBlocks r.start 0 t.blocks.length).map s.view)) :=
  installLoop_eq t t.blocks 0 s t.outside (by omega)

theorem writeHead_eq (s : Store) (start : UInt32) (bs : List UInt32) :
    writeHead start bs s = s.issue [(start, setHeader (s.view start) bs)] := rfl

/-- The header's block is no home. -/
theorem start_notMem : r.start ∉ t.blocks := fun h => t.outside _ h r.has_start

/-- What `install_trans` and the last `write_head` write, for contents `f` in the log. -/
def installWrites (hb : Block) (f : UInt32 → Block) : List (UInt32 × Block) :=
  t.blocks.zip (t.blocks.map f) ++ [(r.start, setHeader hb [])]

/-- **The block writes of `recover_from_log`**, when the header names a transaction. -/
theorem recoverFromLog_eq {s : Store} {f : UInt32 → Block}
    (hhead : readHeader (s.view r.start) = some t.blocks)
    (hlog : (logBlocks r.start 0 t.blocks.length).map s.view = t.blocks.map f) :
    recoverFromLog r.start s = some (s.issue (installWrites t (s.view r.start) f)) := by
  have hstart : (s.issue (t.blocks.zip (t.blocks.map f))).view r.start = s.view r.start :=
    Crash.apply_zip_of_notMem (start_notMem t) _
  rw [recoverFromLog, readHead, bread, hhead, Option.map_some, installTrans_eq, hlog,
    writeHead_eq, hstart, issue_append]
  rfl

/-- **The block writes of `commit`.** -/
theorem commit_eq (s : Store) (h : t.blocks ≠ []) :
    commit r.start t.blocks s =
      s.issue ((logBlocks r.start 0 t.blocks.length).zip (t.blocks.map s.view) ++
        (r.start, setHeader (s.view r.start) t.blocks) ::
          installWrites t (setHeader (s.view r.start) t.blocks) s.view) := by
  set ls := logBlocks r.start 0 t.blocks.length with hls
  have hstart : (s.issue (ls.zip (t.blocks.map s.view))).view r.start = s.view r.start :=
    Crash.apply_zip_of_notMem (fun hmem => (logBlocks_spec t hmem).2 rfl) _
  set s₁ := (s.issue (ls.zip (t.blocks.map s.view))).issue
    [(r.start, setHeader (s.view r.start) t.blocks)] with hs₁
  -- behind the header the log holds the new contents
  have hlog : ls.map s₁.view = t.blocks.map s.view := by
    rw [← Crash.map_apply_zip (t.blocks.map s.view) s.view (nodup_logBlocks t) (by simp)]
    refine List.map_congr_left fun b hb => ?_
    exact Function.update_of_ne (logBlocks_spec t hb).2 _ _
  have hhead : (s₁.issue (t.blocks.zip (t.blocks.map s.view))).view r.start =
      setHeader (s.view r.start) t.blocks := by
    refine (Crash.apply_zip_of_notMem (start_notMem t) _).trans ?_
    exact Function.update_self _ _ _
  have hfirst : writeHead r.start t.blocks (writeLog r.start t.blocks s) = s₁ := by
    rw [writeLog_eq, ← hls, writeHead_eq, hstart]
  rw [commit, if_pos (List.length_pos_iff.mpr h), hfirst, installTrans_eq, ← hls, hlog,
    writeHead_eq, hhead, issue_append, hs₁, issue_append, issue_append]
  simp [installWrites]

end Writes

end Log
end Xv6

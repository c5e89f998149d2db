import Xv6.Fs.BufferRefs

/-!
# Dirty buffers

A buffer that is dirty holds a block of the running transaction which is not installed yet,
and every such block has a dirty buffer.  To keep this over the steps of `commit` one has
to know where in its code the committing process is.

* `Uninstalled` — a logged block that `install_trans` has yet to write home.
* `Inv` — **the invariant.**
* `inv_of_cache`, `inv_of_log` — what a step of the cache, or of the log, has to leave alone.
* `code_bwrite` — what `commit` writes, and where.
* `step_cases`, `inv_step` — every step, and that it keeps the invariant.
-/

namespace Xv6
namespace WriteAhead

open Log BufferCache
open GroupCommit (CommitPc Phase Pending toOption_eq_some)

/-- At this place of `commit` the block `b` is not yet installed. -/
def Remains (lh : List UInt32) (todo : List Cmd) (b : UInt32) : CommitPc → Prop
  | .entry | .writeLog _ | .writeHead => True
  | .installTrans tail => ∀ k, lh[k]? = some b → tail ≤ k ∧ (k = tail → .bwrite b ∈ todo)
  | .clear | .eraseHead | .finish => False

variable {P : Type*}

/-- No process in `commit` has installed the block `b`. -/
def Uninstalled (s : State P) (b : UInt32) : Prop :=
  ∀ p pc, s.log.phase p = .committing pc → Remains s.log.lh (s.proc p).todo b pc

/-- The process is about to write the header it has made up. -/
def AtHeader (start : UInt32) (x : Proc) : Prop := x.todo = [.bwrite start, .brelse start]

variable [Fintype P]

/-- **The invariant.** -/
structure Inv (r : Region) (s : State P) : Prop where
  log : GroupCommit.Inv r.size s.log
  refs : Refs s.bcache s.proc
  valid : ∀ i, (s.bcache.buf i).dirty = true → (s.bcache.buf i).valid = true
  /-- A dirty buffer is one of the transaction. -/
  dirty : ∀ i, (s.bcache.buf i).dirty = true →
    ∃ b ∈ s.log.lh, (s.bcache.buf i).blk = some b ∧ Uninstalled s b
  /-- A block of the transaction is in a dirty buffer. -/
  pinned : ∀ b ∈ s.log.lh, Uninstalled s b →
    ∃ i, (s.bcache.buf i).blk = some b ∧ (s.bcache.buf i).dirty = true
  outside : ∀ b ∈ s.log.lh, ¬ r.Has b
  modified : ∀ p i, (s.proc p).busy = .modified i →
    s.log.phase p = .inOp ∧ ∃ b, (b, i) ∈ (s.proc p).held ∧ ¬ r.Has b
  code : ∀ p pc, s.log.phase p = .committing pc →
    (s.proc p).todo <:+ code r.start s.log.lh pc
  header : ∀ p pc, s.log.phase p = .committing pc → AtHeader r.start (s.proc p) →
    (s.proc p).busy = .ready ∧ ∀ i, (s.proc p).buffer r.start = some i →
      readHeader (s.bcache.buf i).data = some s.log.lh

variable {r : Region} {s : State P}

/-- In an operation no block of the transaction is installed. -/
theorem uninstalled_of_not_committing (h : GroupCommit.Inv r.size s.log)
    (hc : s.log.committing = false) (b : UInt32) : Uninstalled s b := fun p pc hp =>
  absurd hp (h.not_running hc p pc)

/-- A block in the log is in no dirty buffer. -/
theorem Inv.clean_of_has (h : Inv r s) {i : ℕ} {b : UInt32} (hb : r.Has b)
    (hi : (s.bcache.buf i).blk = some b) : (s.bcache.buf i).dirty = false := by
  cases hdirty : (s.bcache.buf i).dirty with
  | false => rfl
  | true =>
    obtain ⟨b', hb', hi', -⟩ := h.dirty i hdirty
    rw [hi, Option.some.injEq] at hi'
    exact absurd (hi' ▸ hb) (h.outside b' hb')

variable [DecidableEq P] {p : P}

/-! ### Steps of the cache -/

/-- A step of `p` in the cache that leaves the dirty buffers as they are. -/
theorem inv_of_cache (h : Inv r s) {c : Cache P} {x : Proc}
    (hrefs : Refs c (Function.update s.proc p x))
    (hdirty : ∀ i, (c.buf i).dirty = (s.bcache.buf i).dirty)
    (hvalid : ∀ i, (c.buf i).dirty = true → (c.buf i).valid = true)
    (hblk : ∀ i, (s.bcache.buf i).dirty = true → (c.buf i).blk = (s.bcache.buf i).blk)
    (hdata : ∀ i q, (s.bcache.buf i).lock = some q → q ≠ p →
      (c.buf i).data = (s.bcache.buf i).data)
    (htodo : ∀ tail, s.log.phase p = .committing (.installTrans tail) →
      ∀ b, Cmd.bwrite b ∈ x.todo ↔ .bwrite b ∈ (s.proc p).todo)
    (hcode : ∀ pc, s.log.phase p = .committing pc → x.todo <:+ code r.start s.log.lh pc)
    (hmod : ∀ i, x.busy = .modified i → s.log.phase p = .inOp ∧ ∃ b, (b, i) ∈ x.held ∧ ¬ r.Has b)
    (hhead : ∀ pc, s.log.phase p = .committing pc → AtHeader r.start x →
      x.busy = .ready ∧ ∀ i, x.buffer r.start = some i →
        readHeader (c.buf i).data = some s.log.lh) :
    Inv r ({ s with bcache := c }.setProc p x) := by
  have hun : ∀ b, Uninstalled ({ s with bcache := c }.setProc p x) b ↔ Uninstalled s b := by
    refine fun b => forall_congr' fun q => forall_congr' fun pc => imp_congr_right fun hq => ?_
    rw [State.setProc_proc]
    rcases eq_or_ne q p with rfl | hne
    · rw [Function.update_self]
      cases pc with
      | installTrans tail => simp [Remains, htodo tail hq]
      | _ => rfl
    · rw [Function.update_of_ne hne]
      rfl
  refine ⟨h.log, hrefs, hvalid, fun i hi => ?_, fun b hb hb' => ?_, h.outside, fun q i hq => ?_,
    fun q pc hq => ?_, fun q pc hq hat => ?_⟩
  · have hi' : (s.bcache.buf i).dirty = true := (hdirty i).symm.trans hi
    obtain ⟨b, hb, hblk', hb'⟩ := h.dirty i hi'
    exact ⟨b, hb, (hblk i hi').trans hblk', (hun b).mpr hb'⟩
  · obtain ⟨i, hi, hi'⟩ := h.pinned b hb ((hun b).mp hb')
    exact ⟨i, (hblk i hi').trans hi, (hdirty i).trans hi'⟩
  · rw [State.setProc_proc] at hq ⊢
    rcases eq_or_ne q p with rfl | hne
    · rw [Function.update_self] at hq ⊢
      exact hmod i hq
    · rw [Function.update_of_ne hne] at hq ⊢
      exact h.modified q i hq
  · rw [State.setProc_proc]
    rcases eq_or_ne q p with rfl | hne
    · rw [Function.update_self]
      exact hcode pc hq
    · rw [Function.update_of_ne hne]
      exact h.code q pc hq
  · rw [State.setProc_proc] at hat ⊢
    rcases eq_or_ne q p with rfl | hne
    · rw [Function.update_self] at hat ⊢
      exact hhead pc hq hat
    · rw [Function.update_of_ne hne] at hat ⊢
      obtain ⟨hready, hread⟩ := h.header q pc hq hat
      refine ⟨hready, fun i hi => ?_⟩
      -- the buffer is locked by `q`
      have hlock := (h.refs.held q _ i (Proc.mem_of_buffer hi)).2.1
      rw [State.setProc_bcache, hdata i q hlock hne]
      exact hread i hi

/-- A step of `p` with one buffer, which neither dirties nor cleans it. -/
theorem inv_of_set (h : Inv r s) {i : ℕ} {y : Buf P} {x : Proc}
    (hrefs : Refs (s.bcache.set i y) (Function.update s.proc p x))
    (hdirty : y.dirty = (s.bcache.buf i).dirty) (hvalid : y.dirty = true → y.valid = true)
    (hblk : (s.bcache.buf i).dirty = true → y.blk = (s.bcache.buf i).blk)
    (hdata : (s.bcache.buf i).lock = none ∨ (s.bcache.buf i).lock = some p ∨
      y.data = (s.bcache.buf i).data)
    (htodo : x.todo = (s.proc p).todo)
    (hmod : ∀ i, x.busy = .modified i → s.log.phase p = .inOp ∧ ∃ b, (b, i) ∈ x.held ∧ ¬ r.Has b)
    (hhead : ∀ pc, s.log.phase p = .committing pc → ¬ AtHeader r.start (s.proc p)) :
    Inv r ({ s with bcache := s.bcache.set i y }.setProc p x) := by
  refine inv_of_cache h hrefs (Cache.apply_set Buf.dirty hdirty) (fun j hj => ?_)
    (fun j hj => ?_) (fun j q hj hq => ?_) (fun _ _ b => by rw [htodo])
    (fun pc hpc => htodo ▸ h.code p pc hpc) hmod fun pc hpc hat => absurd ?_ (hhead pc hpc)
  · rcases eq_or_ne j i with rfl | hne
    · rw [Cache.set_buf_self] at hj ⊢
      exact hvalid hj
    · rw [Cache.set_buf_of_ne _ _ hne] at hj ⊢
      exact h.valid j hj
  · rcases eq_or_ne j i with rfl | hne
    · rw [Cache.set_buf_self]
      exact hblk hj
    · rw [Cache.set_buf_of_ne _ _ hne]
  · rcases eq_or_ne j i with rfl | hne
    · rw [Cache.set_buf_self]
      rcases hdata with hnone | hsome | hsame
      · rw [hnone] at hj
        contradiction
      · rw [hsome, Option.some.injEq] at hj
        exact absurd hj.symm hq
      · exact hsame
    · rw [Cache.set_buf_of_ne _ _ hne]
  · rw [AtHeader, ← htodo]
    exact hat

/-- `bread` begins. -/
theorem inv_startBread (h : Inv r s) (hbusy : (s.proc p).busy = .ready)
    (hhead : ∀ pc, s.log.phase p = .committing pc → ¬ AtHeader r.start (s.proc p)) {b : UInt32}
    {q : State P × Event P} (hq : startBread p b s = some q) : Inv r q.1 := by
  obtain ⟨⟨c, i, d⟩, hget, rfl⟩ := Option.map_eq_some_iff.mp hq
  have hget : bget b s.bcache = .ok (c, i, d) := toOption_eq_some.mp hget
  obtain ⟨hi, -, rfl⟩ | ⟨hnone, hmem, hzero, hclean, -, rfl⟩ := bget_cases hget
  · refine inv_of_set h (refs_bget h.refs hbusy hi rfl rfl (h.refs.mem i b hi) ?_
      (.inl ⟨hi, rfl⟩)) rfl
      (h.valid i) (fun _ => rfl) (.inr (.inr rfl)) rfl (by simp) hhead
    exact fun j hj hb => hj (h.refs.uniq j i b hb hi)
  · refine inv_of_set h (refs_bget h.refs hbusy rfl (by rw [hzero]) rfl hmem ?_ (.inr hzero))
      hclean.symm (by simp) (fun hd => ?_) (.inr (.inr rfl)) rfl (by simp) hhead
    · exact fun j _ hb => hnone j (h.refs.mem j b hb) hb
    · rw [hclean] at hd
      contradiction

/-- `bread` ends. -/
theorem inv_endBread (h : Inv r s) {i : ℕ} {b : UInt32} (hbusy : (s.proc p).busy = .waiting i b)
    {q : State P × Event P} (hq : endBread p i b s = some q) : Inv r q.1 := by
  obtain ⟨⟨c, w⟩, hread, rfl⟩ := Option.map_eq_some_iff.mp hq
  have hread : bread p i s.bcache = .ok (c, w) := toOption_eq_some.mp hread
  have hhead : ∀ pc, s.log.phase p = .committing pc → ¬ AtHeader r.start (s.proc p) := by
    intro pc hpc hat
    rw [(h.header p pc hpc hat).1] at hbusy
    contradiction
  obtain ⟨hfree, -, ⟨hvalid, rfl⟩ | ⟨data, -, rfl⟩⟩ := bread_cases (h.valid i) hread
  · exact inv_of_set h (refs_bread h.refs hbusy hfree rfl rfl rfl hvalid) rfl (h.valid i)
      (fun _ => rfl) (.inl hfree) rfl (by simp) hhead
  · exact inv_of_set h (refs_bread h.refs hbusy hfree rfl rfl rfl rfl) rfl (fun _ => rfl)
      (fun _ => rfl) (.inl hfree) rfl (by simp) hhead

/-- `brelse` begins. -/
theorem inv_startBrelse (h : Inv r s) (hbusy : (s.proc p).busy = .ready)
    (hhead : ∀ pc, s.log.phase p = .committing pc → ¬ AtHeader r.start (s.proc p)) {b : UInt32}
    {q : State P × Event P} (hq : startBrelse p b s = some q) : Inv r q.1 := by
  obtain ⟨i, hi, hq⟩ := Option.bind_eq_some_iff.mp hq
  obtain ⟨c, hrel, rfl⟩ := Option.map_eq_some_iff.mp hq
  have hrel : releasesleep p i s.bcache = .ok c := toOption_eq_some.mp hrel
  have hheld := Proc.mem_of_buffer hi
  rw [releasesleep, if_neg (not_not.mpr (h.refs.held p b i hheld).2.1)] at hrel
  cases hrel
  exact inv_of_set h (refs_release h.refs hbusy hheld) rfl (h.valid i) (fun _ => rfl)
    (.inr (.inr rfl)) rfl (by simp) hhead

/-- `brelse` ends. -/
theorem inv_endBrelse (h : Inv r s) {i : ℕ} (hbusy : (s.proc p).busy = .leaving i) :
    Inv r (endBrelse p i s).1 := by
  have hbuf : ∀ {α : Type} (f : Buf P → α), (∀ x : Buf P, ∀ n, f { x with refcnt := n } = f x) →
      ∀ j, f ((unref i s.bcache).buf j) = f (s.bcache.buf j) := by
    intro α f hf j
    rw [unref]
    dsimp only
    split <;> exact Cache.apply_set f (hf _ _) j
  have hdirty := hbuf Buf.dirty fun _ _ => rfl
  refine inv_of_cache h (refs_unref h.refs hbusy) hdirty (fun j hj => ?_)
    (fun j _ => hbuf Buf.blk (fun _ _ => rfl) j) (fun j _ _ _ => hbuf Buf.data (fun _ _ => rfl) j)
    (fun _ _ _ => Iff.rfl) (h.code p) (by simp) fun pc hpc hat => ?_
  · rw [hbuf Buf.valid fun _ _ => rfl]
    exact h.valid j ((hdirty j).symm.trans hj)
  · have hready := (h.header p pc hpc hat).1
    rw [hready] at hbusy
    contradiction

/-- Other contents of a buffer that `p` has, outside `commit`. -/
theorem inv_modify (h : Inv r s) (hbusy : (s.proc p).busy = .ready) {b : UInt32} {data : Block}
    {q : State P × Event P} (hq : modify r p b data s = some q) : Inv r q.1 := by
  rw [modify] at hq
  split at hq
  · next hop =>
    obtain ⟨i, hi, rfl⟩ := Option.map_eq_some_iff.mp hq
    have hheld := Proc.mem_of_buffer hi
    have hkept : ∀ q, (Function.update s.proc p { s.proc p with busy := .modified i } q).busy.refs =
        (s.proc q).busy.refs := by
      intro q
      rcases eq_or_ne q p with rfl | hne
      · rw [Function.update_self, hbusy]
        rfl
      · rw [Function.update_of_ne hne]
    have hrefs : Refs (s.bcache.set i { s.bcache.buf i with data := data })
        (Function.update s.proc p { s.proc p with busy := .modified i }) := by
      refine (h.refs.set (i := i) (x := { s.bcache.buf i with data := data }) rfl rfl rfl id).congr
        rfl (fun _ => rfl) (fun _ => rfl) (fun _ => rfl) (fun _ => id)
        (apply_update Proc.held rfl) hkept fun q j b' hwait => ?_
      rcases eq_or_ne q p with rfl | hne
      · rw [Function.update_self] at hwait
        contradiction
      · rw [Function.update_of_ne hne] at hwait
        exact hwait
    refine inv_of_set h hrefs rfl (h.valid i) (fun _ => rfl)
      (.inr (.inl (h.refs.held p b i hheld).2.1)) rfl (fun j hj => ?_) fun pc hpc => ?_
    · cases hj
      exact ⟨hop.1, b, hheld, not_lt.mpr hop.2⟩
    · rw [hop.1] at hpc
      contradiction
  · contradiction

/-! ### The code of `commit` -/

/-- The header is written as soon as it is made up. -/
theorem code_header {start b : UInt32} {lh : List UInt32} {pc : CommitPc} {todo : List Cmd}
    (h : .header b :: todo <:+ code start lh pc) :
    b = start ∧ todo = [.bwrite start, .brelse start] := by
  cases pc with
  | writeLog tail =>
    rw [code] at h
    split at h <;> simp [List.suffix_cons_iff] at h
  | installTrans tail =>
    rw [code] at h
    split at h <;> simp [List.suffix_cons_iff] at h
  | entry => simp [code] at h
  | writeHead => simpa [code, List.suffix_cons_iff] using h
  | clear => simp [code] at h
  | eraseHead => simpa [code, List.suffix_cons_iff] using h
  | finish => simp [code] at h

/-- Only behind `header` is the process about to write the header. -/
theorem header_of_code {start : UInt32} {lh : List UInt32} {pc : CommitPc} {cmd : Cmd}
    (h : cmd :: [.bwrite start, .brelse start] <:+ code start lh pc) : cmd = .header start := by
  cases pc with
  | writeLog tail =>
    rw [code] at h
    split at h <;> simp [List.suffix_cons_iff] at h
  | installTrans tail =>
    rw [code] at h
    split at h <;> simp [List.suffix_cons_iff] at h
  | entry => simp [code] at h
  | writeHead => simpa [code, List.suffix_cons_iff] using h
  | clear => simp [code] at h
  | eraseHead => simpa [code, List.suffix_cons_iff] using h
  | finish => simp [code] at h

/-- What `commit` writes, and where: to the log, the header, and home. -/
theorem code_bwrite {start b : UInt32} {lh : List UInt32} {pc : CommitPc} {todo : List Cmd}
    (h : .bwrite b :: todo <:+ code start lh pc) :
    (∃ tail < lh.length, pc = .writeLog tail ∧ b = logBlock start tail ∧
      ∀ b', Cmd.bwrite b' ∉ todo) ∨
    ((pc = .writeHead ∨ pc = .eraseHead) ∧ b = start ∧ todo = [.brelse start]) ∨
    ∃ tail, pc = .installTrans tail ∧ lh[tail]? = some b ∧ ∀ b', Cmd.bwrite b' ∉ todo := by
  cases pc with
  | writeLog tail =>
    rw [code] at h
    split at h
    · next b' hb' =>
      simp only [List.suffix_cons_iff, List.cons.injEq, reduceCtorEq, false_and, false_or,
        Cmd.bwrite.injEq, List.suffix_nil] at h
      obtain ⟨rfl, rfl⟩ := h.resolve_right (by simp)
      exact .inl ⟨tail, (List.getElem?_eq_some_iff.mp hb').1, rfl, rfl, by simp⟩
    · simp at h
  | installTrans tail =>
    rw [code] at h
    split at h
    · next b' hb' =>
      simp only [List.suffix_cons_iff, List.cons.injEq, reduceCtorEq, false_and, false_or,
        Cmd.bwrite.injEq, List.suffix_nil] at h
      obtain ⟨rfl, rfl⟩ := h.resolve_right (by simp)
      exact .inr (.inr ⟨tail, rfl, hb', by simp⟩)
    · simp at h
  | entry => simp [code] at h
  | writeHead =>
    refine .inr (.inl ⟨.inl rfl, ?_⟩)
    simpa [code, List.suffix_cons_iff] using h
  | clear => simp [code] at h
  | eraseHead =>
    refine .inr (.inl ⟨.inr rfl, ?_⟩)
    simpa [code, List.suffix_cons_iff] using h
  | finish => simp [code] at h

omit [Fintype P] in
/-- A process that stays as it is. -/
theorem State.setProc_eq_self (s : State P) (p : P) : s.setProc p (s.proc p) = s := by
  rw [State.setProc, Function.update_eq_self]

/-- A statement is taken from the code. -/
theorem inv_pop (h : Inv r s) {cmd : Cmd} {todo : List Cmd} (hcmd : (s.proc p).todo = cmd :: todo)
    (hwrite : ∀ b, cmd ≠ .bwrite b)
    (hhead : ∀ pc, s.log.phase p = .committing pc → ¬ AtHeader r.start ⟨[], .ready, todo⟩) :
    Inv r (s.setProc p { s.proc p with todo := todo }) := by
  refine inv_of_cache h (h.refs.todo p todo) (fun _ => rfl) h.valid (fun _ _ => rfl)
    (fun _ _ _ _ => rfl)
    (fun _ _ b => ?_) (fun pc hpc => ?_) (h.modified p) fun pc hpc hat => absurd hat (hhead pc hpc)
  · rw [hcmd, List.mem_cons]
    exact (or_iff_right fun heq => hwrite b heq.symm).symm
  · have hsuffix := h.code p pc hpc
    rw [hcmd] at hsuffix
    exact (List.suffix_cons cmd todo).trans hsuffix

/-- Other contents of a buffer that `p` has, in `commit`. -/
theorem inv_setData (h : Inv r s) {i : ℕ} (hlock : (s.bcache.buf i).lock = some p)
    (hhead : ∀ pc, s.log.phase p = .committing pc → ¬ AtHeader r.start (s.proc p))
    (data : Block) : Inv r (setData i data s) := by
  have hset : Inv r ((setData i data s).setProc p (s.proc p)) := by
    refine inv_of_set h ?_ rfl (h.valid i) (fun _ => rfl) (.inr (.inl hlock)) rfl
      (h.modified p) hhead
    rw [Function.update_eq_self]
    exact h.refs.set rfl rfl rfl id
  have hself := State.setProc_eq_self (setData i data s) p
  rw [show (setData i data s).proc p = s.proc p from rfl] at hself
  rw [hself] at hset
  exact hset

/-- The header is made up. -/
theorem inv_header (h : Inv r s) {pc : CommitPc} (hpc : s.log.phase p = .committing pc)
    (hready : (s.proc p).busy = .ready) {todo : List Cmd}
    (hcmd : (s.proc p).todo = .header r.start :: todo)
    (hinstall : ∀ tail, pc ≠ .installTrans tail) {i : ℕ}
    (hi : (s.proc p).buffer r.start = some i) :
    Inv r ((setData i (setHeader (s.bcache.buf i).data s.log.lh) s).setProc p
      { s.proc p with todo := todo }) := by
  have hheld := h.refs.held p _ i (Proc.mem_of_buffer hi)
  have hrefs : Refs (setData i (setHeader (s.bcache.buf i).data s.log.lh) s).bcache
      (Function.update s.proc p { s.proc p with todo := todo }) :=
    (h.refs.set (i := i) (x := { s.bcache.buf i with
      data := setHeader (s.bcache.buf i).data s.log.lh }) rfl rfl rfl id).todo p todo
  have hflags := Cache.apply_set (c := s.bcache) (i := i) (x := { s.bcache.buf i with
    data := setHeader (s.bcache.buf i).data s.log.lh }) (fun x => (x.dirty, x.valid, x.blk)) rfl
  refine inv_of_cache h hrefs (fun j => congrArg Prod.fst (hflags j)) (fun j hj => ?_)
    (fun j _ => congrArg (fun x => x.2.2) (hflags j)) (fun j q hj hq => ?_)
    (fun tail htail => ?_) (fun pc' hpc' => ?_) (h.modified p)
    fun pc' _ _ => ⟨hready, fun j hj => ?_⟩
  · have hj' := hflags j
    rw [Prod.mk.injEq, Prod.mk.injEq] at hj'
    exact hj'.2.1.trans (h.valid j (hj'.1.symm.trans hj))
  · rcases eq_or_ne j i with rfl | hne
    · rw [hheld.2.1, Option.some.injEq] at hj
      exact absurd hj.symm hq
    · exact congrArg Buf.data (Cache.set_buf_of_ne _ _ hne)
  · rw [hpc] at htail
    cases htail
    exact absurd rfl (hinstall tail)
  · have hsuffix := h.code p pc' hpc'
    rw [hcmd] at hsuffix
    exact (List.suffix_cons _ todo).trans hsuffix
  · have heq : j = i := Option.some.inj (hj.symm.trans hi)
    subst heq
    rw [Cache.set_buf_self]
    exact readHeader_setHeader _ h.log.length_le

omit [DecidableEq P] in
/-- While `p` commits, nobody else does. -/
theorem uninstalled_iff (h : GroupCommit.Inv r.size s.log) {pc : CommitPc}
    (hpc : s.log.phase p = .committing pc) (b : UInt32) :
    Uninstalled s b ↔ Remains s.log.lh (s.proc p).todo b pc := by
  constructor
  · intro hun
    exact hun p pc hpc
  · intro hrem q pc' hq
    obtain rfl := h.unique q p pc' pc hq hpc
    rw [hpc] at hq
    cases hq
    exact hrem

/-- The cache after `bwrite`. -/
def written (c : Cache P) (i : ℕ) (b : UInt32) : Cache P :=
  { c.set i { c.buf i with dirty := false, valid := true } with
    disk := Function.update c.disk b (c.buf i).data }

omit [Fintype P] [DecidableEq P] in
theorem apply_written {α : Type*} (f : Buf P → α) (c : Cache P) (i : ℕ) (b : UInt32)
    (h : f { c.buf i with dirty := false, valid := true } = f (c.buf i)) (j : ℕ) :
    f ((written c i b).buf j) = f (c.buf j) :=
  Cache.apply_set f h j

omit [Fintype P] [DecidableEq P] in
theorem written_valid {c : Cache P} {i : ℕ} {b : UInt32}
    (h : ∀ j, (c.buf j).dirty = true → (c.buf j).valid = true) (j : ℕ)
    (hj : ((written c i b).buf j).dirty = true) : ((written c i b).buf j).valid = true := by
  rw [written] at hj ⊢
  dsimp only at hj ⊢
  rcases eq_or_ne j i with rfl | hne
  · rw [Cache.set_buf_self]
  · rw [Cache.set_buf_of_ne _ _ hne] at hj ⊢
    exact h j hj

omit [DecidableEq P] in
theorem refs_written {c : Cache P} {proc : P → Proc} (h : Refs c proc) (i : ℕ) (b : UInt32) :
    Refs (written c i b) proc :=
  (h.set (i := i) (x := { c.buf i with dirty := false, valid := true }) rfl rfl rfl
    fun _ => rfl).congr rfl (fun _ => rfl) (fun _ => rfl) (fun _ => rfl) (fun _ => id)
    (fun _ => rfl) (fun _ => rfl) fun _ _ _ => id

/-- A block of the log is written. -/
theorem inv_bwrite_log (h : Inv r s) {i : ℕ} {b : UInt32} (hi : (s.bcache.buf i).blk = some b)
    (hb : r.Has b) {pc : CommitPc} (hpc : s.log.phase p = .committing pc)
    (hinstall : ∀ tail, pc ≠ .installTrans tail) {todo : List Cmd} {cmd : Cmd}
    (hcmd : (s.proc p).todo = cmd :: todo)
    (hhead : ¬ AtHeader r.start ⟨[], .ready, todo⟩) :
    Inv r ({ s with bcache := written s.bcache i b }.setProc p { s.proc p with todo := todo }) := by
  have hclean := h.clean_of_has hb hi
  refine inv_of_cache h ((refs_written h.refs i b).todo p todo)
    (apply_written Buf.dirty _ i b hclean.symm) (written_valid h.valid)
    (fun j _ => apply_written Buf.blk _ i b rfl j)
    (fun j _ _ _ => apply_written Buf.data _ i b rfl j) (fun tail htail => ?_)
    (fun pc' hpc' => ?_) (h.modified p) fun pc' _ hat => absurd hat hhead
  · rw [hpc] at htail
    cases htail
    exact absurd rfl (hinstall tail)
  · have hsuffix := h.code p pc' hpc'
    rw [hcmd] at hsuffix
    exact (List.suffix_cons _ todo).trans hsuffix

/-- A block of the transaction is written home. -/
theorem inv_bwrite_home (h : Inv r s) {i : ℕ} {b : UInt32} (hi : (s.bcache.buf i).blk = some b)
    {tail : ℕ} (hpc : s.log.phase p = .committing (.installTrans tail))
    (htail : s.log.lh[tail]? = some b) {todo : List Cmd}
    (hcmd : (s.proc p).todo = .bwrite b :: todo) (htodo : ∀ b', Cmd.bwrite b' ∉ todo) :
    Inv r ({ s with bcache := written s.bcache i b }.setProc p { s.proc p with todo := todo }) := by
  set s' := { s with bcache := written s.bcache i b }.setProc p { s.proc p with todo := todo }
    with hs'
  have hproc : s'.proc p = { s.proc p with todo := todo } := Function.update_self _ _ _
  have hold := uninstalled_iff h.log hpc
  have hnew : ∀ b', Uninstalled s' b' ↔ Remains s.log.lh todo b' (.installTrans tail) := by
    intro b'
    rw [uninstalled_iff (s := s') h.log hpc, hproc]
    rfl
  -- what is not installed now was not before, and is another block
  have hun : ∀ b', Uninstalled s' b' → Uninstalled s b' ∧ b' ≠ b := by
    intro b' hb'
    rw [hnew] at hb'
    refine ⟨(hold b').mpr fun k hk => ⟨(hb' k hk).1, fun heq => ?_⟩, ?_⟩
    · exact absurd ((hb' k hk).2 heq) (htodo b')
    · rintro rfl
      exact absurd ((hb' tail htail).2 rfl) (htodo b')
  have hbuf : ∀ j, (s'.bcache.buf j).dirty = true → j ≠ i ∧ (s.bcache.buf j).dirty = true := by
    intro j hj
    rcases eq_or_ne j i with rfl | hne
    · have hself : (s'.bcache.buf j).dirty = false :=
        congrArg Buf.dirty (Cache.set_buf_self s.bcache j _)
      rw [hself] at hj
      contradiction
    · refine ⟨hne, ?_⟩
      rw [← hj]
      exact congrArg Buf.dirty (Cache.set_buf_of_ne _ _ hne).symm
  have hblk : ∀ j, (s'.bcache.buf j).blk = (s.bcache.buf j).blk :=
    apply_written Buf.blk _ i b rfl
  refine ⟨h.log, (refs_written h.refs i b).todo p todo, written_valid h.valid, fun j hj => ?_,
    fun b' hb' hun' => ?_, h.outside, fun q j hq => ?_, fun q pc hq => ?_, fun q pc hq hat => ?_⟩
  · obtain ⟨hne, hj'⟩ := hbuf j hj
    obtain ⟨b', hb', hblk', hun'⟩ := h.dirty j hj'
    refine ⟨b', hb', (hblk j).trans hblk', (hnew b').mpr fun k hk => ?_⟩
    have hk' := (hold b').mp hun' k hk
    refine ⟨hk'.1, ?_⟩
    rintro rfl
    rw [htail, Option.some.injEq] at hk
    exact absurd (h.refs.uniq j i b (hk ▸ hblk') hi) hne
  · obtain ⟨hun, hne⟩ := hun b' hun'
    obtain ⟨j, hj, hj'⟩ := h.pinned b' hb' hun
    have hji : j ≠ i := by
      rintro rfl
      rw [hi, Option.some.injEq] at hj
      exact hne hj.symm
    refine ⟨j, (hblk j).trans hj, ?_⟩
    rw [← hj']
    exact congrArg Buf.dirty (Cache.set_buf_of_ne _ _ hji)
  · have hheld := apply_update Proc.held (g := s.proc) (p := p)
      (x := { s.proc p with todo := todo }) rfl q
    have hbusy := apply_update Proc.busy (g := s.proc) (p := p)
      (x := { s.proc p with todo := todo }) rfl q
    obtain ⟨hop, b', hb', hout⟩ := h.modified q j (hbusy.symm.trans hq)
    exact ⟨hop, b', hheld.symm ▸ hb', hout⟩
  · obtain rfl := h.log.unique q p pc _ hq hpc
    rw [hproc]
    have hsuffix := h.code q pc hq
    rw [hcmd] at hsuffix
    exact (List.suffix_cons _ todo).trans hsuffix
  · obtain rfl := h.log.unique q p pc _ hq hpc
    rw [hproc] at hat
    have hmem : Cmd.bwrite r.start ∈ todo := by
      rw [show todo = _ from hat]
      exact List.mem_cons_self
    exact absurd hmem (htodo _)

/-- **A statement of `commit` keeps the invariant.** -/
theorem inv_exec (h : Inv r s) {pc : CommitPc} (hpc : s.log.phase p = .committing pc)
    (hready : (s.proc p).busy = .ready) {cmd : Cmd} {todo : List Cmd}
    (hcmd : (s.proc p).todo = cmd :: todo) {q : State P × Event P}
    (hq : exec p (s.setProc p { s.proc p with todo := todo }) cmd = some q) : Inv r q.1 := by
  have hsuffix : cmd :: todo <:+ code r.start s.log.lh pc := hcmd ▸ h.code p pc hpc
  have hproc : (s.setProc p { s.proc p with todo := todo }).proc p =
      { s.proc p with todo := todo } := Function.update_self _ _ _
  -- only behind `header` does the process come to write the header
  have hnot : cmd ≠ .header r.start → ¬ AtHeader r.start ⟨[], .ready, todo⟩ := by
    intro hne hat
    rw [show todo = _ from hat] at hsuffix
    exact hne (header_of_code hsuffix)
  have hpop : (∀ b, cmd ≠ .bwrite b) → cmd ≠ .header r.start →
      Inv r (s.setProc p { s.proc p with todo := todo }) ∧
        ∀ pc, s.log.phase p = .committing pc →
          ¬ AtHeader r.start ((s.setProc p { s.proc p with todo := todo }).proc p) := by
    intro hwrite hne
    refine ⟨inv_pop h hcmd hwrite fun _ _ => hnot hne, fun _ _ => ?_⟩
    rw [hproc]
    exact hnot hne
  cases cmd with
  | bread b =>
    obtain ⟨hinv, hhead⟩ := hpop (by simp) (by simp)
    exact inv_startBread hinv (by rw [hproc, ← hready]) hhead hq
  | brelse b =>
    obtain ⟨hinv, hhead⟩ := hpop (by simp) (by simp)
    exact inv_startBrelse hinv (by rw [hproc, ← hready]) hhead hq
  | memmove dst src =>
    obtain ⟨hinv, hhead⟩ := hpop (by simp) (by simp)
    obtain ⟨i, hi, hq⟩ := Option.bind_eq_some_iff.mp hq
    obtain ⟨j, -, rfl⟩ := Option.map_eq_some_iff.mp hq
    exact inv_setData hinv (hinv.refs.held p _ i (Proc.mem_of_buffer hi)).2.1 hhead _
  | header b =>
    obtain ⟨rfl, -⟩ := code_header hsuffix
    obtain ⟨i, hi, rfl⟩ := Option.map_eq_some_iff.mp hq
    rw [hproc] at hi
    refine inv_header h hpc hready hcmd ?_ hi
    rintro tail rfl
    rw [code] at hsuffix
    split at hsuffix <;> simp [List.suffix_cons_iff] at hsuffix
  | bwrite b =>
    obtain ⟨i, hi, hq⟩ := Option.bind_eq_some_iff.mp hq
    obtain ⟨⟨c, w⟩, hwrite, rfl⟩ := Option.map_eq_some_iff.mp hq
    obtain ⟨b', hb', -, -, rfl⟩ := bwrite_cases (toOption_eq_some.mp hwrite)
    rw [hproc] at hi
    have hblk := (h.refs.held p b i (Proc.mem_of_buffer hi)).1
    obtain rfl : b' = b := Option.some.inj (hb'.symm.trans hblk)
    rcases code_bwrite hsuffix with ⟨tail, htail, rfl, rfl, -⟩ | ⟨hwhich, rfl, rfl⟩ |
      ⟨tail, rfl, htail, htodo⟩
    · refine inv_bwrite_log h hblk ?_ hpc (by simp) hcmd (hnot (by simp))
      rw [Region.Has, dist_logBlock _ _ (lt_of_lt_of_le htail h.log.length_le)]
      exact h.log.fits tail htail
    · refine inv_bwrite_log h hblk r.has_start hpc ?_ hcmd (hnot (by simp))
      rcases hwhich with rfl | rfl <;> simp
    · exact inv_bwrite_home h hblk hpc htail hcmd htodo

/-! ### Steps of the log -/

/-- A step of `p` in `struct log` that leaves the logged blocks as they are. -/
theorem inv_of_log (h : Inv r s) (hready : (s.proc p).busy = .ready) {l : GroupCommit.State P}
    {todo : List Cmd} (hl : GroupCommit.Inv r.size l) (hlh : l.lh = s.log.lh)
    (hother : ∀ q ≠ p, l.phase q = s.log.phase q)
    (hun : ∀ b ∈ s.log.lh,
      (∀ pc, l.phase p = .committing pc → Remains s.log.lh todo b pc) ↔
        ∀ pc, s.log.phase p = .committing pc → Remains s.log.lh (s.proc p).todo b pc)
    (hcode : ∀ pc, l.phase p = .committing pc → todo <:+ code r.start s.log.lh pc)
    (hhead : ∀ pc, l.phase p = .committing pc → ¬ AtHeader r.start ⟨[], .ready, todo⟩) :
    Inv r ({ s with log := l }.setProc p { s.proc p with todo := todo }) := by
  set s' := { s with log := l }.setProc p { s.proc p with todo := todo } with hs'
  have hproc : s'.proc p = { s.proc p with todo := todo } := Function.update_self _ _ _
  have hproc' : ∀ q ≠ p, s'.proc q = s.proc q := fun q hq => Function.update_of_ne hq _ _
  have hbusy : ∀ q, (s'.proc q).busy = (s.proc q).busy := apply_update Proc.busy rfl
  have hheld : ∀ q, (s'.proc q).held = (s.proc q).held := apply_update Proc.held rfl
  have hun' : ∀ b ∈ s.log.lh, (Uninstalled s' b ↔ Uninstalled s b) := by
    intro b hb
    have hsplit : ∀ q, (∀ pc, s'.log.phase q = .committing pc →
        Remains s'.log.lh (s'.proc q).todo b pc) ↔
        ∀ pc, s.log.phase q = .committing pc → Remains s.log.lh (s.proc q).todo b pc := by
      intro q
      rw [show s'.log = l from rfl, hlh]
      rcases eq_or_ne q p with rfl | hne
      · rw [hproc]
        exact hun b hb
      · rw [hproc' q hne, hother q hne]
    exact forall_congr' hsplit
  refine ⟨hl, h.refs.todo p todo, h.valid, fun i hi => ?_, fun b hb hb' => ?_, ?_,
    fun q i hq => ?_, fun q pc hq => ?_, fun q pc hq hat => ?_⟩
  · obtain ⟨b, hb, hblk, hb'⟩ := h.dirty i hi
    exact ⟨b, hlh.symm ▸ hb, hblk, (hun' b hb).mpr hb'⟩
  · have hb : b ∈ s.log.lh := hlh ▸ hb
    exact h.pinned b hb ((hun' b hb).mp hb')
  · rw [show s'.log = l from rfl, hlh]
    exact h.outside
  · rw [hbusy] at hq
    rw [hheld]
    rcases eq_or_ne q p with rfl | hne
    · rw [hready] at hq
      contradiction
    · rw [show s'.log.phase q = s.log.phase q from hother q hne]
      exact h.modified q i hq
  · rw [show s'.log = l from rfl, hlh]
    rcases eq_or_ne q p with rfl | hne
    · rw [hproc]
      exact hcode pc hq
    · rw [hproc' q hne]
      exact h.code q pc ((hother q hne).symm.trans hq)
  · rcases eq_or_ne q p with rfl | hne
    · rw [hproc] at hat
      exact absurd hat (hhead pc hq)
    · rw [hproc' q hne] at hat ⊢
      rw [show s'.log = l from rfl, hlh]
      exact h.header q pc ((hother q hne).symm.trans hq) hat

/-- `begin_op`. -/
theorem inv_beginOp (h : Inv r s) (hready : (s.proc p).busy = .ready) {q : State P × Event P}
    (hq : logStep r p .beginOp s = some q) : Inv r q.1 := by
  obtain ⟨⟨l, e⟩, hstep, rfl⟩ := Option.map_eq_some_iff.mp hq
  have hstep : GroupCommit.step r.size s.log p .beginOp = .ok (l, e) := toOption_eq_some.mp hstep
  have hl := GroupCommit.inv_step h.log hstep
  rw [GroupCommit.step] at hstep
  split at hstep
  · next hidle =>
    rw [Except.ok.injEq] at hstep
    rcases GroupCommit.beginOp_cases p s.log with heq | ⟨-, heq⟩
    · rw [heq] at hstep
      cases hstep
      exact h
    · rw [heq] at hstep
      cases hstep
      have hset : Inv r ({ s with
          log := { s.log with outstanding := s.log.outstanding + 1 }.goto p .inOp }.setProc p
            { s.proc p with todo := (s.proc p).todo }) := by
        refine inv_of_log h hready hl rfl
          (fun q hne => GroupCommit.State.goto_phase_of_ne _ _ hne) (fun b _ => ?_) ?_ ?_
        · simp [hidle]
        · simp
        · simp
      exact Eq.mp (congrArg (Inv r) (State.setProc_eq_self
        { s with log := { s.log with outstanding := s.log.outstanding + 1 }.goto p .inOp } p)) hset
  · contradiction

omit [Fintype P] in
/-- The piece of code is loaded at the places of `commit`. -/
theorem load_eq (s : State P) : ∃ todo, load r p s = s.setProc p { s.proc p with todo := todo } ∧
    (∀ pc, s.log.phase p = .committing pc → todo = code r.start s.log.lh pc) := by
  rw [load]
  split
  · next pc hpc =>
    refine ⟨_, rfl, fun pc' hpc' => ?_⟩
    rw [hpc] at hpc'
    cases hpc'
    rfl
  · next hnot =>
    exact ⟨(s.proc p).todo, (State.setProc_eq_self s p).symm, fun pc hpc => absurd hpc (hnot pc)⟩

/-- No piece of code begins with the writing of the header. -/
theorem not_atHeader_code (start : UInt32) (lh : List UInt32) (pc : CommitPc) :
    ¬ AtHeader start ⟨[], .ready, code start lh pc⟩ := by
  intro hat
  have hcode : code start lh pc = [.bwrite start, .brelse start] := hat
  cases pc with
  | writeLog tail =>
    rw [code] at hcode
    split at hcode <;> simp at hcode
  | installTrans tail =>
    rw [code] at hcode
    split at hcode <;> simp at hcode
  | entry => simp [code] at hcode
  | writeHead => simp [code] at hcode
  | clear => simp [code] at hcode
  | eraseHead => simp [code] at hcode
  | finish => simp [code] at hcode

/-- A step of the log after which the code of its place is loaded. -/
theorem inv_load (h : Inv r s) (hready : (s.proc p).busy = .ready) {l : GroupCommit.State P}
    (hl : GroupCommit.Inv r.size l) (hlh : l.lh = s.log.lh)
    (hother : ∀ q ≠ p, l.phase q = s.log.phase q)
    (hun : ∀ b ∈ s.log.lh,
      (∀ pc, l.phase p = .committing pc → Remains s.log.lh (code r.start s.log.lh pc) b pc) ↔
        ∀ pc, s.log.phase p = .committing pc → Remains s.log.lh (s.proc p).todo b pc) :
    Inv r (load r p { s with log := l }) := by
  obtain ⟨todo, hload, htodo⟩ := load_eq (r := r) (p := p) { s with log := l }
  dsimp only at htodo
  rw [hlh] at htodo
  rw [hload]
  refine inv_of_log h hready hl hlh hother (fun b hb => ?_) (fun pc hpc => ?_) fun pc hpc => ?_
  · rw [← hun b hb]
    refine forall_congr' fun pc => imp_congr_right fun hpc => ?_
    rw [htodo pc hpc]
  · rw [htodo pc hpc]
  · rw [htodo pc hpc]
    exact not_atHeader_code _ _ _

/-- `end_op`, up to `commit`. -/
theorem inv_endOp (h : Inv r s) (hready : (s.proc p).busy = .ready)
    {l : GroupCommit.State P} {e : GroupCommit.Event P}
    (hstep : GroupCommit.step r.size s.log p .endOp = .ok (l, e)) :
    Inv r (load r p { s with log := l }) := by
  have hl := GroupCommit.inv_step h.log hstep
  rw [GroupCommit.step] at hstep
  split at hstep
  · next hop =>
    obtain ⟨-, ⟨-, heq⟩ | heq⟩ := GroupCommit.endOp_cases hstep <;> cases heq <;>
      refine inv_load h hready hl rfl (fun q hne => GroupCommit.State.goto_phase_of_ne _ _ hne)
        fun b _ => ?_
    · simp [hop, Remains]
    · simp [hop]
  · contradiction

/-- A block is installed when its piece of code has run. -/
theorem remains_next {lh : List UInt32} {b : UInt32} {tail : ℕ} (todo : List Cmd)
    (htodo : ∀ b, lh[tail]? = some b → .bwrite b ∈ todo) :
    Remains lh todo b (.installTrans tail) ↔ ∀ k, lh[k]? = some b → tail ≤ k := by
  refine forall_congr' fun k => forall_congr' fun hk => ?_
  refine and_iff_left fun heq => htodo b (heq ▸ hk)

theorem bwrite_mem_code (start : UInt32) {lh : List UInt32} {tail : ℕ} (b : UInt32)
    (hb : lh[tail]? = some b) : .bwrite b ∈ code start lh (.installTrans tail) := by
  simp [code, hb]

/-- `commit` goes on to its next place. -/
theorem inv_commit (h : Inv r s) (hready : (s.proc p).busy = .ready)
    (htodo : (s.proc p).todo = []) {pc : CommitPc} (hpc : s.log.phase p = .committing pc) :
    Inv r (load r p { s with log := (GroupCommit.commit p s.log pc).1 }) := by
  have hl := GroupCommit.inv_commit h.log hpc
  have hother : ∀ φ : Phase, ∀ q ≠ p, (s.log.goto p φ).phase q = s.log.phase q :=
    fun φ q hne => GroupCommit.State.goto_phase_of_ne _ _ hne
  -- where `p` is before, and after
  have hnow : ∀ R : CommitPc → Prop,
      (∀ pc', s.log.phase p = .committing pc' → R pc') ↔ R pc := by
    simp [hpc]
  have hgoto : ∀ (pc' : CommitPc) (R : CommitPc → Prop),
      (∀ pc'', (s.log.goto p (.committing pc')).phase p = .committing pc'' → R pc'') ↔ R pc' := by
    simp
  cases pc with
  | entry =>
    refine inv_load h hready hl rfl (hother _) fun b hb => ?_
    rw [GroupCommit.commit, if_pos (List.length_pos_of_mem hb), hgoto, hnow]
    exact Iff.rfl
  | writeLog tail =>
    refine inv_load h hready hl rfl (hother _) fun b hb => ?_
    rw [GroupCommit.commit, hgoto, hnow]
    split <;> exact Iff.rfl
  | writeHead =>
    refine inv_load h hready hl rfl (hother _) fun b hb => ?_
    rw [GroupCommit.commit, hgoto, hnow, remains_next _ (bwrite_mem_code r.start)]
    exact ⟨fun _ => trivial, fun _ k _ => Nat.zero_le k⟩
  | installTrans tail =>
    refine inv_load h hready hl rfl (hother _) fun b hb => ?_
    -- what remains is behind `tail`
    have hold : Remains s.log.lh [] b (.installTrans tail) ↔
        ∀ k, s.log.lh[k]? = some b → tail + 1 ≤ k := by
      refine forall_congr' fun k => forall_congr' fun _ => ?_
      simp only [List.not_mem_nil, imp_false]
      omega
    rw [GroupCommit.commit, hgoto, hnow, htodo, hold]
    split
    · exact remains_next _ (bwrite_mem_code r.start)
    · obtain ⟨k, hk, hbk⟩ := List.mem_iff_getElem.mp hb
      refine ⟨False.elim, fun hall => ?_⟩
      have := hall k (List.getElem?_eq_some_iff.mpr ⟨hk, hbk⟩)
      omega
  | clear =>
    have hclean : ∀ i, (s.bcache.buf i).dirty = false := by
      intro i
      cases hi : (s.bcache.buf i).dirty with
      | false => rfl
      | true =>
        obtain ⟨b, -, -, hun⟩ := h.dirty i hi
        exact (hun p _ hpc).elim
    have hempty : Inv r { s with log := { s.log with lh := [] } } := by
      refine ⟨⟨h.log.outstanding, h.log.alone, h.log.running, h.log.unique, List.nodup_nil,
        Nat.zero_le _, by simp, fun _ _ => rfl⟩, h.refs, h.valid, fun i hi => ?_, by simp,
        by simp, h.modified, fun q pc hq => ?_, fun q pc hq hat => ?_⟩
      · rw [hclean i] at hi
        contradiction
      · obtain rfl := h.log.unique q p pc _ hq hpc
        rw [htodo]
        exact List.nil_suffix
      · obtain rfl := h.log.unique q p pc _ hq hpc
        rw [AtHeader, htodo] at hat
        contradiction
    refine inv_load hempty hready hl rfl (fun q hne => GroupCommit.State.goto_phase_of_ne _ _ hne)
      fun b hb => ?_
    cases hb
  | eraseHead =>
    refine inv_load h hready hl rfl (hother _) fun b hb => ?_
    rw [h.log.cleared p (.inl hpc)] at hb
    cases hb
  | finish =>
    refine inv_load h hready hl rfl (fun q hne => GroupCommit.State.goto_phase_of_ne _ _ hne)
      fun b hb => ?_
    rw [h.log.cleared p (.inr hpc)] at hb
    cases hb

/-- `log_write`. -/
theorem inv_write (h : Inv r s) {i : ℕ} (hbusy : (s.proc p).busy = .modified i)
    {q : State P × Event P} (hq : write r p i s = some q) : Inv r q.1 := by
  obtain ⟨hop, b, hheld, hout⟩ := h.modified p i hbusy
  obtain ⟨hblk, -, hvalid⟩ := h.refs.held p b i hheld
  rw [write, hblk, Option.bind_some] at hq
  obtain ⟨⟨s', e'⟩, hlog, rfl⟩ := Option.map_eq_some_iff.mp hq
  obtain ⟨⟨l, e⟩, hstep, heq⟩ := Option.map_eq_some_iff.mp hlog
  cases heq
  have hstep : GroupCommit.step r.size s.log p (.logWrite b) = .ok (l, e) :=
    toOption_eq_some.mp hstep
  have hl := GroupCommit.inv_step h.log hstep
  have hnot := h.log.not_committing hop
  rw [GroupCommit.step, if_pos hop] at hstep
  obtain ⟨-, -, -, heq⟩ := GroupCommit.write_eq_ok.mp hstep
  cases heq
  -- the logged blocks are the ones before, and `b`
  have hmem : ∀ b', (b' ∈ if b ∈ s.log.lh then s.log.lh else s.log.lh ++ [b]) ↔
      b' ∈ s.log.lh ∨ b' = b := by
    intro b'
    split
    · next hb =>
      constructor
      · exact .inl
      · rintro (hb' | rfl)
        · exact hb'
        · exact hb
    · rw [List.mem_append, List.mem_singleton]
  have hun : ∀ b', Uninstalled s b' := uninstalled_of_not_committing h.log hnot
  have hphase := h.log.not_running hnot
  have hset := Cache.apply_set (c := s.bcache) (i := i)
    (x := { s.bcache.buf i with dirty := true }) Buf.blk rfl
  have hbusy' : ∀ q, (Function.update s.proc p { s.proc p with busy := .ready } q).busy.refs =
      (s.proc q).busy.refs := by
    intro q
    rcases eq_or_ne q p with rfl | hne
    · rw [Function.update_self, hbusy]
      rfl
    · rw [Function.update_of_ne hne]
  have hready : ∀ q φ, φ ≠ Busy.ready →
      (Function.update s.proc p { s.proc p with busy := .ready } q).busy = φ →
        q ≠ p ∧ (s.proc q).busy = φ := by
    intro q φ hφ hq
    rcases eq_or_ne q p with rfl | hne
    · rw [Function.update_self] at hq
      exact absurd hq.symm hφ
    · rw [Function.update_of_ne hne] at hq
      exact ⟨hne, hq⟩
  refine ⟨hl, ?_, fun j hj => ?_, fun j hj => ?_, fun b' hb' _ => ?_, fun b' hb' => ?_,
    fun q j hj => ?_, fun q pc hq => absurd hq (hphase q pc),
    fun q pc hq => absurd hq (hphase q pc)⟩
  · exact (h.refs.set (i := i) (x := { s.bcache.buf i with dirty := true }) rfl rfl rfl id).congr
      rfl (fun _ => rfl) (fun _ => rfl) (fun _ => rfl) (fun _ => id) (apply_update Proc.held rfl)
      hbusy' fun q j b' hj => (hready q _ (by simp) hj).2
  · rcases eq_or_ne j i with rfl | hne
    · exact (congrArg Buf.valid (Cache.set_buf_self s.bcache j _)).trans hvalid
    · rw [State.setProc_bcache, Cache.set_buf_of_ne _ _ hne] at hj ⊢
      exact h.valid j hj
  · rcases eq_or_ne j i with rfl | hne
    · exact ⟨b, (hmem b).mpr (.inr rfl), (hset j).trans hblk,
        fun q pc hq => absurd hq (hphase q pc)⟩
    · rw [State.setProc_bcache, Cache.set_buf_of_ne _ _ hne] at hj
      obtain ⟨b', hb', hj', -⟩ := h.dirty j hj
      exact ⟨b', (hmem b').mpr (.inl hb'), (hset j).trans hj',
        fun q pc hq => absurd hq (hphase q pc)⟩
  · rcases (hmem b').mp hb' with hold | rfl
    · obtain ⟨j, hj, hj'⟩ := h.pinned b' hold (hun b')
      refine ⟨j, (hset j).trans hj, ?_⟩
      rcases eq_or_ne j i with rfl | hne
      · exact congrArg Buf.dirty (Cache.set_buf_self s.bcache j _)
      · rw [State.setProc_bcache, Cache.set_buf_of_ne _ _ hne]
        exact hj'
    · exact ⟨i, (hset i).trans hblk, congrArg Buf.dirty (Cache.set_buf_self s.bcache i _)⟩
  · rcases (hmem b').mp hb' with hold | rfl
    · exact h.outside b' hold
    · exact hout
  · obtain ⟨hne, hj'⟩ := hready q _ (by simp) hj
    obtain ⟨hop', b', hb', hout'⟩ := h.modified q j hj'
    refine ⟨hop', b', ?_, hout'⟩
    rw [State.setProc_proc, Function.update_of_ne hne]
    exact hb'

/-! ### Every step -/

omit [Fintype P] in
/-- **What a step is**: what a process goes on with, or what it chooses. -/
theorem step_cases {i : P × Action} {q : State P × Event P} (hq : step r s i = some q) :
    (∃ j b, (s.proc i.1).busy = .waiting j b ∧ endBread i.1 j b s = some q) ∨
    (∃ j, (s.proc i.1).busy = .modified j ∧ write r i.1 j s = some q) ∨
    (∃ j, (s.proc i.1).busy = .leaving j ∧ q = endBrelse i.1 j s) ∨
    (∃ pc cmd todo, (s.proc i.1).busy = .ready ∧ s.log.phase i.1 = .committing pc ∧
      (s.proc i.1).todo = cmd :: todo ∧
      exec i.1 (s.setProc i.1 { s.proc i.1 with todo := todo }) cmd = some q) ∨
    (∃ pc, (s.proc i.1).busy = .ready ∧ s.log.phase i.1 = .committing pc ∧
      (s.proc i.1).todo = [] ∧
      q = (load r i.1 { s with log := (GroupCommit.commit i.1 s.log pc).1 },
        .log (GroupCommit.commit i.1 s.log pc).2)) ∨
    (Free i.1 s ∧
      (logStep r i.1 .beginOp s = some q ∨ (∃ b, startBread i.1 b s = some q) ∨
        (∃ b data, modify r i.1 b data s = some q) ∨ (∃ b, startBrelse i.1 b s = some q) ∨
        ∃ l e, GroupCommit.step r.size s.log i.1 .endOp = .ok (l, e) ∧
          q = (load r i.1 { s with log := l }, .log e))) := by
  obtain ⟨p, a⟩ := i
  have hite : ∀ {c : Prop} [Decidable c] {x : Option (State P × Event P)},
      (if c then x else none) = some q → c ∧ x = some q := by
    intro c _ x hx
    split at hx
    · next hc => exact ⟨hc, hx⟩
    · contradiction
  cases a with
  | go =>
    rw [step, go] at hq
    split at hq
    · next j b hbusy => exact .inl ⟨j, b, hbusy, hq⟩
    · next j hbusy => exact .inr (.inl ⟨j, hbusy, hq⟩)
    · next j hbusy => exact .inr (.inr (.inl ⟨j, hbusy, (Option.some.inj hq).symm⟩))
    · next hbusy =>
      split at hq
      · next pc hpc =>
        rw [commit] at hq
        split at hq
        · next cmd todo hcmd =>
          exact .inr (.inr (.inr (.inl ⟨pc, cmd, todo, hbusy, hpc, hcmd, hq⟩)))
        · next hnil =>
          have hstep : GroupCommit.step r.size s.log p .commit =
              .ok (GroupCommit.commit p s.log pc) := by
            rw [GroupCommit.step, hpc]
          rw [logStep, hstep] at hq
          refine .inr (.inr (.inr (.inr (.inl ⟨pc, hbusy, hpc, hnil, ?_⟩))))
          exact (Option.some.inj hq).symm
      · contradiction
  | beginOp =>
    obtain ⟨hfree, hq⟩ := hite hq
    exact .inr (.inr (.inr (.inr (.inr ⟨hfree, .inl hq⟩))))
  | bread b =>
    obtain ⟨hfree, hq⟩ := hite hq
    exact .inr (.inr (.inr (.inr (.inr ⟨hfree, .inr (.inl ⟨b, hq⟩)⟩))))
  | modify b data =>
    obtain ⟨hfree, hq⟩ := hite hq
    exact .inr (.inr (.inr (.inr (.inr ⟨hfree, .inr (.inr (.inl ⟨b, data, hq⟩))⟩))))
  | brelse b =>
    obtain ⟨hfree, hq⟩ := hite hq
    exact .inr (.inr (.inr (.inr (.inr ⟨hfree, .inr (.inr (.inr (.inl ⟨b, hq⟩)))⟩))))
  | endOp =>
    obtain ⟨hfree, hq⟩ := hite hq
    obtain ⟨⟨s', e'⟩, hlog, rfl⟩ := Option.map_eq_some_iff.mp hq
    obtain ⟨⟨l, e⟩, hstep, heq⟩ := Option.map_eq_some_iff.mp hlog
    cases heq
    refine .inr (.inr (.inr (.inr (.inr ⟨hfree, .inr (.inr (.inr (.inr ⟨l, e, ?_, rfl⟩)))⟩))))
    exact toOption_eq_some.mp hstep

omit [Fintype P] [DecidableEq P] in
/-- A process outside `commit` is not about to write the header. -/
theorem not_atHeader_of_free (hfree : Free p s) (pc : CommitPc)
    (hpc : s.log.phase p = .committing pc) : ¬ AtHeader r.start (s.proc p) := by
  rcases hfree.2 with hidle | hop
  · rw [hidle] at hpc
    contradiction
  · rw [hop] at hpc
    contradiction

/-- **Every step keeps the invariant.** -/
theorem inv_step (h : Inv r s) {i : P × Action} {q : State P × Event P}
    (hq : step r s i = some q) : Inv r q.1 := by
  obtain ⟨j, b, hbusy, hq⟩ | ⟨j, hbusy, hq⟩ | ⟨j, hbusy, rfl⟩ |
    ⟨pc, cmd, todo, hbusy, hpc, hcmd, hq⟩ | ⟨pc, hbusy, hpc, hnil, rfl⟩ |
    ⟨hfree, hq | ⟨b, hq⟩ | ⟨b, data, hq⟩ | ⟨b, hq⟩ | ⟨l, e, hstep, rfl⟩⟩ := step_cases hq
  · exact inv_endBread h hbusy hq
  · exact inv_write h hbusy hq
  · exact inv_endBrelse h hbusy
  · exact inv_exec h hpc hbusy hcmd hq
  · exact inv_commit h hbusy hnil hpc
  · exact inv_beginOp h hfree.1 hq
  · exact inv_startBread h hfree.1 (not_atHeader_of_free hfree) hq
  · exact inv_modify h hfree.1 hq
  · exact inv_startBrelse h hfree.1 (not_atHeader_of_free hfree) hq
  · exact inv_endOp h hfree.1 hstep

end WriteAhead
end Xv6

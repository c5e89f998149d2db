import Xv6.Fs.WriteAhead

/-!
# References to buffers

Two facts about the cache that every later one rests on: a block is cached in at most one
buffer, and `refcnt` counts the references that processes have to a buffer, so that a buffer
which `bget` recycles is nobody's.

* `Proc.refs` — the buffers that a process refers to.
* `Refs` — the invariant; `Refs.unused` — what it says of a buffer to be recycled.
* `refs_bget`, `refs_bread`, `refs_release`, `refs_unref` — its steps.
-/

namespace Xv6
namespace WriteAhead

open Log BufferCache

/-- The buffer that a call in progress refers to. -/
def Busy.refs : Busy → List ℕ
  | .waiting i _ | .leaving i => [i]
  | .ready | .modified _ => []

/-- The buffers that a process refers to. -/
def Proc.refs (x : Proc) : List ℕ := x.busy.refs ++ x.held.map Prod.snd

/-- A block that the process has read is in the buffer it names. -/
theorem Proc.mem_of_buffer {x : Proc} {b : UInt32} {i : ℕ} (h : x.buffer b = some i) :
    (b, i) ∈ x.held := by
  obtain ⟨l₁, l₂, heq, -⟩ := List.lookup_eq_some_iff.mp h
  rw [heq]
  exact List.mem_append_right _ List.mem_cons_self

theorem Proc.mem_refs {x : Proc} {b : UInt32} {i : ℕ} (h : (b, i) ∈ x.held) : i ∈ x.refs :=
  List.mem_append_right _ (List.mem_map_of_mem (f := Prod.snd) h)

variable {P : Type*} [DecidableEq P] [Fintype P]

/-- A sum over the processes when one of them changes. -/
theorem sum_update (g : P → Proc) (p : P) (x : Proc) (f : Proc → ℕ) :
    (∑ q, f (Function.update g p x q)) + f (g p) = (∑ q, f (g q)) + f x := by
  have hrest : ∑ q ∈ Finset.univ.erase p, f (Function.update g p x q) =
      ∑ q ∈ Finset.univ.erase p, f (g q) :=
    Finset.sum_congr rfl fun q hq => by
      rw [Function.update_of_ne (Finset.ne_of_mem_erase hq)]
  rw [← Finset.add_sum_erase _ _ (Finset.mem_univ p), hrest, Function.update_self,
    ← Finset.add_sum_erase _ (fun q => f (g q)) (Finset.mem_univ p)]
  omega

/-- **The references.**  A block is cached once, in a buffer of the list; `refcnt` counts the
references; and a process that has read a block has its buffer, valid and locked. -/
structure Refs (c : Cache P) (proc : P → Proc) : Prop where
  mem : ∀ i b, (c.buf i).blk = some b → i ∈ c.lru
  uniq : ∀ i j b, (c.buf i).blk = some b → (c.buf j).blk = some b → i = j
  refcnt : ∀ i, (c.buf i).refcnt = ∑ p, (proc p).refs.count i
  held : ∀ p b i, (b, i) ∈ (proc p).held →
    (c.buf i).blk = some b ∧ (c.buf i).lock = some p ∧ (c.buf i).valid = true
  nodup : ∀ p, ((proc p).held.map Prod.snd).Nodup
  waiting : ∀ p i b, (proc p).busy = .waiting i b → (c.buf i).blk = some b

variable {c : Cache P} {proc : P → Proc}

omit [DecidableEq P] in
/-- A buffer without references is nobody's. -/
theorem Refs.unused (h : Refs c proc) {i : ℕ} (hi : (c.buf i).refcnt = 0) (p : P) :
    i ∉ (proc p).refs := by
  rw [h.refcnt i, Finset.sum_eq_zero_iff] at hi
  exact List.count_eq_zero.mp (hi p (Finset.mem_univ p))

omit [DecidableEq P] in
theorem Refs.ne_of_unused (h : Refs c proc) {i j : ℕ} {b : UInt32} {p : P}
    (hi : (c.buf i).refcnt = 0) (hj : (b, j) ∈ (proc p).held) : j ≠ i := by
  rintro rfl
  exact h.unused hi p (Proc.mem_refs hj)

omit [DecidableEq P] in
/-- Two caches with the same blocks, references and locks. -/
theorem Refs.congr (h : Refs c proc) {c' : Cache P} {proc' : P → Proc} (hlru : c'.lru = c.lru)
    (hblk : ∀ i, (c'.buf i).blk = (c.buf i).blk)
    (hcnt : ∀ i, (c'.buf i).refcnt = (c.buf i).refcnt)
    (hlock : ∀ i, (c'.buf i).lock = (c.buf i).lock)
    (hvalid : ∀ i, (c.buf i).valid = true → (c'.buf i).valid = true)
    (hheld : ∀ p, (proc' p).held = (proc p).held)
    (hbusy : ∀ p, (proc' p).busy.refs = (proc p).busy.refs)
    (hwait : ∀ p i b, (proc' p).busy = .waiting i b → (proc p).busy = .waiting i b) :
    Refs c' proc' where
  mem i b hi := by
    rw [hlru]
    exact h.mem i b ((hblk i).symm.trans hi)
  uniq i j b hi hj := h.uniq i j b ((hblk i).symm.trans hi) ((hblk j).symm.trans hj)
  refcnt i := by
    rw [hcnt, h.refcnt]
    exact Finset.sum_congr rfl fun p _ => by rw [Proc.refs, Proc.refs, hheld, hbusy]
  held p b i hi := by
    rw [hblk, hlock]
    obtain ⟨hb, hl, hv⟩ := h.held p b i (hheld p ▸ hi)
    exact ⟨hb, hl, hvalid i hv⟩
  nodup p := by
    rw [hheld]
    exact h.nodup p
  waiting p i b hi := by
    rw [hblk]
    exact h.waiting p i b (hwait p i b hi)

omit [DecidableEq P] in
/-- Another buffer content, with its block, references and lock kept. -/
theorem Refs.set (h : Refs c proc) {i : ℕ} {x : Buf P} (hblk : x.blk = (c.buf i).blk)
    (hcnt : x.refcnt = (c.buf i).refcnt) (hlock : x.lock = (c.buf i).lock)
    (hvalid : (c.buf i).valid = true → x.valid = true) : Refs (c.set i x) proc := by
  refine h.congr rfl (Cache.apply_set Buf.blk hblk) (Cache.apply_set Buf.refcnt hcnt)
    (Cache.apply_set Buf.lock hlock) (fun j hj => ?_) (fun _ => rfl) (fun _ => rfl) fun _ _ _ => id
  rcases eq_or_ne j i with rfl | hne
  · rw [Cache.set_buf_self]
    exact hvalid hj
  · rw [Cache.set_buf_of_ne _ _ hne]
    exact hj

/-- The references to a buffer when a process changes. -/
theorem sum_refs (g : P → Proc) (p : P) (x : Proc) (j : ℕ) :
    (∑ q, (Function.update g p x q).refs.count j) + (g p).refs.count j =
      (∑ q, (g q).refs.count j) + x.refs.count j :=
  sum_update g p x fun y => y.refs.count j

omit [Fintype P] in
/-- What a process keeps when it changes, every process keeps. -/
theorem apply_update {α : Type*} (f : Proc → α) {g : P → Proc} {p : P} {x : Proc}
    (h : f x = f (g p)) (q : P) : f (Function.update g p x q) = f (g q) := by
  rcases eq_or_ne q p with rfl | hne
  · rw [Function.update_self, h]
  · rw [Function.update_of_ne hne]

/-- The rest of the code does not matter. -/
theorem Refs.todo (h : Refs c proc) (p : P) (todo : List Cmd) :
    Refs c (Function.update proc p { proc p with todo := todo }) := by
  have hbusy := apply_update Proc.busy (g := proc) (p := p) (x := { proc p with todo := todo }) rfl
  exact h.congr rfl (fun _ => rfl) (fun _ => rfl) (fun _ => rfl) (fun _ => id)
    (apply_update Proc.held rfl) (fun q => by rw [hbusy]) fun q _ _ hq => hbusy q ▸ hq

/-! ### The steps -/

variable {p : P}

/-- A buffer of the block `b` that `bget` has found or made: the reference is counted. -/
theorem refs_bget (h : Refs c proc) (hbusy : (proc p).busy = .ready) {i : ℕ} {b : UInt32}
    {x : Buf P} (hx : x.blk = some b) (hcnt : x.refcnt = (c.buf i).refcnt + 1)
    (hlock : x.lock = (c.buf i).lock) (hmem : i ∈ c.lru)
    (hother : ∀ j ≠ i, (c.buf j).blk ≠ some b)
    (hheld : ((c.buf i).blk = some b ∧ x.valid = (c.buf i).valid) ∨ (c.buf i).refcnt = 0) :
    Refs (c.set i x) (Function.update proc p { proc p with busy := .waiting i b }) := by
  have hbufs := apply_update Proc.held (g := proc) (p := p)
    (x := { proc p with busy := .waiting i b }) rfl
  -- the buffer of a process keeps its block
  have hkept : ∀ q b' j, j ∈ (proc q).refs → (c.buf j).blk = some b' →
      ((c.set i x).buf j).blk = some b' := by
    intro q b' j hj hb'
    rcases eq_or_ne j i with rfl | hne
    · rcases hheld with ⟨hb, -⟩ | hzero
      · rw [Cache.set_buf_self, hx, ← hb, hb']
      · exact absurd hj (h.unused hzero q)
    · rw [Cache.set_buf_of_ne _ _ hne, hb']
  refine ⟨fun j b' hj => ?_, fun j k b' hj hk => ?_, fun j => ?_, fun q b' j hj => ?_,
    fun q => ?_, fun q j b' hq => ?_⟩
  · rcases eq_or_ne j i with rfl | hne
    · exact hmem
    · rw [Cache.set_buf_of_ne _ _ hne] at hj
      exact h.mem j b' hj
  · rcases eq_or_ne j i with rfl | hji
    · rcases eq_or_ne k j with rfl | hkj
      · rfl
      · rw [Cache.set_buf_self, hx] at hj
        rw [Cache.set_buf_of_ne _ _ hkj] at hk
        exact absurd (hk.trans hj.symm) (hother k hkj)
    · rw [Cache.set_buf_of_ne _ _ hji] at hj
      rcases eq_or_ne k i with rfl | hki
      · rw [Cache.set_buf_self, hx] at hk
        exact absurd (hj.trans hk.symm) (hother j hji)
      · rw [Cache.set_buf_of_ne _ _ hki] at hk
        exact h.uniq j k b' hj hk
  · have hsum := sum_refs proc p { proc p with busy := .waiting i b } j
    have hrefs : ({ proc p with busy := .waiting i b } : Proc).refs = i :: (proc p).refs := by
      simp [Proc.refs, hbusy, Busy.refs]
    have hj := h.refcnt j
    rw [hrefs, List.count_cons] at hsum
    rcases eq_or_ne j i with rfl | hne
    · rw [Cache.set_buf_self, hcnt]
      rw [if_pos (beq_self_eq_true j)] at hsum
      omega
    · rw [Cache.set_buf_of_ne _ _ hne]
      rw [if_neg (by simpa using hne.symm)] at hsum
      omega
  · rw [hbufs] at hj
    obtain ⟨hb', hlock', hv⟩ := h.held q b' j hj
    refine ⟨hkept q b' j (Proc.mem_refs hj) hb', ?_, ?_⟩
    · rw [Cache.apply_set Buf.lock hlock, hlock']
    · rcases hheld with ⟨-, hxv⟩ | hzero
      · rw [Cache.apply_set Buf.valid hxv, hv]
      · rw [Cache.set_buf_of_ne _ _ (h.ne_of_unused hzero hj), hv]
  · rw [hbufs]
    exact h.nodup q
  · rcases eq_or_ne q p with rfl | hne
    · rw [Function.update_self] at hq
      cases hq
      rw [Cache.set_buf_self, hx]
    · rw [Function.update_of_ne hne] at hq
      refine hkept q b' j ?_ (h.waiting q j b' hq)
      rw [Proc.refs, hq]
      exact List.mem_append_left _ (List.mem_singleton_self j)

/-- `acquiresleep` takes the lock of a buffer: the process has it now. -/
theorem refs_bread (h : Refs c proc) {i : ℕ} {b : UInt32} (hbusy : (proc p).busy = .waiting i b)
    (hfree : (c.buf i).lock = none) {x : Buf P} (hx : x.blk = (c.buf i).blk)
    (hcnt : x.refcnt = (c.buf i).refcnt) (hlock : x.lock = some p) (hvalid : x.valid = true) :
    Refs (c.set i x)
      (Function.update proc p { proc p with held := (b, i) :: (proc p).held, busy := .ready }) := by
  have hblk := Cache.apply_set Buf.blk hx
  -- nobody had the buffer
  have hne : ∀ q b' j, (b', j) ∈ (proc q).held → j ≠ i := by
    rintro q b' j hj rfl
    rw [(h.held q b' j hj).2.1] at hfree
    contradiction
  refine ⟨fun j b' hj => h.mem j b' ((hblk j).symm.trans hj), fun j k b' hj hk =>
    h.uniq j k b' ((hblk j).symm.trans hj) ((hblk k).symm.trans hk), fun j => ?_,
    fun q b' j hj => ?_, fun q => ?_, fun q j b' hq => ?_⟩
  · have hsum := sum_refs proc p
      { proc p with held := (b, i) :: (proc p).held, busy := .ready } j
    have hrefs : ({ proc p with held := (b, i) :: (proc p).held, busy := .ready } : Proc).refs =
        (proc p).refs := by
      simp [Proc.refs, hbusy, Busy.refs]
    rw [hrefs] at hsum
    rw [Cache.apply_set Buf.refcnt hcnt, h.refcnt j]
    omega
  · rw [hblk]
    rcases eq_or_ne q p with rfl | hqp
    · rw [Function.update_self] at hj
      rcases List.mem_cons.mp hj with heq | hj
      · cases heq
        rw [Cache.set_buf_self]
        exact ⟨h.waiting q i b hbusy, hlock, hvalid⟩
      · rw [Cache.set_buf_of_ne _ _ (hne q b' j hj)]
        exact h.held q b' j hj
    · rw [Function.update_of_ne hqp] at hj
      rw [Cache.set_buf_of_ne _ _ (hne q b' j hj)]
      exact h.held q b' j hj
  · rcases eq_or_ne q p with rfl | hqp
    · rw [Function.update_self]
      refine List.nodup_cons.mpr ⟨fun hmem => ?_, h.nodup q⟩
      obtain ⟨⟨b', j⟩, hj, heq⟩ := List.mem_map.mp hmem
      exact hne q b' j hj heq
    · rw [Function.update_of_ne hqp]
      exact h.nodup q
  · rw [hblk]
    rcases eq_or_ne q p with rfl | hqp
    · rw [Function.update_self] at hq
      contradiction
    · rw [Function.update_of_ne hqp] at hq
      exact h.waiting q j b' hq

/-- `releasesleep` gives the buffer up, but for the reference. -/
theorem refs_release (h : Refs c proc) (hbusy : (proc p).busy = .ready) {i : ℕ} {b : UInt32}
    (hi : (b, i) ∈ (proc p).held) :
    Refs (c.set i { c.buf i with lock := none })
      (Function.update proc p
        { proc p with held := (proc p).held.erase (b, i), busy := .leaving i }) := by
  have hblk := Cache.apply_set (c := c) (i := i) (x := { c.buf i with lock := none }) Buf.blk rfl
  have hcnt := Cache.apply_set (c := c) (i := i) (x := { c.buf i with lock := none })
    Buf.refcnt rfl
  have hperm : ((proc p).held.map Prod.snd).Perm
      (i :: ((proc p).held.erase (b, i)).map Prod.snd) :=
    (List.perm_cons_erase hi).map Prod.snd
  have hnodup : (i :: ((proc p).held.erase (b, i)).map Prod.snd).Nodup :=
    hperm.nodup_iff.mp (h.nodup p)
  refine ⟨fun j b' hj => h.mem j b' ((hblk j).symm.trans hj), fun j k b' hj hk =>
    h.uniq j k b' ((hblk j).symm.trans hj) ((hblk k).symm.trans hk), fun j => ?_,
    fun q b' j hj => ?_, fun q => ?_, fun q j b' hq => ?_⟩
  · have hsum := sum_refs proc p
      { proc p with held := (proc p).held.erase (b, i), busy := .leaving i } j
    have hrefs : ({ proc p with
        held := (proc p).held.erase (b, i), busy := .leaving i } : Proc).refs.count j =
        (proc p).refs.count j := by
      simp only [Proc.refs, hbusy, Busy.refs, List.nil_append, List.singleton_append]
      exact (hperm.count_eq j).symm
    rw [hrefs] at hsum
    rw [hcnt, h.refcnt j]
    omega
  · rw [hblk]
    -- the buffer of nobody else is `i`
    have hne : (b', j) ∈ (proc q).held ∧ j ≠ i := by
      rcases eq_or_ne q p with rfl | hqp
      · rw [Function.update_self] at hj
        refine ⟨List.mem_of_mem_erase hj, ?_⟩
        rintro rfl
        exact (List.nodup_cons.mp hnodup).1 (List.mem_map_of_mem (f := Prod.snd) hj)
      · rw [Function.update_of_ne hqp] at hj
        refine ⟨hj, ?_⟩
        rintro rfl
        have hq := (h.held q b' j hj).2.1
        rw [(h.held p b j hi).2.1, Option.some.injEq] at hq
        exact hqp hq.symm
    rw [Cache.set_buf_of_ne _ _ hne.2]
    exact h.held q b' j hne.1
  · rcases eq_or_ne q p with rfl | hqp
    · rw [Function.update_self]
      exact (List.nodup_cons.mp hnodup).2
    · rw [Function.update_of_ne hqp]
      exact h.nodup q
  · rw [hblk]
    rcases eq_or_ne q p with rfl | hqp
    · rw [Function.update_self] at hq
      contradiction
    · rw [Function.update_of_ne hqp] at hq
      exact h.waiting q j b' hq

/-- The rest of `brelse` gives the reference up. -/
theorem refs_unref (h : Refs c proc) {i : ℕ} (hbusy : (proc p).busy = .leaving i) :
    Refs (unref i c) (Function.update proc p { proc p with busy := .ready }) := by
  have hset : Refs (c.set i { c.buf i with refcnt := (c.buf i).refcnt - 1 })
      (Function.update proc p { proc p with busy := .ready }) := by
    have hbufs := apply_update Proc.held (g := proc) (p := p)
      (x := { proc p with busy := .ready }) rfl
    have hblk := Cache.apply_set (c := c) (i := i)
      (x := { c.buf i with refcnt := (c.buf i).refcnt - 1 }) Buf.blk rfl
    have hlock := Cache.apply_set (c := c) (i := i)
      (x := { c.buf i with refcnt := (c.buf i).refcnt - 1 }) Buf.lock rfl
    have hvalid := Cache.apply_set (c := c) (i := i)
      (x := { c.buf i with refcnt := (c.buf i).refcnt - 1 }) Buf.valid rfl
    refine ⟨fun j b' hj => h.mem j b' ((hblk j).symm.trans hj), fun j k b' hj hk =>
      h.uniq j k b' ((hblk j).symm.trans hj) ((hblk k).symm.trans hk), fun j => ?_,
      fun q b' j hj => ?_, fun q => ?_, fun q j b' hq => ?_⟩
    · have hsum := sum_refs proc p { proc p with busy := .ready } j
      have hrefs : (proc p).refs = i :: ({ proc p with busy := .ready } : Proc).refs := by
        simp [Proc.refs, hbusy, Busy.refs]
      have hj := h.refcnt j
      rw [hrefs, List.count_cons] at hsum
      rcases eq_or_ne j i with rfl | hne
      · rw [Cache.set_buf_self]
        rw [if_pos (beq_self_eq_true j)] at hsum
        dsimp only at hsum ⊢
        omega
      · rw [Cache.set_buf_of_ne _ _ hne]
        rw [if_neg (by simpa using hne.symm)] at hsum
        dsimp only at hsum ⊢
        omega
    · rw [hbufs] at hj
      rw [hblk, hlock, hvalid]
      exact h.held q b' j hj
    · rw [hbufs]
      exact h.nodup q
    · rw [hblk]
      rcases eq_or_ne q p with rfl | hqp
      · rw [Function.update_self] at hq
        contradiction
      · rw [Function.update_of_ne hqp] at hq
        exact h.waiting q j b' hq
  rw [unref]
  dsimp only
  split
  · -- the list is only reordered
    have hmem : ∀ j ∈ c.lru, j ∈ i :: c.lru.erase i := fun j hj => by
      rcases eq_or_ne j i with rfl | hne
      · exact List.mem_cons_self
      · exact List.mem_cons_of_mem _ ((List.mem_erase_of_ne hne).mpr hj)
    exact ⟨fun j b hj => hmem j (hset.mem j b hj), hset.uniq, hset.refcnt, hset.held,
      hset.nodup, hset.waiting⟩
  · exact hset

end WriteAhead
end Xv6

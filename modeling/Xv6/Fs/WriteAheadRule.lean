import Xv6.Fs.DirtyBuffers

/-!
# The write-ahead rule

As `bget` recycles no dirty buffer, and only `commit` writes buffers to the disk, a block
that has been logged stays cached, and its home is not written, until the header that names
it is on the disk.  The rule is stated on the events of a run.

* `step_effect` — what a step writes or discards.
* `Exposed` — a block was logged, and no header that names it has been written since.
* `unheaded_step` — what that says of the state, and that it lasts up to the header.
* `log_step` — the log makes the steps of group commit.
* `write_ahead` — **the write-ahead rule.**
-/

namespace Xv6
namespace WriteAhead

open Log BufferCache
open GroupCommit (CommitPc Phase Pending toOption_eq_some)

variable {P : Type*} [Fintype P] {r : Region} {s : State P} [DecidableEq P] {p : P}

/-! ### What reaches the disk, and what is discarded -/

/-- Neither the log nor what is left of the code has changed. -/
def Quiet (s s' : State P) : Prop := s'.log = s.log ∧ ∀ p, (s'.proc p).todo = (s.proc p).todo

omit [Fintype P] in
theorem quiet_setProc (s : State P) (c : Cache P) (p : P) {x : Proc}
    (hx : x.todo = (s.proc p).todo) : Quiet s ({ s with bcache := c }.setProc p x) :=
  ⟨rfl, apply_update Proc.todo hx⟩

omit [Fintype P] in
theorem startBread_spec {b : UInt32} {q : State P × Event P} (hq : startBread p b s = some q) :
    Quiet s q.1 ∧ (q.2 = .other ∨
      ∃ i b', (s.bcache.buf i).blk = some b' ∧ (s.bcache.buf i).dirty = false ∧
        q.2 = .discard b') := by
  obtain ⟨⟨c, i, d⟩, hget, rfl⟩ := Option.map_eq_some_iff.mp hq
  refine ⟨quiet_setProc s c p rfl, ?_⟩
  obtain ⟨-, rfl, -⟩ | ⟨-, -, -, hclean, rfl, -⟩ := bget_cases (toOption_eq_some.mp hget)
  · exact .inl rfl
  · cases hblk : (s.bcache.buf i).blk with
    | none => exact .inl rfl
    | some b' => exact .inr ⟨i, b', hblk, hclean, rfl⟩

omit [Fintype P] in
theorem startBrelse_spec {b : UInt32} {q : State P × Event P} (hq : startBrelse p b s = some q) :
    Quiet s q.1 ∧ q.2 = .other := by
  obtain ⟨i, -, hq⟩ := Option.bind_eq_some_iff.mp hq
  obtain ⟨c, -, rfl⟩ := Option.map_eq_some_iff.mp hq
  exact ⟨quiet_setProc s c p rfl, rfl⟩

theorem endBread_spec (h : Inv r s) {i : ℕ} {b : UInt32} {q : State P × Event P}
    (hq : endBread p i b s = some q) : Quiet s q.1 ∧ q.2 = .other := by
  obtain ⟨⟨c, w⟩, hread, rfl⟩ := Option.map_eq_some_iff.mp hq
  obtain ⟨-, rfl, -⟩ := bread_cases (h.valid i) (toOption_eq_some.mp hread)
  exact ⟨quiet_setProc s c p rfl, rfl⟩

omit [Fintype P] in
theorem modify_spec {b : UInt32} {data : Block} {q : State P × Event P}
    (hq : modify r p b data s = some q) : Quiet s q.1 ∧ q.2 = .other := by
  rw [modify] at hq
  split at hq
  · obtain ⟨i, -, rfl⟩ := Option.map_eq_some_iff.mp hq
    exact ⟨quiet_setProc s _ p rfl, rfl⟩
  · contradiction

/-- What a statement of `commit` does to the disk, and to the cache. -/
theorem exec_spec (h : Inv r s) {cmd : Cmd} {todo : List Cmd} {q : State P × Event P}
    (hq : exec p (s.setProc p { s.proc p with todo := todo }) cmd = some q) :
    Quiet (s.setProc p { s.proc p with todo := todo }) q.1 ∧
      ((q.2 = .other ∧ ∀ b, cmd ≠ .bwrite b) ∨
        (∃ i b, (s.bcache.buf i).blk = some b ∧ (s.bcache.buf i).dirty = false ∧
          q.2 = .discard b ∧ ∀ b, cmd ≠ .bwrite b) ∨
        ∃ i b, (s.proc p).buffer b = some i ∧ cmd = .bwrite b ∧
          q.2 = .write b (s.bcache.buf i).data) := by
  have hproc : (s.setProc p { s.proc p with todo := todo }).proc p =
      { s.proc p with todo := todo } := Function.update_self _ _ _
  cases cmd with
  | bread b =>
    obtain ⟨hquiet, hother | ⟨i, b', hblk, hclean, hdiscard⟩⟩ := startBread_spec hq
    · exact ⟨hquiet, .inl ⟨hother, by simp⟩⟩
    · exact ⟨hquiet, .inr (.inl ⟨i, b', hblk, hclean, hdiscard, by simp⟩)⟩
  | brelse b =>
    obtain ⟨hquiet, hother⟩ := startBrelse_spec hq
    exact ⟨hquiet, .inl ⟨hother, by simp⟩⟩
  | memmove dst src =>
    obtain ⟨i, -, hq⟩ := Option.bind_eq_some_iff.mp hq
    obtain ⟨j, -, rfl⟩ := Option.map_eq_some_iff.mp hq
    exact ⟨⟨rfl, fun _ => rfl⟩, .inl ⟨rfl, by simp⟩⟩
  | header b =>
    obtain ⟨i, -, rfl⟩ := Option.map_eq_some_iff.mp hq
    exact ⟨⟨rfl, fun _ => rfl⟩, .inl ⟨rfl, by simp⟩⟩
  | bwrite b =>
    obtain ⟨i, hi, hq⟩ := Option.bind_eq_some_iff.mp hq
    obtain ⟨⟨c, w⟩, hwrite, rfl⟩ := Option.map_eq_some_iff.mp hq
    obtain ⟨b', hb', -, rfl, -⟩ := bwrite_cases (toOption_eq_some.mp hwrite)
    rw [hproc] at hi
    have hblk := (h.refs.held p b i (Proc.mem_of_buffer hi)).1
    obtain rfl : b' = b := Option.some.inj (hb'.symm.trans hblk)
    exact ⟨⟨rfl, fun _ => rfl⟩, .inr (.inr ⟨i, b', hi, rfl, rfl⟩)⟩

omit [Fintype P] in
theorem logStep_spec {a : GroupCommit.Action} {q : State P × Event P}
    (hq : logStep r p a s = some q) : ∃ l e, GroupCommit.step r.size s.log p a = .ok (l, e) ∧
      q = ({ s with log := l }, .log e) := by
  obtain ⟨⟨l, e⟩, hstep, rfl⟩ := Option.map_eq_some_iff.mp hq
  exact ⟨l, e, toOption_eq_some.mp hstep, rfl⟩

omit [Fintype P] in
theorem write_spec {i : ℕ} {q : State P × Event P} (hq : write r p i s = some q) :
    ∃ b l e, GroupCommit.step r.size s.log p (.logWrite b) = .ok (l, e) ∧ q.1.log = l ∧
      q.2 = .log e := by
  obtain ⟨b, -, hq⟩ := Option.bind_eq_some_iff.mp hq
  obtain ⟨⟨s', e'⟩, hlog, rfl⟩ := Option.map_eq_some_iff.mp hq
  obtain ⟨l, e, hstep, heq⟩ := logStep_spec hlog
  cases heq
  exact ⟨b, l, e, hstep, rfl, rfl⟩

/-- **What a step writes or discards.**  `bget` discards a clean buffer, and `commit` writes
the buffer of the block its code names. -/
theorem step_effect (h : Inv r s) {i : P × Action} {q : State P × Event P}
    (hq : step r s i = some q) :
    (∀ b, q.2 = .discard b → ∃ j, (s.bcache.buf j).blk = some b ∧ (s.bcache.buf j).dirty = false) ∧
      ∀ b data, q.2 = .write b data → ∃ pc todo, s.log.phase i.1 = .committing pc ∧
        (s.proc i.1).todo = .bwrite b :: todo := by
  have hnone : ∀ {e : Event P}, (∀ b, e ≠ .discard b) → (∀ b data, e ≠ .write b data) →
      (∀ b, e = .discard b →
        ∃ j, (s.bcache.buf j).blk = some b ∧ (s.bcache.buf j).dirty = false) ∧
      ∀ b data, e = .write b data → ∃ pc todo, s.log.phase i.1 = .committing pc ∧
        (s.proc i.1).todo = .bwrite b :: todo :=
    fun hd hw => ⟨fun b hb => absurd hb (hd b), fun b data hb => absurd hb (hw b data)⟩
  obtain ⟨j, b, -, hq⟩ | ⟨j, -, hq⟩ | ⟨j, -, rfl⟩ | ⟨pc, cmd, todo, -, hpc, hcmd, hq⟩ |
    ⟨pc, -, -, -, rfl⟩ |
    ⟨-, hq | ⟨b, hq⟩ | ⟨b, data, hq⟩ | ⟨b, hq⟩ | ⟨l, e, -, rfl⟩⟩ := step_cases hq
  · rw [(endBread_spec h hq).2]
    exact hnone (by simp) (by simp)
  · obtain ⟨-, -, e, -, -, he⟩ := write_spec hq
    rw [he]
    exact hnone (by simp) (by simp)
  · exact hnone (by simp [endBrelse]) (by simp [endBrelse])
  · obtain ⟨-, ⟨he, -⟩ | ⟨j, b, hblk, hclean, he, -⟩ | ⟨j, b, -, rfl, he⟩⟩ := exec_spec h hq
    · rw [he]
      exact hnone (by simp) (by simp)
    · rw [he]
      refine ⟨fun b' hb' => ?_, by simp⟩
      cases hb'
      exact ⟨j, hblk, hclean⟩
    · rw [he]
      refine ⟨by simp, fun b' data hb' => ?_⟩
      cases hb'
      exact ⟨pc, todo, hpc, hcmd⟩
  · exact hnone (by simp) (by simp)
  · obtain ⟨l, e, -, rfl⟩ := logStep_spec hq
    exact hnone (by simp) (by simp)
  · obtain ⟨-, he | ⟨j, b', hblk, hclean, he⟩⟩ := startBread_spec hq
    · rw [he]
      exact hnone (by simp) (by simp)
    · rw [he]
      refine ⟨fun b'' hb'' => ?_, by simp⟩
      cases hb''
      exact ⟨j, hblk, hclean⟩
  · rw [(modify_spec hq).2]
    exact hnone (by simp) (by simp)
  · rw [(startBrelse_spec hq).2]
    exact hnone (by simp) (by simp)
  · exact hnone (by simp) (by simp)

/-! ### Runs -/

/-- The block `b` was passed to `log_write`, and since then no header that names it has been
written to the disk. -/
def Exposed (start : UInt32) (evs : List (Event P)) (b : UInt32) : Prop :=
  ∃ pre p post, evs = pre ++ .log (.logged p b) :: post ∧
    ∀ data bs, .write start data ∈ post → readHeader data = some bs → b ∉ bs

/-- The block is pending, and the header that is to name it is not on the disk. -/
def Unheaded (r : Region) (s : State P) (b : UInt32) : Prop :=
  Pending b s.log ∧
    ∀ p, s.log.phase p = .committing .writeHead → .bwrite r.start ∈ (s.proc p).todo

omit [Fintype P] [DecidableEq P] in
theorem exposed_concat {start b : UInt32} {evs : List (Event P)} {e : Event P}
    (h : Exposed start (evs ++ [e]) b) :
    (∃ p, e = .log (.logged p b)) ∨
      (Exposed start evs b ∧
        ∀ data bs, e = .write start data → readHeader data = some bs → b ∉ bs) := by
  obtain ⟨pre, p, post, heq, hpost⟩ := h
  rcases List.eq_nil_or_concat post with rfl | ⟨post, e', rfl⟩
  · obtain ⟨-, he⟩ := List.append_inj' heq rfl
    exact .inl ⟨p, (List.cons.inj he).1⟩
  · rw [List.concat_eq_append] at heq hpost
    rw [← List.cons_append, ← List.append_assoc] at heq
    obtain ⟨hevs, he⟩ := List.append_inj' heq rfl
    obtain rfl := (List.cons.inj he).1
    refine .inr ⟨⟨pre, p, post, hevs, fun data bs hdata => ?_⟩, fun data bs hdata => ?_⟩
    · exact hpost data bs (List.mem_append_left _ hdata)
    · exact hpost data bs (List.mem_append_right _ (List.mem_singleton.mpr hdata.symm))

omit [Fintype P] [DecidableEq P] in
theorem Unheaded.quiet {b : UInt32} (h : Unheaded r s b) {s' : State P} (hs : Quiet s s') :
    Unheaded r s' b := by
  refine ⟨hs.1 ▸ h.1, fun p hp => ?_⟩
  rw [hs.2 p]
  exact h.2 p (hs.1 ▸ hp)

/-- **An unheaded block stays so up to the header that names it.** -/
theorem unheaded_step (h : Inv r s) {b : UInt32} (hb : Unheaded r s b) {i : P × Action}
    {q : State P × Event P} (hq : step r s i = some q) :
    (∃ data, q.2 = .write r.start data ∧ readHeader data = some s.log.lh) ∨ Unheaded r q.1 b := by
  -- a process outside `commit` writes no header, and does not come to
  have hfreeStep : ∀ {a : GroupCommit.Action} {l : GroupCommit.State P} {e : GroupCommit.Event P}
      {t : State P}, Free i.1 s → GroupCommit.step r.size s.log i.1 a = .ok (l, e) →
        (∀ p ≠ i.1, t.proc p = s.proc p) → Unheaded r { t with log := l } b := by
    intro a l e t hfree hstep hproc
    have hnot : ∀ pc, s.log.phase i.1 ≠ .committing pc := by
      intro pc hpc
      rcases hfree.2 with hidle | hop
      · rw [hidle] at hpc
        contradiction
      · rw [hop] at hpc
        contradiction
    rcases GroupCommit.pending_step hb.1 hstep with ⟨hhead, -⟩ | ⟨-, hpending⟩
    · obtain ⟨pc, hpc⟩ := GroupCommit.committing_of_writeHead (p := i.1) hstep (.inl ⟨_, hhead⟩)
      exact absurd hpc (hnot pc)
    · refine ⟨hpending, fun p hp => ?_⟩
      by_cases hold : s.log.phase p = .committing .writeHead
      · have hne : p ≠ i.1 := fun heq => hnot _ (heq ▸ hold)
        rw [show ({ t with log := l } : State P).proc p = t.proc p from rfl, hproc p hne]
        exact hb.2 p hold
      · obtain ⟨pc, hpc⟩ := GroupCommit.committing_of_writeHead (p := p) hstep (.inr ⟨hp, hold⟩)
        exact absurd hpc (hnot pc)
  obtain ⟨j, b', -, hq⟩ | ⟨j, hbusy, hq⟩ | ⟨j, -, rfl⟩ | ⟨pc, cmd, todo, -, hpc, hcmd, hq⟩ |
    ⟨pc, -, hpc, hnil, rfl⟩ |
    ⟨hfree, hq | ⟨b', hq⟩ | ⟨b', data, hq⟩ | ⟨b', hq⟩ | ⟨l, e, hstep, rfl⟩⟩ := step_cases hq
  · exact .inr (hb.quiet (endBread_spec h hq).1)
  · obtain ⟨b', l, e, hstep, hlog, -⟩ := write_spec hq
    have hop := (h.modified i.1 j hbusy).1
    have hl := GroupCommit.inv_step h.log hstep
    rcases GroupCommit.pending_step hb.1 hstep with ⟨heq, -⟩ | ⟨-, hpending⟩
    · exact absurd heq ((GroupCommit.step_of_inOp h.log hop hstep).1 _)
    · rw [GroupCommit.step, if_pos hop] at hstep
      obtain ⟨-, -, -, heq⟩ := GroupCommit.write_eq_ok.mp hstep
      cases heq
      refine .inr ⟨hlog ▸ hpending, fun p hp => ?_⟩
      rw [hlog] at hp
      exact absurd hp (h.log.not_running (h.log.not_committing hop) p _)
  · exact .inr (hb.quiet (quiet_setProc s _ i.1 rfl))
  · have hsuffix : cmd :: todo <:+ code r.start s.log.lh pc := hcmd ▸ h.code i.1 pc hpc
    obtain ⟨hquiet, hor⟩ := exec_spec h hq
    have hrest : cmd ≠ .bwrite r.start → Unheaded r q.1 b := by
      intro hne
      have hpop : Unheaded r (s.setProc i.1 { s.proc i.1 with todo := todo }) b := by
        refine ⟨hb.1, fun p hp => ?_⟩
        have hmem := hb.2 p hp
        rw [State.setProc_proc]
        rcases eq_or_ne p i.1 with rfl | hpi
        · rw [Function.update_self]
          rw [hcmd] at hmem
          exact (List.mem_cons.mp hmem).resolve_left fun heq => hne heq.symm
        · rw [Function.update_of_ne hpi]
          exact hmem
      exact hpop.quiet hquiet
    rcases hor with ⟨-, hne⟩ | ⟨-, -, -, -, -, hne⟩ | ⟨j, b', hj, rfl, he⟩
    · exact .inr (hrest (hne _))
    · exact .inr (hrest (hne _))
    · rcases eq_or_ne b' r.start with rfl | hne
      · rcases code_bwrite hsuffix with ⟨tail, htail, -, heq, -⟩ | ⟨-, -, rfl⟩ |
          ⟨tail, rfl, htail, -⟩
        · -- no block of the log is the header's
          have hd := dist_logBlock r.start tail (lt_of_lt_of_le htail h.log.length_le)
          rw [← heq, Counter.dist_self] at hd
          contradiction
        · exact .inl ⟨_, he, (h.header i.1 pc hpc hcmd).2 j hj⟩
        · exact (hb.1.2 i.1 _ hpc).elim
      · exact .inr (hrest fun heq => hne (Cmd.bwrite.inj heq))
  · have hstep : GroupCommit.step r.size s.log i.1 .commit =
        .ok (GroupCommit.commit i.1 s.log pc) := by
      rw [GroupCommit.step, hpc]
    obtain ⟨todo, hload, htodo⟩ := load_eq (r := r) (p := i.1)
      { s with log := (GroupCommit.commit i.1 s.log pc).1 }
    rcases GroupCommit.pending_step hb.1 hstep with ⟨hhead, -⟩ | ⟨-, hpending⟩
    · -- the header has been written already
      have hbefore := hb.1.2 i.1 pc hpc
      cases pc with
      | writeHead =>
        have hmem := hb.2 i.1 hpc
        rw [hnil] at hmem
        contradiction
      | eraseHead => exact hbefore.elim
      | _ => cases hhead
    · refine .inr ⟨?_, fun p hp => ?_⟩
      · rw [hload]
        exact hpending
      · rw [hload] at hp ⊢
        have hother := GroupCommit.inv_commit h.log hpc
        have hpi : p = i.1 := by
          by_contra hne
          refine hne (h.log.unique p i.1 .writeHead pc ?_ hpc)
          rw [← hp]
          cases pc <;> exact (GroupCommit.State.goto_phase_of_ne _ _ hne).symm
        subst hpi
        rw [State.setProc_proc, Function.update_self, htodo _ hp]
        simp [code]
  · obtain ⟨l, e, hstep, rfl⟩ := logStep_spec hq
    exact .inr (hfreeStep hfree hstep fun _ _ => rfl)
  · exact .inr (hb.quiet (startBread_spec hq).1)
  · exact .inr (hb.quiet (modify_spec hq).1)
  · exact .inr (hb.quiet (startBrelse_spec hq).1)
  · obtain ⟨todo, hload, -⟩ := load_eq (r := r) (p := i.1) { s with log := l }
    rw [hload]
    exact .inr (hfreeStep (t := s.setProc i.1 { s.proc i.1 with todo := todo }) hfree hstep
      fun p hp => Function.update_of_ne hp _ _)

/-- A block is unheaded when `log_write` returns. -/
theorem unheaded_of_logged (h : Inv r s) {b : UInt32} {i : P × Action} {s' : State P} {p : P}
    (hq : step r s i = some (s', .log (.logged p b))) : Unheaded r s' b := by
  obtain ⟨j, b', -, hq⟩ | ⟨j, hbusy, hq⟩ | ⟨j, -, heq⟩ | ⟨pc, cmd, todo, -, hpc, -, hq⟩ |
    ⟨pc, -, hpc, -, heq⟩ |
    ⟨-, hq | ⟨b', hq⟩ | ⟨b', data, hq⟩ | ⟨b', hq⟩ | ⟨l, e, hstep, heq⟩⟩ := step_cases hq
  · cases (endBread_spec h hq).2
  · obtain ⟨b', l, e, hstep, hlog, he⟩ := write_spec hq
    cases he
    have hop := (h.modified i.1 j hbusy).1
    have hl := GroupCommit.inv_step h.log hstep
    have hpending := GroupCommit.pending_of_logged h.log hstep
    refine ⟨hlog ▸ hpending, fun q hq' => ?_⟩
    rw [hlog] at hq'
    by_contra
    obtain ⟨pc, hpc⟩ := GroupCommit.committing_of_writeHead (p := q) hstep
      (.inr ⟨hq', h.log.not_running (h.log.not_committing hop) q _⟩)
    exact h.log.not_running (h.log.not_committing hop) i.1 pc hpc
  · cases heq
  · obtain ⟨-, ⟨he, -⟩ | ⟨j, b', -, -, he, -⟩ | ⟨j, b', -, -, he⟩⟩ := exec_spec h hq <;> cases he
  · cases pc <;> cases heq
  · obtain ⟨l, e, hstep, heq⟩ := logStep_spec hq
    cases heq
    rw [GroupCommit.step] at hstep
    split at hstep
    · rcases GroupCommit.beginOp_cases i.1 s.log with hb | ⟨-, hb⟩ <;> rw [hb] at hstep <;>
        cases hstep
    · cases hstep
  · obtain ⟨-, he | ⟨j, b'', -, -, he⟩⟩ := startBread_spec hq <;> cases he
  · cases (modify_spec hq).2
  · cases (startBrelse_spec hq).2
  · cases heq
    rw [GroupCommit.step] at hstep
    split at hstep
    · obtain ⟨-, ⟨-, he⟩ | he⟩ := GroupCommit.endOp_cases hstep <;> cases he
    · cases hstep

/-- **The log of the system makes the steps of group commit**, or none. -/
theorem log_step (h : Inv r s) {i : P × Action} {q : State P × Event P}
    (hq : step r s i = some q) : q.1.log = s.log ∨
      ∃ a e, GroupCommit.step r.size s.log i.1 a = .ok (q.1.log, e) := by
  obtain ⟨j, b', -, hq⟩ | ⟨j, -, hq⟩ | ⟨j, -, rfl⟩ | ⟨pc, cmd, todo, -, -, -, hq⟩ |
    ⟨pc, -, hpc, -, rfl⟩ |
    ⟨-, hq | ⟨b', hq⟩ | ⟨b', data, hq⟩ | ⟨b', hq⟩ | ⟨l, e, hstep, rfl⟩⟩ := step_cases hq
  · exact .inl (endBread_spec h hq).1.1
  · obtain ⟨b', l, e, hstep, hlog, -⟩ := write_spec hq
    exact .inr ⟨_, e, hlog ▸ hstep⟩
  · exact .inl rfl
  · exact .inl (exec_spec h hq).1.1
  · obtain ⟨todo, hload, -⟩ := load_eq (r := r) (p := i.1)
      { s with log := (GroupCommit.commit i.1 s.log pc).1 }
    refine .inr ⟨.commit, (GroupCommit.commit i.1 s.log pc).2, ?_⟩
    rw [GroupCommit.step, hpc, hload]
    rfl
  · obtain ⟨l, e, hstep, rfl⟩ := logStep_spec hq
    exact .inr ⟨_, e, hstep⟩
  · exact .inl (startBread_spec hq).1.1
  · exact .inl (modify_spec hq).1.1
  · exact .inl (startBrelse_spec hq).1.1
  · obtain ⟨todo, hload, -⟩ := load_eq (r := r) (p := i.1) { s with log := l }
    refine .inr ⟨.endOp, e, ?_⟩
    rw [hload]
    exact hstep

/-- The cache and the log after `initlog`: no buffer is in use or dirty, and no process has
begun anything. -/
structure Boot (s : State P) : Prop where
  log : s.log = GroupCommit.boot
  mem : ∀ i b, (s.bcache.buf i).blk = some b → i ∈ s.bcache.lru
  uniq : ∀ i j b, (s.bcache.buf i).blk = some b → (s.bcache.buf j).blk = some b → i = j
  refcnt : ∀ i, (s.bcache.buf i).refcnt = 0
  dirty : ∀ i, (s.bcache.buf i).dirty = false
  proc : ∀ p, s.proc p = ⟨[], .ready, []⟩

omit [DecidableEq P] in
theorem inv_boot (h : Boot s) (r : Region) : Inv r s := by
  refine ⟨h.log ▸ GroupCommit.inv_boot r.size, ⟨h.mem, h.uniq, fun i => ?_, ?_, ?_, ?_⟩,
    fun i hi => ?_, fun i hi => ?_, ?_, ?_, ?_, ?_, ?_⟩
  · simp [h.refcnt, h.proc, Proc.refs, Busy.refs]
  · simp [h.proc]
  · simp [h.proc]
  · simp [h.proc]
  · rw [h.dirty] at hi
    contradiction
  · rw [h.dirty] at hi
    contradiction
  · simp [h.log, GroupCommit.boot]
  · simp [h.log, GroupCommit.boot]
  · simp [h.proc]
  · simp [h.log, GroupCommit.boot]
  · simp [h.log, GroupCommit.boot]

/-- **The write-ahead rule.**  In every state that a schedule leads to, the buffer of a block
passed to `log_write` whose header is not on the disk is cached and dirty, and no step writes
the block home or discards its copy; and the step that ends a commit leaves no buffer dirty. -/
theorem write_ahead (r : Region) (s₀ : State P) (h₀ : Boot s₀) (is : List (P × Action))
    (s : State P) (evs : List (Event P)) (hrun : Machine.run (step r) s₀ is = some (s, evs)) :
    (∀ b, Exposed r.start evs b →
      (∃ j, (s.bcache.buf j).blk = some b ∧ (s.bcache.buf j).dirty = true) ∧
        ∀ i q, step r s i = some q → q.2 ≠ .discard b ∧ ∀ data, q.2 ≠ .write b data) ∧
      ∀ i q, step r s i = some q → s.log.committing = true → q.1.log.committing = false →
        ∀ j, (q.1.bcache.buf j).dirty = false := by
  -- the invariant, and what it says of the events so far
  obtain ⟨h, hexposed⟩ : Inv r s ∧ ∀ b, Exposed r.start evs b → Unheaded r s b := by
    refine Machine.run_history_invariant (fun s evs => Inv r s ∧
      ∀ b, Exposed r.start evs b → Unheaded r s b) ?_ is s₀ [] (s, evs) ⟨inv_boot h₀ r, ?_⟩ hrun
    · rintro s evs i ⟨s', e⟩ ⟨hs, hex⟩ hstep
      refine ⟨inv_step hs hstep, fun b hb => ?_⟩
      rcases exposed_concat hb with ⟨p, rfl⟩ | ⟨hb, hno⟩
      · exact unheaded_of_logged hs hstep
      · rcases unheaded_step hs (hex b hb) hstep with ⟨data, he, hdata⟩ | hs'
        · exact absurd (hex b hb).1.1 (hno data _ he hdata)
        · exact hs'
    · rintro b ⟨pre, p, post, heq, -⟩
      simp at heq
  refine ⟨fun b hb => ?_, fun i q hq hc hc' j => ?_⟩
  · obtain ⟨⟨hmem, hbefore⟩, -⟩ := hexposed b hb
    have hun : Uninstalled s b := by
      intro p pc hpc
      have := hbefore p pc hpc
      cases pc <;> trivial
    obtain ⟨j, hj, hdirty⟩ := h.pinned b hmem hun
    refine ⟨⟨j, hj, hdirty⟩, fun i q hq => ⟨fun he => ?_, fun data he => ?_⟩⟩
    · obtain ⟨k, hk, hclean⟩ := (step_effect h hq).1 b he
      obtain rfl := h.refs.uniq j k b hj hk
      rw [hdirty] at hclean
      contradiction
    · obtain ⟨pc, todo, hpc, hcmd⟩ := (step_effect h hq).2 b data he
      have hsuffix := h.code i.1 pc hpc
      rw [hcmd] at hsuffix
      rcases code_bwrite hsuffix with ⟨tail, htail, -, rfl, -⟩ | ⟨-, rfl, -⟩ | ⟨tail, rfl, -, -⟩
      · refine h.outside _ hmem ?_
        rw [Region.Has, dist_logBlock _ _ (lt_of_lt_of_le htail h.log.length_le)]
        exact h.log.fits tail htail
      · exact h.outside _ hmem r.has_start
      · exact (hbefore i.1 _ hpc).elim
  · have h' := inv_step h hq
    cases hdirty : (q.1.bcache.buf j).dirty with
    | false => rfl
    | true =>
      obtain ⟨b, hb, -, -⟩ := h'.dirty j hdirty
      rcases log_step h hq with heq | ⟨a, e, hstep⟩
      · rw [heq, hc] at hc'
        contradiction
      · rw [GroupCommit.lh_of_finish h.log hstep hc hc'] at hb
        contradiction

/-- The rule for one operation of one process, which commits it, on an empty cache. -/
theorem write_ahead_one :
    let zeros : UInt32 → Block := fun _ => Vector.replicate 128 0
    let buf : Buf (Fin 1) := ⟨none, false, false, 0, none, zeros 0⟩
    let s₀ : State (Fin 1) :=
      ⟨GroupCommit.boot, ⟨fun _ => buf, [2, 1, 0], zeros, 1000⟩, fun _ => ⟨[], .ready, []⟩⟩
    ∃ s evs, Machine.run (step ⟨2, 30, by decide⟩) s₀
        [(0, .beginOp), (0, .bread 45), (0, .go), (0, .modify 45 (Vector.replicate 128 7)),
          (0, .go)] = some (s, evs) ∧
      ∃ j, (s.bcache.buf j).blk = some 45 ∧ (s.bcache.buf j).dirty = true := by
  intro zeros buf s₀
  have hboot : Boot s₀ := ⟨rfl, by simp [s₀, buf], by simp [s₀, buf], fun _ => rfl, fun _ => rfl,
    fun _ => rfl⟩
  refine ⟨_, _, rfl, ?_⟩
  refine ((write_ahead ⟨2, 30, by decide⟩ s₀ hboot
    [(0, .beginOp), (0, .bread 45), (0, .go), (0, .modify 45 (Vector.replicate 128 7)),
      (0, .go)] _ _ rfl).1 45 ?_).1
  exact ⟨[.log (.begun 0), .other, .other, .other], 0, [], rfl, by simp⟩

end WriteAhead
end Xv6

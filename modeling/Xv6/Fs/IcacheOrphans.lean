import Xv6.Fs.IcacheShared

/-!
# Inodes that are freed

`iput` frees an inode that has no links when it drops the last reference to it.  It sees whether the
reference is the last one before it drops it, and between the two another process may do the same:
then neither of them frees the inode.

## Main definitions

* `Apart` — the processes do not overlap in this way.
* `Orphan` — an inode without links that nobody is going to free.
* `Kept` — what every step keeps.

## Main results

* `kept_step` — no step makes an orphan.
* `no_orphans` — **every inode that is allocated is linked or referred to**, when no process is in
  any of the functions.
* `not_no_orphans` — without keeping apart, it may be neither.
-/

namespace Xv6
namespace IcacheShared

open Machine
open Fs (Ino Slot Dinode)

variable {P : Type*}

section Orphans

variable [DecidableEq P]

/-- In `iput`, before it is decided that the inode is kept, or before it is freed. -/
def Code.Waits : Code → Prop
  | .iput0 | .iput1 | .iput2 | .iput3 | .iput4 => True
  | _ => False

/-- The next step is the test of `r` in `iput`. -/
def State.Tests (s : State P) (p : P) (i : Slot) : Prop := s.pc p = .on .iput2 i

/-- In `iput`, an inode without links was locked before, and no other process has yet to drop its
reference when the references are counted. -/
def Apart (s : State P) : Action P → Prop
  | .iput _ i => (s.content i).nlink = 0 → (s.ip i).valid = true ∧ ¬s.Stale i
  | .next p => ∀ i, s.Tests p i → ∀ q, s.pc q ≠ .on .iput7 i
  | _ => True

/-- The inode is referred to, or a process is going to see whether to free it. -/
def State.Busy (s : State P) (i : Slot) : Prop :=
  0 < s.refs i ∨ ∃ p k, s.pc p = .on k i ∧ k.Waits

/-- An inode without links that nobody is going to free. -/
structure Orphan (s : State P) (x : Ino) : Prop where
  type : (s.inode x).type ≠ 0
  nlink : (s.inode x).nlink = 0
  new : ∀ p, s.pc p ≠ .iget x
  calm : ∀ p, s.pc p ≠ .panicked
  busy : ∀ i, s.Holds i x → ¬s.Busy i

/-- **What every step keeps** when the processes keep apart. -/
structure Kept (s : State P) : Prop where
  orphan : ∀ x, ¬Orphan s x
  seen : ∀ p i, (s.pc p = .on .iput0 i ∨ s.pc p = .on .iput1 i) → (s.content i).nlink = 0 →
    (s.ip i).valid = true ∧ ¬s.Stale i

variable [Fintype P] {s s' : State P} {p q : P} {i j : Slot} {x y : Ino}
  {e : Event P} {c : Pc} {v : Inode P} {n : ℕ} {d : Dinode} {k : Code} {a : Action P}

/-- A step that changes one slot. -/
theorem Kept.put (h : Kept s) (hs : Inv s) (hs' : Inv (s.put p c i v n d))
    (hat : ∀ k j, s.pc p = .on k j → j = i) (hc : c.Near i)
    (hnew : ∀ y, s.pc p = .iget y → y = v.ino) (hrun : s.pc p ≠ .panicked)
    (hone : ∀ j ≠ i, 0 < (s.ip j).ref → (s.ip j).ino ≠ v.ino)
    (hold : (s.ip i).ino = v.ino ∨ (s.ip i).ref = 0)
    (horphan : Orphan (s.put p c i v n d) v.ino → False)
    (hp : (c = .on .iput0 i ∨ c = .on .iput1 i) → ((s.put p c i v n d).content i).nlink = 0 →
      v.valid = true ∧ ¬(s.put p c i v n d).Stale i)
    (hseen : ∀ q ≠ p, (s.pc q = .on .iput0 i ∨ s.pc q = .on .iput1 i) →
      ((s.put p c i v n d).content i).nlink = 0 →
      v.valid = true ∧ ¬(s.put p c i v n d).Stale i) : Kept (s.put p c i v n d) := by
  have hpc : ∀ {q k j}, j ≠ i → ((s.put p c i v n d).pc q = .on k j ↔ s.pc q = .on k j) := by
    intro q k j hj
    by_cases hq : q = p
    · rw [hq, State.put_pc]
      constructor
      · rintro rfl
        exact absurd hc hj
      · exact fun h => absurd (hat k j h) hj
    · rw [State.put_pc_ne hq]
  have hstale : ∀ {j}, j ≠ i → ((s.put p c i v n d).Stale j ↔ s.Stale j) := by
    intro j hj
    simp only [State.Stale, State.put_ip_ne hj, hpc hj]
  refine ⟨fun y hy => ?_, fun q j hq hlinks => ?_⟩
  · by_cases hyv : y = v.ino
    · rw [hyv] at hy
      exact horphan hy
    · have hinode := hs.inode_put hs' hat hc hone hold rfl
      have hne : ∀ {j}, s.Holds j y → j ≠ i := by
        rintro j ⟨href, hino⟩ rfl
        rcases hold with hold | hold
        · exact hyv (hino.symm.trans hold)
        · omega
      refine h.orphan y ⟨?_, ?_, fun q hq => ?_, fun q hq => ?_, fun j hj hbusy => ?_⟩
      · have htype := hy.type
        rwa [hinode, Function.update_of_ne hyv] at htype
      · have hlinks := hy.nlink
        rwa [hinode, Function.update_of_ne hyv] at hlinks
      · refine hy.new q ?_
        rw [State.put_pc_ne]
        · exact hq
        · rintro rfl
          exact hyv (hnew y hq)
      · refine hy.calm q ?_
        rw [State.put_pc_ne]
        · exact hq
        · rintro rfl
          exact hrun hq
      · have hji := hne hj
        refine hy.busy j ?_ ?_
        · rwa [State.Holds, State.put_ip_ne hji]
        · rcases hbusy with hr | ⟨q, k, hq, hk⟩
          · refine .inl ?_
            rwa [State.put_refs_ne hji]
          · exact .inr ⟨q, k, (hpc hji).mpr hq, hk⟩
  · by_cases hji : j = i
    · subst hji
      rw [State.put_ip]
      by_cases hqp : q = p
      · rw [hqp, State.put_pc] at hq
        exact hp hq hlinks
      · rw [State.put_pc_ne hqp] at hq
        exact hseen q hqp hq hlinks
    · have hq' : s.pc q = .on .iput0 j ∨ s.pc q = .on .iput1 j := by
        rwa [hpc hji, hpc hji] at hq
      have href : 0 < (s.ip j).ref := hq'.elim hs.ref_pos hs.ref_pos
      have hcontent : (s.put p c i v n d).content j = s.content j := by
        rw [State.content, State.content, State.put_ip_ne hji,
          State.put_disk_ne (hone j hji href)]
        simp only [hstale hji]
      rw [hcontent] at hlinks
      rw [State.put_ip_ne hji, hstale hji]
      exact h.seen q j hq' hlinks

/-- A step that leaves the inode of its slot. -/
theorem Kept.put_same (h : Kept s) (hs : Inv s) (hs' : Inv (s.put p c i v n d))
    (hat : ∀ k j, s.pc p = .on k j → j = i) (hc : c.Near i)
    (hnew : (∀ y, s.pc p ≠ .iget y) ∧ s.pc p ≠ .panicked)
    (hino : v.ino = (s.ip i).ino) (href : 0 < (s.ip i).ref) (hvref : 0 < v.ref)
    (hcontent : (s.put p c i v n d).content i = s.content i)
    (hbusy : (s.content i).nlink = 0 → s.Busy i → (s.put p c i v n d).Busy i)
    (hvalid : (s.ip i).valid = true ∧ ¬s.Stale i →
      v.valid = true ∧ ¬(s.put p c i v n d).Stale i)
    (hp : (c = .on .iput0 i ∨ c = .on .iput1 i) → (s.content i).nlink = 0 →
      (s.ip i).valid = true ∧ ¬s.Stale i) : Kept (s.put p c i v n d) := by
  have hone : ∀ j ≠ i, 0 < (s.ip j).ref → (s.ip j).ino ≠ v.ino := fun j hj hrefj h =>
    hj (hs.one j i hrefj href (h.trans hino))
  have hholds : (s.put p c i v n d).Holds i v.ino := by
    rw [State.Holds, State.put_ip]
    exact ⟨hvref, rfl⟩
  have hinode : (s.put p c i v n d).inode v.ino = s.inode v.ino := by
    rw [hs'.inode_of_holds hholds, hino, hs.inode_slot href, hcontent]
  refine h.put hs hs' hat hc (fun y hy => absurd hy (hnew.1 y)) hnew.2 hone
    (.inl hino.symm)
    (fun ho => h.orphan v.ino ⟨?_, ?_, fun q hq => ?_, fun q hq => ?_, fun j hj hb => ?_⟩)
    (fun hcp hlinks => hvalid (hp hcp (hcontent ▸ hlinks)))
    fun q _ hq hlinks => hvalid (h.seen q i hq (hcontent ▸ hlinks))
  · rw [← hinode]
    exact ho.type
  · rw [← hinode]
    exact ho.nlink
  · refine ho.new q ?_
    rw [State.put_pc_ne]
    · exact hq
    · rintro rfl
      exact hnew.1 v.ino hq
  · refine ho.calm q ?_
    rw [State.put_pc_ne]
    · exact hq
    · rintro rfl
      exact hnew.2 hq
  · obtain rfl : j = i := by
      by_contra hji
      exact hone j hji hj.1 hj.2
    refine ho.busy j hholds (hbusy ?_ hb)
    have hlinks := ho.nlink
    rwa [hinode, hino, hs.inode_slot href] at hlinks

omit [Fintype P] in
/-- A process that waits for its turn does so after a step of another one. -/
theorem busy_put (h : s.Busy i) (hn : 0 < s.refs i → 0 < n)
    (hk : ∀ k, s.pc p = .on k i → k.Waits → ∃ k', c = .on k' i ∧ k'.Waits) :
    (s.put p c i v n d).Busy i := by
  rcases h with hr | ⟨q, k, hq, hw⟩
  · refine .inl ?_
    rw [State.put_refs]
    exact hn hr
  · by_cases hqp : q = p
    · rw [hqp] at hq
      obtain ⟨k', hk', hw'⟩ := hk k hq hw
      exact .inr ⟨p, k', (State.put_pc).trans hk', hw'⟩
    · exact .inr ⟨q, k, (State.put_pc_ne hqp).trans hq, hw⟩

omit [Fintype P] in
/-- Which of the processes gives up an inode does not change at a step of another one. -/
theorem stale_put (hat : ∀ k j, s.pc p = .on k j → k ≠ .iput5) (hlock : v.lock = (s.ip i).lock)
    (hc : c ≠ .on .iput5 i) : (s.put p c i v n d).Stale i ↔ s.Stale i := by
  have hpc : ∀ q, (s.put p c i v n d).pc q = .on .iput5 i ↔ s.pc q = .on .iput5 i := by
    intro q
    by_cases hq : q = p
    · rw [hq, State.put_pc]
      exact iff_of_false hc fun h => hat _ i h rfl
    · rw [State.put_pc_ne hq]
  simp only [State.Stale, State.put_ip, hlock, hpc]

/-- A step that goes on, and changes nothing else. -/
theorem Kept.goto (h : Kept s) (hs : Inv s) (hs' : Inv (s.goto p c)) (href : 0 < (s.ip i).ref)
    (hat : ∀ k j, s.pc p = .on k j → j = i ∧ k ≠ .iput5) (hc : c.Near i)
    (hnew : (∀ y, s.pc p ≠ .iget y) ∧ s.pc p ≠ .panicked) (hc5 : c ≠ .on .iput5 i)
    (hbusy : (s.content i).nlink = 0 → ∀ k, s.pc p = .on k i → k.Waits →
      (∃ k', c = .on k' i ∧ k'.Waits) ∨ 0 < s.refs i ∨ ∃ q ≠ p, ∃ k', s.pc q = .on k' i ∧ k'.Waits)
    (hp : (c = .on .iput0 i ∨ c = .on .iput1 i) → (s.content i).nlink = 0 →
      (s.ip i).valid = true ∧ ¬s.Stale i) : Kept (s.goto p c) := by
  rw [goto_eq_put s p i] at hs' ⊢
  have hst := stale_put (v := s.ip i) (n := s.refs i) (d := s.disk (s.ip i).ino)
    (fun k j hk => (hat k j hk).2) rfl hc5
  have hdisk : (s.put p c i (s.ip i) (s.refs i) (s.disk (s.ip i).ino)).disk (s.ip i).ino =
      s.disk (s.ip i).ino := State.put_disk
  refine h.put_same hs hs' (fun k j hk => (hat k j hk).1) hc hnew rfl href href ?_
    (fun hlinks hb => ?_) (fun hv => ⟨hv.1, fun h => hv.2 (hst.mp h)⟩) hp
  · rw [State.content, State.content, State.put_ip, hdisk]
    simp only [hst]
  · have hrefs : 0 < s.refs i → (s.put p c i (s.ip i) (s.refs i) (s.disk (s.ip i).ino)).Busy i :=
      fun hr => .inl (by rwa [State.put_refs])
    by_cases hw : ∃ k, s.pc p = .on k i ∧ k.Waits
    · obtain ⟨k, hk, hw⟩ := hw
      rcases hbusy hlinks k hk hw with ⟨k', hk', hw'⟩ | hr | ⟨q, hq, k', hk', hw'⟩
      · exact .inr ⟨p, k', State.put_pc.trans hk', hw'⟩
      · exact hrefs hr
      · exact .inr ⟨q, k', (State.put_pc_ne hq).trans hk', hw'⟩
    · exact busy_put hb id fun k hk hwaits => absurd ⟨k, hk, hwaits⟩ hw

/-- A step under the lock that leaves the references. -/
theorem Kept.lock (h : Kept s) (hs : Inv s) (hs' : Inv (s.put p c i v (s.refs i) d))
    (hat : ∀ k j, s.pc p = .on k j → j = i) (hc : c.Near i)
    (hnew : (∀ y, s.pc p ≠ .iget y) ∧ s.pc p ≠ .panicked)
    (hino : v.ino = (s.ip i).ino) (href : 0 < (s.ip i).ref) (hvref : v.ref = (s.ip i).ref)
    (hcontent : (s.put p c i v (s.refs i) d).content i = s.content i)
    (hk : ∀ k, s.pc p = .on k i → k.Waits → ∃ k', c = .on k' i ∧ k'.Waits)
    (hvalid : (s.ip i).valid = true ∧ ¬s.Stale i →
      v.valid = true ∧ ¬(s.put p c i v (s.refs i) d).Stale i)
    (hp : (c = .on .iput0 i ∨ c = .on .iput1 i) → (s.content i).nlink = 0 →
      (s.ip i).valid = true ∧ ¬s.Stale i) : Kept (s.put p c i v (s.refs i) d) :=
  h.put_same hs hs' hat hc hnew hino href (hvref ▸ href) hcontent
    (fun _ hb => busy_put hb id hk) hvalid hp

end Orphans

section Statements

variable [DecidableEq P] [Fintype P] {s s' : State P} {p q : P} {i j : Slot} {x y : Ino}
  {e : Event P} {c : Pc} {n : ℕ} {d : Dinode} {k : Code} {a : Action P}

omit [DecidableEq P] [Fintype P] in
theorem not_waits (hk : s.pc p = .on k i) (hw : ¬k.Waits) : ∀ k', s.pc p = .on k' i → ¬k'.Waits :=
  fun k' hk' hw' => by
    rw [hk] at hk'
    cases hk'
    exact hw hw'

omit [DecidableEq P] [Fintype P] in
theorem not_new (hk : s.pc p = .on k i) : (∀ y, s.pc p ≠ .iget y) ∧ s.pc p ≠ .panicked := by
  rw [hk]
  exact ⟨fun y => by simp, by simp⟩

/-- The locks of the inodes do not matter. -/
theorem kept_acquiresleep (h : Kept s) (hs : Inv s) {k' : Code} (hk : s.pc p = .on k i)
    (hkk : (k = .ilock0 ∧ k' = .ilock1) ∨ (k = .iput0 ∧ k' = .iput1))
    (hstep : acquiresleep s p i k' = some (s', e)) : Kept s' := by
  have hs' := (inv_acquiresleep (a := .next p) hs hk hkk hstep).1
  have href := hs.ref_pos hk
  rw [acquiresleep] at hstep
  split at hstep
  · next hfree =>
    rw [set_eq_put] at hstep
    cases hstep
    have hst : ¬s.Stale i := not_stale fun q hq => by
      rw [hfree] at hq
      cases hq
    have hst' : ¬(s.put p (.on k' i) i { s.ip i with lock := some p } (s.refs i)
        (s.disk (s.ip i).ino)).Stale i := by
      rintro ⟨q, hq, hpc⟩
      rw [State.put_ip] at hq
      cases hq
      rw [State.put_pc] at hpc
      rcases hkk with ⟨-, rfl⟩ | ⟨-, rfl⟩ <;> cases hpc
    have hdisk : (s.put p (.on k' i) i { s.ip i with lock := some p } (s.refs i)
        (s.disk (s.ip i).ino)).disk (s.ip i).ino = s.disk (s.ip i).ino := State.put_disk
    refine h.lock hs hs' (at_of_pc hk) rfl (not_new hk) rfl href rfl ?_ (fun k'' hk'' hw => ?_)
      (fun hv => ⟨hv.1, hst'⟩) fun hc hlinks => ?_
    · rw [content_of_not_stale hst, content_of_not_stale hst', State.put_ip, hdisk]
    · refine ⟨k', rfl, ?_⟩
      rw [hk] at hk''
      cases hk''
      rcases hkk with ⟨rfl, -⟩ | ⟨-, rfl⟩
      · exact hw.elim
      · trivial
    · rcases hkk with ⟨-, rfl⟩ | ⟨rfl, rfl⟩
      · rcases hc with hc | hc <;> cases hc
      · exact h.seen p i (.inl hk) hlinks
  · contradiction

omit [DecidableEq P] in
/-- Somebody else is in `iput`. -/
theorem Slotted.drops_other (h : Slotted s i) (hrefs : s.refs i = 0) (hone : (s.ip i).ref ≠ 1)
    (hp : (s.pc p).Drops i) : ∃ q ≠ p, (s.pc q).Drops i := by
  by_contra hnone
  have hsum : (∑ q, if (s.pc q).Drops i then 1 else 0) = 1 := by
    rw [Finset.sum_eq_single p (fun q _ hq => if_neg fun hd => hnone ⟨q, hq, hd⟩)
      fun hmem => absurd (Finset.mem_univ p) hmem, if_pos hp]
  have hcount := h.count
  omega

omit [DecidableEq P] in
/-- Nobody but the last process in `iput` is there. -/
theorem Inv.alone (hs : Inv s) (hk : s.pc p = .on k i) (hkd : k.Drops) (hone : (s.ip i).ref = 1)
    (hq : q ≠ p) {k' : Code} (hk' : k'.Drops) : s.pc q ≠ .on k' i := fun hqk => by
  refine hq ((hs.slot i).drops_one hone ?_ ?_)
  · rw [hqk]
    exact Pc.drops_on.mpr hk'
  · rw [hk]
    exact Pc.drops_on.mpr hkd

theorem kept_ilock (h : Kept s) (hs : Inv s) (hk : s.pc p = .on k i) (hlocking : k.Locking)
    (hstep : statement s p i k = some (s', e)) : Kept s' := by
  have hs' := (inv_statement (a := .next p) hs hk hstep).1
  have href := hs.ref_pos hk
  have hat := at_of_pc hk
  have hnew := not_new hk
  cases k with
  | ilock0 => exact kept_acquiresleep h hs hk (.inl ⟨rfl, rfl⟩) hstep
  | ilock1 =>
    have hnot := not_waits hk (fun h : Code.ilock1.Waits => h)
    rw [statement] at hstep
    split at hstep
    · cases hstep
      exact h.goto hs hs' href (at_of_pc_ne hk (by decide)) trivial hnew (fun h => by cases h)
        (fun _ k hk hw => absurd hw (hnot k hk)) fun hc => by rcases hc with hc | hc <;> cases hc
    · cases hstep
      exact h.goto hs hs' href (at_of_pc_ne hk (by decide)) rfl hnew (fun h => by cases h)
        (fun _ k hk hw => absurd hw (hnot k hk)) fun hc => by rcases hc with hc | hc <;> cases hc
  | ilock2 =>
    obtain ⟨-, -, hvalid⟩ := hs.place p i _ hk
    rw [statement, set_eq_put] at hstep
    cases hstep
    have hdisk : (s.put p (.on .ilock3 i) i { s.ip i with copy := s.disk (s.ip i).ino } (s.refs i)
        (s.disk (s.ip i).ino)).disk (s.ip i).ino = s.disk (s.ip i).ino := State.put_disk
    refine h.lock hs hs' hat rfl hnew rfl href rfl ?_
      (fun k hk' hw => absurd hw (not_waits hk (fun h : Code.ilock2.Waits => h) k hk'))
      (fun hv => ?_) fun hc => by rcases hc with hc | hc <;> cases hc
    · rw [content_of_not_valid hvalid, content_of_not_valid (by rwa [State.put_ip]), State.put_ip,
        hdisk]
    · rw [hvalid] at hv
      cases hv.1
  | ilock3 =>
    obtain ⟨hlock, hrefs, hvalid, hcopy⟩ := hs.place p i _ hk
    rw [statement] at hstep
    split at hstep
    · next hzero =>
      rw [hcopy] at hzero
      exact absurd hzero ((hs.slot i).live hrefs)
    rw [set_eq_put] at hstep
    cases hstep
    have hst : ¬(s.put p .user i { s.ip i with valid := true } (s.refs i)
        (s.disk (s.ip i).ino)).Stale i := by
      rintro ⟨q, hq, hpc⟩
      rw [State.put_ip] at hq
      obtain rfl : p = q := Option.some.inj (hlock.symm.trans hq)
      rw [State.put_pc] at hpc
      cases hpc
    refine h.lock hs hs' hat trivial hnew rfl href rfl ?_
      (fun k hk' hw => absurd hw (not_waits hk (fun h : Code.ilock3.Waits => h) k hk'))
      (fun _ => ⟨rfl, hst⟩) fun hc => by rcases hc with hc | hc <;> cases hc
    rw [content_of_not_valid hvalid, content_of_not_stale hst, State.put_ip, if_pos rfl]
    exact hcopy
  | iunlock0 =>
    obtain ⟨hlock, -, hvalid, -⟩ := hs.place p i _ hk
    have hst : ¬s.Stale i := not_stale_of_pc hlock fun h => by
      rw [hk] at h
      cases h
    rw [statement, set_eq_put] at hstep
    cases hstep
    have hst' : ¬(s.put p .user i { s.ip i with lock := none } (s.refs i)
        (s.disk (s.ip i).ino)).Stale i := by
      rintro ⟨q, hq, -⟩
      rw [State.put_ip] at hq
      cases hq
    refine h.lock hs hs' hat trivial hnew rfl href rfl ?_
      (fun k hk' hw => absurd hw (not_waits hk (fun h : Code.iunlock0.Waits => h) k hk'))
      (fun hv => ⟨hv.1, hst'⟩) fun hc => by rcases hc with hc | hc <;> cases hc
    rw [content_of_not_stale hst, content_of_not_stale hst', State.put_ip, if_pos hvalid,
      if_pos hvalid]
  | _ => exact hlocking.elim

theorem kept_iput1 (h : Kept s) (hs : Inv s) (hk : s.pc p = .on .iput1 i)
    (hstep : statement s p i .iput1 = some (s', e)) : Kept s' := by
  have hs' := (inv_statement (a := .next p) hs hk hstep).1
  have href := hs.ref_pos hk
  rw [statement] at hstep
  split at hstep
  · cases hstep
    exact h.goto hs hs' href (at_of_pc_ne hk (by decide)) rfl (not_new hk) (fun h => by cases h)
      (fun _ _ _ _ => .inl ⟨_, rfl, trivial⟩) fun hc => by rcases hc with hc | hc <;> cases hc
  · next hkeep =>
    cases hstep
    refine h.goto hs hs' href (at_of_pc_ne hk (by decide)) rfl (not_new hk) (fun h => by cases h)
      (fun hlinks _ _ _ => ?_) fun hc => by rcases hc with hc | hc <;> cases hc
    obtain ⟨hvalid, hst⟩ := h.seen p i (.inr hk) hlinks
    rw [content_of_not_stale hst, if_pos hvalid] at hlinks
    exact absurd ⟨hvalid, hlinks⟩ hkeep

theorem kept_iput2 (h : Kept s) (hs : Inv s) (hk : s.pc p = .on .iput2 i)
    (hapart : ∀ q, s.pc q ≠ .on .iput7 i)
    (hstep : statement s p i .iput2 = some (s', e)) : Kept s' := by
  have hs' := (inv_statement (a := .next p) hs hk hstep).1
  have href := hs.ref_pos hk
  obtain ⟨hlock, -⟩ := hs.place p i _ hk
  rw [statement] at hstep
  split at hstep
  · cases hstep
    exact h.goto hs hs' href (at_of_pc_ne hk (by decide)) rfl (not_new hk) (fun h => by cases h)
      (fun _ _ _ _ => .inl ⟨_, rfl, trivial⟩) fun hc => by rcases hc with hc | hc <;> cases hc
  · next hmany =>
    cases hstep
    refine h.goto hs hs' href (at_of_pc_ne hk (by decide)) rfl (not_new hk) (fun h => by cases h)
      (fun _ _ _ _ => .inr ?_) fun hc => by rcases hc with hc | hc <;> cases hc
    rcases Nat.eq_zero_or_pos (s.refs i) with hrefs | hrefs
    · -- another process is in `iput`, and it is not past the lock
      obtain ⟨q, hq, hd⟩ := (hs.slot i).drops_other hrefs hmany (p := p) (by
        rw [hk]
        exact Pc.drops_on.mpr (by decide))
      cases hqk : s.pc q with
      | on k j =>
        rw [hqk] at hd
        obtain ⟨rfl, hd⟩ := hd
        rcases hs.outside (ne_of_lock hlock q hq) hqk with rfl | rfl | rfl
        · exact absurd hd (by decide)
        · exact .inr ⟨q, hq, _, hqk, trivial⟩
        · exact absurd hqk (hapart q)
      | _ =>
        rw [hqk] at hd
        exact hd.elim
    · exact .inl hrefs

theorem kept_iput3 (h : Kept s) (hs : Inv s) (hk : s.pc p = .on .iput3 i)
    (hstep : statement s p i .iput3 = some (s', e)) : Kept s' := by
  have hs' := (inv_statement (a := .next p) hs hk hstep).1
  have href := hs.ref_pos hk
  obtain ⟨-, -, -, -, -, -, hone⟩ := hs.place p i _ hk
  rw [statement] at hstep
  dsimp only at hstep
  rw [set_write_eq_put (v := { s.ip i with copy := itrunc (s.ip i).copy })] at hstep
  cases hstep
  refine h.put hs hs' (at_of_pc hk) rfl (fun y hy => absurd hy ((not_new hk).1 y))
    (not_new hk).2
    (fun j hj hrefj h => hj (hs.one j i hrefj href h)) (.inl rfl) (fun ho => ?_)
    (fun hc => by rcases hc with hc | hc <;> cases hc) fun q hq hqk => ?_
  · refine ho.busy i ⟨?_, ?_⟩ (.inr ⟨p, _, State.put_pc, trivial⟩)
    · rw [State.put_ip]
      exact href
    · rw [State.put_ip]
  · rcases hqk with hqk | hqk
    · exact absurd hqk (hs.alone hk (by decide) hone hq (by decide))
    · exact absurd hqk (hs.alone hk (by decide) hone hq (by decide))

theorem kept_iput4 (h : Kept s) (hs : Inv s) (hk : s.pc p = .on .iput4 i)
    (hstep : statement s p i .iput4 = some (s', e)) : Kept s' := by
  have hs' := (inv_statement (a := .next p) hs hk hstep).1
  have href := hs.ref_pos hk
  obtain ⟨hlock, -, -, -, -, -, hone⟩ := hs.place p i _ hk
  rw [statement] at hstep
  dsimp only at hstep
  rw [set_write_eq_put (v := { s.ip i with copy := { (s.ip i).copy with type := 0 } })] at hstep
  cases hstep
  refine h.put hs hs' (at_of_pc hk) rfl (fun y hy => absurd hy ((not_new hk).1 y))
    (not_new hk).2
    (fun j hj hrefj h => hj (hs.one j i hrefj href h)) (.inl rfl) (fun ho => ho.type ?_)
    (fun hc => by rcases hc with hc | hc <;> cases hc) fun q hq hqk => ?_
  · -- the inode is the one that was written
    have hst : (s.put p (.on .iput5 i) i { s.ip i with copy := { (s.ip i).copy with type := 0 } }
        (s.refs i) { (s.ip i).copy with type := 0 }).Stale i := by
      refine ⟨p, ?_, State.put_pc⟩
      rw [State.put_ip]
      exact hlock
    rw [hs'.inode_of_holds (i := i) ⟨by rw [State.put_ip]; exact href, by rw [State.put_ip]⟩,
      State.content, if_neg fun h => h.2 hst, State.put_ip, State.put_disk]
  · rcases hqk with hqk | hqk
    · exact absurd hqk (hs.alone hk (by decide) hone hq (by decide))
    · exact absurd hqk (hs.alone hk (by decide) hone hq (by decide))

theorem kept_iput5 (h : Kept s) (hs : Inv s) (hk : s.pc p = .on .iput5 i)
    (hstep : statement s p i .iput5 = some (s', e)) : Kept s' := by
  have hs' := (inv_statement (a := .next p) hs hk hstep).1
  have hst : s.Stale i := ⟨p, hs.place p i _ hk, hk⟩
  rw [statement, set_eq_put] at hstep
  cases hstep
  have hdisk : (s.put p (.on .iput6 i) i { s.ip i with valid := false } (s.refs i)
      (s.disk (s.ip i).ino)).disk (s.ip i).ino = s.disk (s.ip i).ino := State.put_disk
  refine h.lock hs hs' (at_of_pc hk) rfl (not_new hk) rfl (hs.ref_pos hk) rfl ?_
    (fun k hk' hw => absurd hw (not_waits hk (fun h : Code.iput5.Waits => h) k hk'))
    (fun hv => absurd hst hv.2) fun hc => by rcases hc with hc | hc <;> cases hc
  rw [content_of_not_valid (by rw [State.put_ip]), State.put_ip, hdisk, State.content,
    if_neg fun h => h.2 hst]

theorem kept_iput6 (h : Kept s) (hs : Inv s) (hk : s.pc p = .on .iput6 i)
    (hstep : statement s p i .iput6 = some (s', e)) : Kept s' := by
  have hs' := (inv_statement (a := .next p) hs hk hstep).1
  obtain ⟨hlock, -⟩ := hs.place p i _ hk
  have hst : ¬s.Stale i := not_stale_of_pc hlock fun h => by
    rw [hk] at h
    cases h
  rw [statement, set_eq_put] at hstep
  cases hstep
  have hst' : ¬(s.put p (.on .iput7 i) i { s.ip i with lock := none } (s.refs i)
      (s.disk (s.ip i).ino)).Stale i := by
    rintro ⟨q, hq, -⟩
    rw [State.put_ip] at hq
    cases hq
  have hdisk : (s.put p (.on .iput7 i) i { s.ip i with lock := none } (s.refs i)
      (s.disk (s.ip i).ino)).disk (s.ip i).ino = s.disk (s.ip i).ino := State.put_disk
  refine h.lock hs hs' (at_of_pc hk) rfl (not_new hk) rfl (hs.ref_pos hk) rfl ?_
    (fun k hk' hw => absurd hw (not_waits hk (fun h : Code.iput6.Waits => h) k hk'))
    (fun hv => ⟨hv.1, hst'⟩) fun hc => by rcases hc with hc | hc <;> cases hc
  rw [content_of_not_stale hst, content_of_not_stale hst', State.put_ip, hdisk]

theorem kept_iput7 (h : Kept s) (hs : Inv s) (hk : s.pc p = .on .iput7 i)
    (hstep : statement s p i .iput7 = some (s', e)) : Kept s' := by
  have hs' := (inv_statement (a := .next p) hs hk hstep).1
  have href := hs.ref_pos hk
  have hat5 : ∀ k j, s.pc p = .on k j → k ≠ .iput5 := fun k j hk' =>
    (at_of_pc_ne hk (by decide) k j hk').2
  have hnot := not_waits hk (fun h : Code.iput7.Waits => h)
  rw [statement, set_eq_put] at hstep
  cases hstep
  have hst := stale_put (c := .user) (v := { s.ip i with ref := (s.ip i).ref - 1 })
    (n := s.refs i) (d := s.disk (s.ip i).ino) hat5 rfl fun h => by cases h
  have hdisk : (s.put p .user i { s.ip i with ref := (s.ip i).ref - 1 } (s.refs i)
      (s.disk (s.ip i).ino)).disk (s.ip i).ino = s.disk (s.ip i).ino := State.put_disk
  have hcontent : (s.put p .user i { s.ip i with ref := (s.ip i).ref - 1 } (s.refs i)
      (s.disk (s.ip i).ino)).content i = s.content i := by
    rw [State.content, State.content, State.put_ip, hdisk]
    simp only [hst]
  have hvalid : (s.ip i).valid = true ∧ ¬s.Stale i → (s.ip i).valid = true ∧
      ¬(s.put p .user i { s.ip i with ref := (s.ip i).ref - 1 } (s.refs i)
        (s.disk (s.ip i).ino)).Stale i := fun hv => ⟨hv.1, fun h => hv.2 (hst.mp h)⟩
  by_cases hone : (s.ip i).ref = 1
  · -- the slot is not in use any more: the inode is the one on the disk
    have hne : ∀ j ≠ i, 0 < (s.ip j).ref → (s.ip j).ino ≠ (s.ip i).ino := fun j hj hrefj h =>
      hj (hs.one j i hrefj href h)
    refine h.put hs hs' (at_of_pc hk) trivial (fun y hy => absurd hy ((not_new hk).1 y))
      (not_new hk).2 hne (.inl rfl)
      (fun ho => ?_) (fun hc => by rcases hc with hc | hc <;> cases hc)
      fun q hq hqk hlinks => hvalid (h.seen q i hqk (hcontent ▸ hlinks))
    have hinode : (s.put p .user i { s.ip i with ref := (s.ip i).ref - 1 } (s.refs i)
        (s.disk (s.ip i).ino)).inode (s.ip i).ino = s.inode (s.ip i).ino := by
      rw [inode_of_not_holds, hdisk, hs.inode_slot href, hs.content_last hk hone]
      rintro j ⟨hrefj, hinoj⟩
      by_cases hji : j = i
      · rw [hji, State.put_ip] at hrefj
        dsimp only at hrefj
        omega
      · rw [State.put_ip_ne hji] at hrefj hinoj
        exact hne j hji hrefj hinoj
    refine h.orphan (s.ip i).ino ⟨hinode ▸ ho.type, hinode ▸ ho.nlink, fun q hq => ?_,
      fun q hq => ?_, fun j hj hb => ?_⟩
    · refine ho.new q ((State.put_pc_ne ?_).trans hq)
      rintro rfl
      exact (not_new hk).1 _ hq
    · refine ho.calm q ((State.put_pc_ne ?_).trans hq)
      rintro rfl
      exact (not_new hk).2 hq
    · obtain rfl : j = i := by
        by_contra hji
        exact hne j hji hj.1 hj.2
      rcases hb with hrefs | ⟨q, k, hqk, hw⟩
      · have hlt := (hs.slot j).drops (p := p) (by rw [hk]; exact Pc.drops_on.mpr (by decide))
        omega
      · by_cases hq : q = p
        · rw [hq] at hqk
          exact hnot k hqk hw
        · refine hs.alone hk (by decide) hone hq ?_ hqk
          cases k with
          | iput0 => exact .inl rfl
          | iput1 | iput2 | iput3 | iput4 => exact .inr (.inl trivial)
          | _ => exact hw.elim
  · refine h.put_same hs hs' (at_of_pc hk) trivial (not_new hk) rfl href ?_ hcontent
      (fun _ hb => busy_put hb id fun k hk' hw => absurd hw (hnot k hk')) hvalid
      fun hc => by rcases hc with hc | hc <;> cases hc
    dsimp only
    omega

theorem kept_statement (h : Kept s) (hs : Inv s) (hk : s.pc p = .on k i)
    (hapart : k = .iput2 → ∀ q, s.pc q ≠ .on .iput7 i)
    (hstep : statement s p i k = some (s', e)) : Kept s' := by
  cases k with
  | iput0 => exact kept_acquiresleep h hs hk (.inr ⟨rfl, rfl⟩) hstep
  | iput1 => exact kept_iput1 h hs hk hstep
  | iput2 => exact kept_iput2 h hs hk (hapart rfl) hstep
  | iput3 => exact kept_iput3 h hs hk hstep
  | iput4 => exact kept_iput4 h hs hk hstep
  | iput5 => exact kept_iput5 h hs hk hstep
  | iput6 => exact kept_iput6 h hs hk hstep
  | iput7 => exact kept_iput7 h hs hk hstep
  | _ => exact kept_ilock h hs hk trivial hstep

end Statements

section OrphanCalls

variable [DecidableEq P] [Fintype P] {s s' : State P} {p q : P} {i j : Slot} {x y : Ino}
  {e : Event P} {c : Pc} {n : ℕ} {d : Dinode} {k : Code} {a : Action P}

omit [Fintype P] in
/-- A step at no slot. -/
theorem Kept.away (h : Kept s) (hip : s'.ip = s.ip) (hrefs : s'.refs = s.refs)
    (hpc : s'.pc = Function.update s.pc p c) (hat : ∀ k j, s.pc p ≠ .on k j)
    (hc : ∀ k j, c ≠ .on k j) (hrun : s.pc p ≠ .panicked)
    (hnew : c = .panicked ∨ ∀ y, s.pc p ≠ .iget y)
    (hinode : ∀ y, c ≠ .iget y → s'.inode y = s.inode y)
    (hdisk : ∀ q j, s.pc q = .on .iput0 j ∨ s.pc q = .on .iput1 j →
      s'.disk (s.ip j).ino = s.disk (s.ip j).ino) : Kept s' := by
  have hon : ∀ {q k j}, s'.pc q = .on k j ↔ s.pc q = .on k j := by
    intro q k j
    rw [hpc]
    by_cases hq : q = p
    · rw [hq, Function.update_self]
      exact iff_of_false (hc k j) (hat k j)
    · rw [Function.update_of_ne hq]
  have hst : ∀ j, s'.Stale j ↔ s.Stale j := fun j => by
    simp only [State.Stale, hip, hon]
  have hp : s'.pc p = c := by rw [hpc, Function.update_self]
  have hne : ∀ {q}, q ≠ p → s'.pc q = s.pc q := fun hq => by
    rw [hpc, Function.update_of_ne hq]
  refine ⟨fun y hy => ?_, fun q j hq hlinks => ?_⟩
  · have hcy : c ≠ .iget y := fun hcy => hy.new p (hp.trans hcy)
    have hcalm : c ≠ .panicked := fun hcp => hy.calm p (hp.trans hcp)
    have hsame := hinode y hcy
    refine h.orphan y ⟨hsame ▸ hy.type, hsame ▸ hy.nlink, fun q hq => ?_, fun q hq => ?_,
      fun j hj hb => hy.busy j ?_ ?_⟩
    · by_cases hqp : q = p
      · rw [hqp] at hq
        exact hnew.elim hcalm fun h => h y hq
      · exact hy.new q ((hne hqp).trans hq)
    · by_cases hqp : q = p
      · rw [hqp] at hq
        exact hrun hq
      · exact hy.calm q ((hne hqp).trans hq)
    · rwa [State.Holds, hip]
    · rw [State.Busy, hrefs]
      rcases hb with hr | ⟨q, k, hq, hw⟩
      · exact .inl hr
      · exact .inr ⟨q, k, hon.mpr hq, hw⟩
  · have hq' : s.pc q = .on .iput0 j ∨ s.pc q = .on .iput1 j := hq.imp hon.mp hon.mp
    have hcontent : s'.content j = s.content j := by
      rw [State.content, State.content, hip, hdisk q j hq']
      simp only [hst]
    rw [hcontent] at hlinks
    rw [hip, hst]
    exact h.seen q j hq' hlinks

theorem kept_grab (h : Kept s) (hs : Inv s) (hs' : Inv (grab s p i).1) (href : 0 < (s.ip i).ref)
    (hat : ∀ k j, s.pc p ≠ .on k j) (hnew : ∀ y, s.pc p = .iget y → y = (s.ip i).ino)
    (hrun : s.pc p ≠ .panicked) : Kept (grab s p i).1 := by
  rw [grab, set_setRefs_eq_put] at hs' ⊢
  have hst := stale_put (c := .user) (v := { s.ip i with ref := (s.ip i).ref + 1 })
    (n := s.refs i + 1) (d := s.disk (s.ip i).ino) (fun k j h => absurd h (hat k j)) rfl
    fun h => by cases h
  have hdisk : (s.put p .user i { s.ip i with ref := (s.ip i).ref + 1 } (s.refs i + 1)
      (s.disk (s.ip i).ino)).disk (s.ip i).ino = s.disk (s.ip i).ino := State.put_disk
  have hcontent : (s.put p .user i { s.ip i with ref := (s.ip i).ref + 1 } (s.refs i + 1)
      (s.disk (s.ip i).ino)).content i = s.content i := by
    rw [State.content, State.content, State.put_ip, hdisk]
    simp only [hst]
  refine h.put hs hs' (fun k j h => absurd h (hat k j)) trivial hnew hrun
    (fun j hj hrefj h => hj (hs.one j i hrefj href h)) (.inl rfl) (fun ho => ho.busy i ⟨?_, ?_⟩ ?_)
    (fun hc => by rcases hc with hc | hc <;> cases hc) fun q _ hq hlinks => ?_
  · rw [State.put_ip]
    exact Nat.succ_pos _
  · rw [State.put_ip]
  · refine .inl ?_
    rw [State.put_refs]
    exact Nat.succ_pos _
  · have hv := h.seen q i hq (hcontent ▸ hlinks)
    exact ⟨hv.1, fun h => hv.2 (hst.mp h)⟩

omit [Fintype P] in
theorem kept_panic (h : Kept s) (hat : ∀ k j, s.pc p ≠ .on k j) (hrun : s.pc p ≠ .panicked)
    (message : String) : Kept (panic s p message).1 := by
  have hc : ∀ k j, Pc.panicked ≠ .on k j := fun k j h => by cases h
  exact h.away rfl rfl rfl hat hc hrun (.inl rfl)
    (fun y _ => congrFun (congrArg Store.inode (goto_store hat hc)) y) fun _ _ _ => rfl

theorem kept_iget (h : Kept s) (hs : Inv s) (hs' : Inv (iget s p x).1)
    (hat : ∀ k j, s.pc p ≠ .on k j) (hnew : ∀ y, s.pc p = .iget y → y = x)
    (hrun : s.pc p ≠ .panicked) : Kept (iget s p x).1 := by
  rw [iget] at hs' ⊢
  cases hfind : Table.find fun i => s.Holds i x with
  | some i =>
    rw [hfind] at hs'
    have hi : s.Holds i x := of_decide_eq_true (Table.find_spec hfind)
    exact kept_grab h hs hs' hi.1 hat (fun y hy => (hnew y hy).trans hi.2.symm) hrun
  | none =>
    rw [hfind] at hs'
    have hnone : ∀ i, ¬s.Holds i x := fun i => of_decide_eq_false (Table.find_eq_none.mp hfind i)
    dsimp only at hs' ⊢
    cases hempty : Table.find fun i => (s.ip i).ref = 0 with
    | none => exact kept_panic h hat hrun _
    | some i =>
      have hzero : (s.ip i).ref = 0 := of_decide_eq_true (Table.find_spec hempty)
      rw [hempty] at hs'
      dsimp only at hs' ⊢
      rw [set_setRefs_eq_put] at hs' ⊢
      refine h.put hs hs' (fun k j h => absurd h (hat k j)) trivial hnew hrun
        (fun j _ hj hx => hnone j ⟨hj, hx⟩) (.inr hzero) (fun ho => ho.busy i ⟨?_, ?_⟩ ?_)
        (fun hc => by rcases hc with hc | hc <;> cases hc) fun q _ hq => ?_
      · rw [State.put_ip]
        exact Nat.one_pos
      · rw [State.put_ip]
      · refine .inl ?_
        rw [State.put_refs]
        exact Nat.one_pos
      · have hpos : 0 < (s.ip i).ref := hq.elim hs.ref_pos hs.ref_pos
        omega

omit [DecidableEq P] [Fintype P] in
theorem new_of_user (hp : s.pc p = .user) : (∀ y, s.pc p ≠ .iget y) ∧ s.pc p ≠ .panicked := by
  rw [hp]
  exact ⟨fun y => by simp, by simp⟩

theorem kept_call (h : Kept s) (hs : Inv s) (hd : Disciplined s a) (hapart : Apart s a)
    (hp : s.pc a.actor = .user) (hstep : call s a = some (s', e)) : Kept s' := by
  have hs' := (inv_call hs hd hp hstep).1
  have hat := away_of_user hp
  obtain ⟨hnew, hrun⟩ := new_of_user hp
  cases a with
  | ialloc p dev type =>
    have hc : ∀ k j, Pc.ialloc dev type 1 ≠ .on k j := fun k j h => by cases h
    have hinode := congrArg Store.inode (goto_store hat hc)
    cases hstep
    exact h.away rfl rfl rfl hat hc hrun (.inr hnew) (fun y _ => congrFun hinode y)
      fun _ _ _ => rfl
  | iget p x =>
    have hfst : (iget s p x).1 = s' := congrArg Prod.fst (Option.some.inj hstep)
    rw [← hfst] at hs' ⊢
    exact kept_iget h hs hs' hat (fun y hy => absurd hy (hnew y)) hrun
  | idup p i =>
    have hfst : (grab s p i).1 = s' := congrArg Prod.fst (Option.some.inj hstep)
    rw [← hfst] at hs' ⊢
    exact kept_grab h hs hs' (Nat.lt_of_lt_of_le hd (hs.slot i).refs_le) hat
      (fun y hy => absurd hy (hnew y)) hrun
  | ilock p i =>
    have href : 0 < (s.ip i).ref := Nat.lt_of_lt_of_le hd (hs.slot i).refs_le
    rw [call, if_neg (by omega)] at hstep
    cases hstep
    exact h.goto hs hs' href (fun k j h => absurd h (hat k j)) rfl ⟨hnew, hrun⟩
      (fun h => by cases h) (fun _ k h => absurd h (hat k i))
      fun hc => by rcases hc with hc | hc <;> cases hc
  | iunlock p i =>
    obtain ⟨hlock, -⟩ := hd
    obtain ⟨hrefs, -, -⟩ := hs.locked hlock hp
    have href : 0 < (s.ip i).ref := hrefs.trans_le (hs.slot i).refs_le
    rw [call, if_neg (fun h => h.elim (fun h => h hlock) (fun h => by omega))] at hstep
    cases hstep
    exact h.goto hs hs' href (fun k j h => absurd h (hat k j)) rfl ⟨hnew, hrun⟩
      (fun h => by cases h) (fun _ k h => absurd h (hat k i))
      fun hc => by rcases hc with hc | hc <;> cases hc
  | change p i d =>
    rw [call] at hstep
    split at hstep
    · next hlock =>
      obtain ⟨hrefs, hvalid, hst⟩ := hs.locked hlock hp
      have href : 0 < (s.ip i).ref := hrefs.trans_le (hs.slot i).refs_le
      rw [set_eq_put] at hstep
      cases hstep
      have hst' := stale_put (c := .user) (v := { s.ip i with copy := d }) (n := s.refs i)
        (d := s.disk (s.ip i).ino) (fun k j h => absurd h (hat k j)) rfl fun h => by cases h
      refine h.put hs hs' (fun k j h => absurd h (hat k j)) trivial (fun y hy => absurd hy (hnew y))
        hrun (fun j hj hrefj h => hj (hs.one j i hrefj href h)) (.inl rfl)
        (fun ho => ho.busy i ⟨?_, ?_⟩ ?_) (fun hc => by rcases hc with hc | hc <;> cases hc)
        fun _ _ _ _ => ⟨hvalid, fun h => hst (hst'.mp h)⟩
      · rw [State.put_ip]
        exact href
      · rw [State.put_ip]
      · refine .inl ?_
        rwa [State.put_refs]
    · contradiction
  | iupdate p i =>
    rw [call] at hstep
    split at hstep
    · next hlock =>
      obtain ⟨hrefs, hvalid, hst⟩ := hs.locked hlock hp
      have href : 0 < (s.ip i).ref := hrefs.trans_le (hs.slot i).refs_le
      rw [write_eq_put] at hstep
      cases hstep
      have hst' := stale_put (p := p) (c := .user) (v := s.ip i) (n := s.refs i)
        (d := (s.ip i).copy) (fun k j h => absurd h (hat k j)) rfl fun h => by cases h
      refine h.lock hs hs' (fun k j h => absurd h (hat k j)) trivial ⟨hnew, hrun⟩ rfl href rfl ?_
        (fun k hk => absurd hk (hat k i)) (fun hv => ⟨hv.1, fun h => hv.2 (hst'.mp h)⟩)
        fun hc => by rcases hc with hc | hc <;> cases hc
      rw [content_of_not_stale hst, content_of_not_stale (fun h => hst (hst'.mp h)), State.put_ip,
        if_pos hvalid, if_pos hvalid]
    · contradiction
  | iput p i =>
    have href : 0 < (s.ip i).ref := Nat.lt_of_lt_of_le hd.1 (hs.slot i).refs_le
    rw [call, setRefs_eq_put] at hstep
    cases hstep
    have hst := stale_put (p := p) (c := .on .iput0 i) (v := s.ip i) (n := s.refs i - 1)
      (d := s.disk (s.ip i).ino) (fun k j h => absurd h (hat k j)) rfl fun h => by cases h
    have hdisk : (s.put p (.on .iput0 i) i (s.ip i) (s.refs i - 1)
        (s.disk (s.ip i).ino)).disk (s.ip i).ino = s.disk (s.ip i).ino := State.put_disk
    refine h.put_same hs hs' (fun k j h => absurd h (hat k j)) rfl ⟨hnew, hrun⟩ rfl href href ?_
      (fun _ _ => .inr ⟨p, _, State.put_pc, trivial⟩)
      (fun hv => ⟨hv.1, fun h => hv.2 (hst.mp h)⟩) fun _ => hapart
    rw [State.content, State.content, State.put_ip, hdisk]
    simp only [hst]
  | next p => cases hstep

theorem kept_step {ninodes : ℕ} (h : Kept s) (hs : Inv s) (hd : Disciplined s a)
    (hapart : Apart s a) (hstep : step ninodes s a = some (s', e)) : Kept s' := by
  cases a with
  | next p =>
    change next ninodes s p (s.pc p) = _ at hstep
    have hs' := (inv_step (a := .next p) hs trivial (show step ninodes s (.next p) = _ from hstep)).1
    cases hp : s.pc p with
    | user | panicked => rw [hp] at hstep; cases hstep
    | ialloc dev type inum =>
      rw [hp, next] at hstep
      have hat : ∀ k j, s.pc p ≠ .on k j := fun k j => by simp [hp]
      have hrun : s.pc p ≠ .panicked := by simp [hp]
      have hnew : ∀ y, s.pc p ≠ .iget y := fun y => by simp [hp]
      split at hstep
      · split at hstep
        · next hfree =>
          cases hstep
          have hat' : ∀ k j, (s.write ⟨dev, .ofNat inum⟩ (.blank type 0)).pc p ≠ .on k j := hat
          have hc : ∀ k j, Pc.iget ⟨dev, .ofNat inum⟩ ≠ .on k j := fun k j h => by cases h
          have hstore := (hs.write_free (d := .blank type 0) hfree (hs.typed p _ _ _ hp) rfl).2.2.1
          rw [← goto_store hat' hc] at hstore
          refine h.away rfl rfl rfl hat hc hrun (.inr hnew) (fun y hy => ?_) fun q j hq => ?_
          · have hinode := congrFun (congrArg Store.inode hstore) y
            refine hinode.trans (Function.update_of_ne ?_ _ _)
            rintro rfl
            exact hy rfl
          · refine Function.update_of_ne (fun hx => ?_) _ _
            have htype : (s.disk (s.ip j).ino).type ≠ 0 := by
              rcases hq with hq | hq
              · exact hs.place q j _ hq
              · exact (hs.place q j _ hq).2.1
            rw [hx] at htype
            exact htype hfree
        · cases hstep
          have hc : ∀ k j, Pc.ialloc dev type (inum + 1) ≠ .on k j := fun k j h => by cases h
          exact h.away rfl rfl rfl hat hc hrun (.inr hnew)
            (fun y _ => congrFun (congrArg Store.inode (goto_store hat hc)) y) fun _ _ _ => rfl
      · cases hstep
        exact kept_panic h hat hrun "ialloc: no inodes"
    | iget x =>
      rw [hp, next] at hstep
      have hfst : (iget s p x).1 = s' := congrArg Prod.fst (Option.some.inj hstep)
      rw [← hfst] at hs' ⊢
      refine kept_iget h hs hs' (fun k j => by simp [hp]) (fun y hy => ?_) (by simp [hp])
      rw [hp] at hy
      cases hy
      rfl
    | on k i =>
      rw [hp] at hstep
      refine kept_statement h hs hp (fun hk q => hapart i ?_ q) hstep
      rw [State.Tests, hp, hk]
  | _ =>
    dsimp only [step] at hstep
    split at hstep
    · next hp => exact kept_call h hs hd hapart hp hstep
    · contradiction

/-- **An inode without links is freed when the last reference to it is dropped**, if the processes
keep apart: when no process is in any of the functions, every inode that is allocated on the disk
is linked or referred to. -/
theorem no_orphans {ninodes : ℕ} {disk : Ino → Dinode} {as : List (Action P)} {s : State P}
    {es : List (Event P)} (hdisk : ∀ x, (disk x).type ≠ 0 → (disk x).nlink ≠ 0)
    (h : run (step ninodes) (boot disk) as = some (s, es))
    (hd : AlongRun (step ninodes) (fun s a => Disciplined s a ∧ Apart s a) (boot disk) as)
    (hquiet : ∀ p, s.pc p = .user) {x : Ino} (hrefs : ∀ i, (s.ip i).ino = x → s.refs i = 0) :
    (s.disk x).type = 0 ∨ (s.disk x).nlink ≠ 0 := by
  have hboot : Kept (boot disk : State P) := by
    refine ⟨fun x hx => ?_, fun p i hp => by rcases hp with hp | hp <;> cases hp⟩
    have hinode : (boot disk : State P).inode x = disk x :=
      inode_of_not_holds fun i hi => Nat.lt_irrefl 0 hi.1
    exact hdisk x (hinode ▸ hx.type) (hinode ▸ hx.nlink)
  obtain ⟨hs, hkept⟩ : Inv s ∧ Kept s := run_invariant (fun s : State P => Inv s ∧ Kept s)
    (fun s a r hs hda hr => ⟨(inv_step hs.1 hda.1 hr).1, kept_step hs.2 hs.1 hda.1 hda.2 hr⟩)
    as (boot disk) (s, es) ⟨inv_boot disk, hboot⟩ hd h
  have hnone : ∀ i, ¬s.Holds i x := fun i hi => by
    have hcount := (hs.slot i).count
    have hzero : (∑ p, if (s.pc p).Drops i then 1 else 0) = 0 :=
      Finset.sum_eq_zero fun p _ => if_neg (not_drops_of_user (hquiet p))
    have hr := hrefs i hi.2
    have hpos := hi.1
    omega
  have hinode := inode_of_not_holds hnone
  by_contra hx
  simp only [not_or, not_not] at hx
  refine hkept.orphan x ⟨?_, ?_, fun p => (new_of_user (hquiet p)).1 x,
    fun p => (new_of_user (hquiet p)).2, fun i hi => absurd hi (hnone i)⟩
  · rw [hinode]
    exact hx.1
  · rw [hinode]
    exact hx.2

instance (s : State P) : ∀ a, Decidable (Apart s a)
  | .iput _ i => inferInstanceAs (Decidable
      ((s.content i).nlink = 0 → (s.ip i).valid = true ∧ ¬s.Stale i))
  | .next p => inferInstanceAs (Decidable (∀ i, s.pc p = .on .iput2 i → ∀ q, s.pc q ≠ .on .iput7 i))
  | .ialloc _ _ _ | .iget _ _ | .idup _ _ | .ilock _ _ | .change _ _ _ | .iupdate _ _
  | .iunlock _ _ => inferInstanceAs (Decidable True)

/-- The two processes drop their references one after the other. -/
def inTurn : List (Action Bool) :=
  unlinked ++ .iput false 0 :: List.replicate 5 (.next false) ++
    .iput true 0 :: List.replicate 8 (.next true)

theorem no_orphans_inTurn : ∃ s es, run (step 10) (boot oneFile) inTurn = some (s, es) ∧
    ((s.disk ⟨1, 1⟩).type = 0 ∨ (s.disk ⟨1, 1⟩).nlink ≠ 0) := by
  obtain ⟨s, es, hrun, hquiet, hrefs⟩ : ∃ s es, run (step 10) (boot oneFile) inTurn = some (s, es) ∧
      (∀ p, s.pc p = .user) ∧ ∀ i, (s.ip i).ino = ⟨1, 1⟩ → s.refs i = 0 :=
    ⟨_, _, rfl, by decide, by decide⟩
  refine ⟨s, es, hrun, no_orphans (fun x hx => ?_) hrun (by decide) hquiet hrefs⟩
  rw [oneFile] at hx ⊢
  split at hx
  · next h => rw [if_pos h]; decide
  · exact absurd rfl hx

/-- The two processes have their turns in `iput` at the same time: each of them sees the reference
of the other one, and the inode is not freed. -/
def overlapping : List (Action Bool) :=
  unlinked ++ [.iput false 0, .next false, .next false, .next false, .next false, .iput true 0,
    .next true, .next true, .next true, .next true, .next true, .next false]

/-- Without keeping apart, inodes are lost. -/
theorem not_no_orphans : ∃ s es, run (step 10) (boot oneFile) overlapping = some (s, es) ∧
    AlongRun (step 10) Disciplined (boot oneFile) overlapping ∧ (∀ p, s.pc p = .user) ∧
    (∀ i, s.refs i = 0) ∧ (s.disk ⟨1, 1⟩).type ≠ 0 ∧ (s.disk ⟨1, 1⟩).nlink = 0 :=
  ⟨_, _, rfl, by decide, by decide, by decide, by decide, by decide⟩

end OrphanCalls

end IcacheShared
end Xv6

import Xv6.Console.Read

/-!
# The console with completion

`B22ES019/autocomplete/console.c`: the stock line discipline, in which TAB
completes the word before the cursor to the first command it is a prefix of.  The
completion appends to the ring with neither of the two things the default case of
the switch does: it does not ask whether the ring has room, and it does not
commit a ring it fills.

The scan for the word runs past the start of `input.buf`; what it reads there is given by
a `Memory`, about which nothing is assumed.  A write outside its array leaves a step
undefined.

## Main results

* `autocomplete_eq` — what a completion does, in terms of the unread text.
* `autocomplete_ok_iff` — a completion keeps the index invariant exactly when it `Fits`.
* `ok_of_tabsFit` — **the invariant in every state that runs whose completions fit
  reach.**
-/

namespace Xv6
namespace Console
namespace Autocomplete

open Counter

/-! ### The code -/

/-- `commands`. -/
def commands : List (List UInt8) :=
  ["cat", "echo", "forktest", "grep", "init",
    "kill", "ln", "ls", "mkdir", "rm", "sh",
    "stressfs", "usertests", "wc", "zombie", "console"].map str

/-- What is read in front of `input.buf`. -/
abbrev Memory := Input → ℤ → UInt8

/-- `input.buf[i % INPUT_BUF]` for an `i` of type `int`, given by its bits: the remainder of
a negative number is not positive, and in the array only if zero. -/
def charAt (m : Memory) (g : Input) (i : UInt32) : UInt8 :=
  if i < 0x80000000 ∨ i % 128 = 0 then g.get i else m g (i.toInt32.toInt.tmod 128)

/-- The scan for the start of the word, for at most `n` tests of its condition.  The
comparison `start >= input.r` is one of unsigned numbers. -/
def scanWord (m : Memory) (g : Input) : ℕ → UInt32 → Option UInt32
  | 0, _ => none
  | n + 1, start =>
      if g.r ≤ start ∧ charAt m g start ≠ 0x20 then scanWord m g n (start - 1) else some start

/-- The first command that `strncmp` finds to agree with the word. -/
def match? (word : List UInt8) : Option (List UInt8) :=
  commands.find? fun m => strncmp word m word.length == 0

/-- The loop that types the rest of the command. -/
def append (g : Input) : List UInt8 → Input × List Out
  | [] => (g, [])
  | c :: cs =>
      let p := append (g.put c) cs
      (p.1, .putc c.toNat :: p.2)

/-- `autocomplete`.  The word and its NUL are copied to an array of `INPUT_BUF` bytes.  A
scan that passes zero meets the same 128 bytes again and again. -/
def autocomplete (m : Memory) (g : Input) : Option (Input × List Out) :=
  (scanWord m g (dist g.r g.e + 128) (g.e - 1)).bind fun stop =>
    let start := stop + 1
    let wordLen := dist start g.e
    if wordLen < 128 then
      match match? (segment (charAt m g) start wordLen) with
      | some found => some (append g (found.drop wordLen))
      | none => some (g, [])
    else none

/-- The switch of `consoleintr`: the ring, the output, and whether a process listing
is asked for. -/
def code (m : Memory) (g : Input) (c : ℕ) : Option (Input × List Out × Bool) :=
  if c = 0x10 then some (g, [], true)                                  -- C('P')
  else if c = 0x15 then some ((killLine g).1, (killLine g).2, false)   -- C('U')
  else if c = 0x7F then some ((backspace g).1, (backspace g).2, false)
  else if c = 0x09 then (autocomplete m g).map fun p => (p.1, p.2, false)
  else if c = 0x08 then some ((backspace g).1, (backspace g).2, false)
  else some ((insert g c).1, (insert g c).2, false)

/-- `consoleintr`, on the codes `getc` returns before its first negative value. -/
def consoleintr (m : Memory) (g : Input) (_ : Unit) (cs : List ℕ) :
    Option (Input × Unit × List Out) :=
  (Machine.run (code m) g cs).map fun p =>
    (p.1, (), p.2.flatMap Prod.fst ++ if p.2.any Prod.snd then [.procdump] else [])

/-! ### The word before the cursor -/

/-- How many bytes in front of the cursor the scan may test: the unread text, none of it
once `e` has wrapped around and `r` has not.  While `r` is zero no counter is below it, and
the scan may go on in front of the array. -/
def reach (g : Input) : ℕ :=
  if g.r = 0 then dist g.r g.e + 128
  else if g.e < g.r ∧ g.e ≠ 0 then 0
  else dist g.r g.e

/-- The word before the cursor: what follows the last blank in reach of the scan. -/
def word (m : Memory) (g : Input) : List UInt8 :=
  (segment (charAt m g) (g.e - UInt32.ofNat (reach g)) (reach g)).rtakeWhile (· ≠ 0x20)

/-- **A completion fits.**  It adds nothing, or the ring has room for what it adds
and one byte more. -/
def Fits (m : Memory) (g : Input) : Prop :=
  ∀ found ∈ match? (word m g), found.length ≤ (word m g).length ∨
    dist g.r g.e + (found.length - (word m g).length) < 128

instance (m : Memory) (g : Input) : Decidable (Fits m g) :=
  inferInstanceAs (Decidable (∀ found ∈ _, _ ∨ _))

/-- The scan over the `d` bytes from `a` on, started at the last of them, stops before
their last word: it runs out of tests, or `a` is the first counter that is not below `r`. -/
theorem scanWord_eq_some {m : Memory} {g : Input} {a : UInt32} : ∀ (d n : ℕ) {stop : UInt32},
    (∀ k < d, g.r ≤ a + UInt32.ofNat k) → n ≤ d ∨ a - 1 < g.r →
      scanWord m g n (a + UInt32.ofNat d - 1) = some stop →
        ∃ k ≤ d, stop + 1 = a + UInt32.ofNat k ∧ segment (charAt m g) (stop + 1) (d - k) =
          (segment (charAt m g) a d).rtakeWhile (· ≠ 0x20) := by
  intro d
  induction d with
  | zero =>
    intro n stop _ hend h
    cases n with
    | zero => contradiction
    | succ n =>
      have hstart : a + UInt32.ofNat 0 - 1 = a - 1 := congrArg (· - 1) (UInt32.add_zero a)
      have hbelow : a - 1 < g.r := hend.resolve_left (by omega)
      rw [hstart, scanWord, if_neg fun hc => UInt32.not_le.mpr hbelow hc.1] at h
      rw [← Option.some.inj h, UInt32.sub_add_cancel]
      exact ⟨0, le_rfl, (UInt32.add_zero a).symm, by simp⟩
  | succ d ih =>
    intro n stop hle hend h
    have hstart : a + UInt32.ofNat (d + 1) - 1 = a + UInt32.ofNat d := by
      rw [UInt32.ofNat_add, ← UInt32.add_assoc]
      exact UInt32.add_sub_cancel _ _
    rw [hstart] at h
    cases n with
    | zero => contradiction
    | succ n =>
      rw [scanWord] at h
      rw [segment_succ]
      split at h
      · next hc =>
        obtain ⟨k, hk, hstop, hseg⟩ :=
          ih n (fun k hk => hle k (by omega)) (hend.imp_left (by omega)) h
        refine ⟨k, by omega, hstop, ?_⟩
        rw [List.rtakeWhile_concat_pos _ _ _ (by simpa using hc.2), ← hseg,
          show d + 1 - k = d - k + 1 by omega, segment_succ, hstop, UInt32.add_assoc,
          ← UInt32.ofNat_add, show k + (d - k) = d by omega]
      · next hc =>
        have hblank : charAt m g (a + UInt32.ofNat d) = 0x20 :=
          not_not.mp fun hb => hc ⟨hle d (by omega), hb⟩
        refine ⟨d + 1, le_rfl, ?_, ?_⟩
        · rw [← Option.some.inj h, ← hstart, UInt32.sub_add_cancel]
        · rw [List.rtakeWhile_concat_neg _ _ _ (by simp [hblank]), Nat.sub_self, segment_zero]

/-- The bytes in reach are the ones the scan tests: the counters of all are at or above `r`,
and the one before them is not, unless the scan runs out of tests there. -/
theorem reach_spec (g : Input) :
    (∀ k < reach g, g.r ≤ g.e - UInt32.ofNat (reach g) + UInt32.ofNat k) ∧
      (dist g.r g.e + 128 ≤ reach g ∨ g.e - UInt32.ofNat (reach g) - 1 < g.r) := by
  have hlt := UInt32.toNat_lt g.r
  have hlt' := UInt32.toNat_lt g.e
  have hone : (1 : UInt32).toNat = 1 := rfl
  have hzero : (0 : UInt32).toNat = 0 := rfl
  unfold reach
  split_ifs with hr hwrap
  · refine ⟨fun k _ => ?_, .inl le_rfl⟩
    rw [hr]
    exact UInt32.le_iff_toNat_le.mpr (Nat.zero_le _)
  · refine ⟨fun k hk => by omega, .inr ?_⟩
    have he : g.e - UInt32.ofNat 0 = g.e := UInt32.sub_zero g.e
    have hpos : g.e.toNat ≠ 0 := fun h => hwrap.2 (UInt32.toNat_inj.mp h)
    have hbelow := UInt32.lt_iff_toNat_lt.mp hwrap.1
    rw [he, UInt32.lt_iff_toNat_lt, UInt32.toNat_sub]
    omega
  · have hpos : g.r.toNat ≠ 0 := fun h => hr (UInt32.toNat_inj.mp h)
    have hstart : g.e - UInt32.ofNat (dist g.r g.e) = g.r := by
      rw [← add_dist g.r g.e, Counter.dist_add_ofNat _ (dist_lt _ _)]
      exact UInt32.add_sub_cancel _ _
    have hnum : g.r.toNat + dist g.r g.e ≤ 2 ^ 32 := by
      rw [dist_eq]
      rcases not_and_or.mp hwrap with hge | he
      · have hle := UInt32.le_iff_toNat_le.mp (UInt32.not_lt.mp hge)
        omega
      · have he0 : g.e.toNat = 0 := by rw [not_not.mp he, hzero]
        omega
    rw [hstart]
    refine ⟨fun k hk => ?_, .inr ?_⟩
    · rw [UInt32.le_iff_toNat_le, UInt32.toNat_add, UInt32.toNat_ofNat']
      omega
    · rw [UInt32.lt_iff_toNat_lt, UInt32.toNat_sub]
      omega

/-- The scan started before the cursor finds the word. -/
theorem scanWord_word {m : Memory} {g : Input} (h : g.Bounds) {stop : UInt32}
    (hstop : scanWord m g (dist g.r g.e + 128) (g.e - 1) = some stop) :
    dist (stop + 1) g.e = (word m g).length ∧
      segment (charAt m g) (stop + 1) (word m g).length = word m g := by
  have hreach : reach g < 2 ^ 32 := by
    have hmax := h.e_le
    unfold reach
    split_ifs <;> omega
  obtain ⟨hle, hend⟩ := reach_spec g
  rw [word]
  generalize ha : g.e - UInt32.ofNat (reach g) = a at hle hend ⊢
  have hcursor : a + UInt32.ofNat (reach g) = g.e := by rw [← ha, UInt32.sub_add_cancel]
  have hstart : a + UInt32.ofNat (reach g) - 1 = g.e - 1 := congrArg (· - 1) hcursor
  rw [← hstart] at hstop
  obtain ⟨k, hk, hk', hseg⟩ := scanWord_eq_some _ _ hle hend hstop
  have hlen : ((segment (charAt m g) a (reach g)).rtakeWhile (· ≠ 0x20)).length = reach g - k := by
    rw [← hseg, length_segment]
  have hstopped : dist a (stop + 1) = k := by rw [hk', dist_add_ofNat a (by omega)]
  have hend : dist a g.e = reach g := by rw [← hcursor, dist_add_ofNat a hreach]
  rw [hlen, dist_of_le (a := a) (by omega), hend, hstopped]
  exact ⟨rfl, hseg⟩

/-- **What a completion does**, where it is defined: it types the rest of the first
command that starts with the word. -/
theorem autocomplete_eq {m : Memory} {g : Input} (h : g.Bounds) {p : Input × List Out}
    (hp : autocomplete m g = some p) :
    p = match match? (word m g) with
      | some found => append g (found.drop (word m g).length)
      | none => (g, []) := by
  obtain ⟨stop, hstop, hp⟩ := Option.bind_eq_some_iff.mp hp
  obtain ⟨hlen, hseg⟩ := scanWord_word h hstop
  dsimp only at hp
  rw [hlen, hseg] at hp
  split at hp
  · cases hfound : match? (word m g) with
    | none => rw [hfound] at hp; exact (Option.some.inj hp).symm
    | some found => rw [hfound] at hp; exact (Option.some.inj hp).symm
  · contradiction

/-! ### The index invariant -/

theorem grown_append : ∀ (cs : List UInt8) (g : Input), Input.Grown g (append g cs).1 := by
  intro cs
  induction cs with
  | nil => intro g; exact .refl g
  | cons c cs ih => intro g; exact (ih (g.put c)).of_put

theorem dist_append : ∀ (cs : List UInt8) (g : Input), dist g.r g.e + cs.length < 2 ^ 32 →
    dist (append g cs).1.r (append g cs).1.e = dist g.r g.e + cs.length := by
  intro cs
  induction cs with
  | nil => intro g _; rfl
  | cons c cs ih =>
    intro g hlt
    rw [List.length_cons] at hlt
    have hput : dist (g.put c).r (g.put c).e = dist g.r g.e + 1 := by
      rw [Input.put_r, Input.put_e, dist_succ_right (by omega)]
    show dist (append (g.put c) cs).1.r (append (g.put c) cs).1.e = _
    rw [ih (g.put c) (by omega), hput, List.length_cons]
    omega

theorem queue_append : ∀ (cs : List UInt8) {g : Input}, g.Bounds →
    dist g.r g.e + cs.length ≤ 128 → (append g cs).1.queue = g.queue := by
  intro cs
  induction cs with
  | nil => intro g _ _; rfl
  | cons c cs ih =>
    intro g h hle
    rw [List.length_cons] at hle
    have hput := Input.dist_put (g := g) (c := c) (by omega)
    exact (ih (h.put (by omega) c) (by omega)).trans (Input.queue_put h (by omega) c)

/-- Typing `cs` keeps the invariant exactly when there is nothing to type, or the
ring does not get full: nothing commits a ring that does. -/
theorem append_ok_iff {g : Input} (h : g.Ok) {cs : List UInt8} (hlen : cs.length < 128) :
    (append g cs).1.Ok ↔ cs = [] ∨ dist g.r g.e + cs.length < 128 := by
  have hmax := h.e_le
  have hdist := dist_append cs g (by omega)
  rcases eq_or_ne cs [] with rfl | hne
  · exact iff_of_true h (.inl rfl)
  · have hpos : 0 < cs.length := List.length_pos_iff.mpr hne
    rw [or_iff_right hne, ← hdist]
    rcases Nat.lt_or_ge (dist g.r g.e) 128 with hlt | hge
    · exact h.grow_iff hlt (grown_append cs g) (by omega)
    · refine iff_of_false (fun hok => ?_) (by omega)
      have := hok.e_le
      omega

/-- **A completion keeps the index invariant exactly when it fits.** -/
theorem autocomplete_ok_iff {m : Memory} {g : Input} (h : g.Ok) {p : Input × List Out}
    (hp : autocomplete m g = some p) : p.1.Ok ↔ Fits m g := by
  rw [autocomplete_eq h.toBounds hp, Fits]
  cases hfound : match? (word m g) with
  | none => simpa using h
  | some found =>
    have hshort : ∀ found ∈ commands, found.length < 128 := by decide
    have hlen : (found.drop (word m g).length).length < 128 := by
      have := hshort found (List.mem_of_find?_eq_some hfound)
      rw [List.length_drop]
      omega
    simp only [Option.mem_some_iff, forall_eq']
    rw [append_ok_iff h hlen, List.drop_eq_nil_iff, List.length_drop]

theorem queue_autocomplete {m : Memory} {g : Input} (h : g.Ok) {p : Input × List Out}
    (hp : autocomplete m g = some p) (hfit : Fits m g) : p.1.queue = g.queue := by
  rw [autocomplete_eq h.toBounds hp]
  cases hfound : match? (word m g) with
  | none => rfl
  | some found =>
    refine queue_append _ h.toBounds ?_
    have hle := h.e_le
    have := hfit found hfound
    rw [List.length_drop]
    omega

/-! ### Interrupts and runs -/

/-- A code that is not a TAB, or a TAB whose completion fits. -/
def CodeFits (m : Memory) (g : Input) (c : ℕ) : Prop := c = 0x09 → Fits m g

instance (m : Memory) (g : Input) (c : ℕ) : Decidable (CodeFits m g c) :=
  inferInstanceAs (Decidable (_ → _))

/-- A code that fits keeps the invariant and the committed bytes. -/
theorem ok_code {m : Memory} {g : Input} {c : ℕ} {p : Input × List Out × Bool} (h : g.Ok)
    (hfit : CodeFits m g c) (hp : code m g c = some p) : p.1.Ok ∧ g.queue <+: p.1.queue := by
  unfold code at hp
  split at hp
  · cases hp; exact ⟨h, List.prefix_rfl⟩
  · split at hp
    · cases hp; exact ⟨ok_killLine h, by rw [queue_killLine]⟩
    · split at hp
      · cases hp; exact ⟨ok_backspace h, by rw [queue_backspace]⟩
      · split at hp
        · next htab =>
          obtain ⟨q, hq, rfl⟩ := Option.map_eq_some_iff.mp hp
          exact ⟨(autocomplete_ok_iff h hq).mpr (hfit htab),
            by rw [queue_autocomplete h hq (hfit htab)]⟩
        · split at hp
          · cases hp; exact ⟨ok_backspace h, by rw [queue_backspace]⟩
          · cases hp; exact ⟨ok_insert h c, queue_prefix_insert h.toBounds c⟩

/-- **The TABs of an interrupt fit.**  No condition on the other events. -/
def TabsFit (m : Memory) (s : Sys Unit) : Event → Prop
  | .intr cs => Machine.AlongRun (code m) (CodeFits m) s.input cs
  | _ => True

instance (m : Memory) (s : Sys Unit) : ∀ ev, Decidable (TabsFit m s ev)
  | .intr _ => Machine.decidableAlongRun _ _ _ _
  | .call _ _ => inferInstanceAs (Decidable True)
  | .pass _ _ => inferInstanceAs (Decidable True)

/-- An interrupt whose TABs fit keeps the invariant and the committed bytes. -/
theorem ok_consoleintr {m : Memory} {g : Input} {cs : List ℕ} {q : Input × Unit × List Out}
    (h : g.Ok) (hfit : Machine.AlongRun (code m) (CodeFits m) g cs)
    (hq : consoleintr m g () cs = some q) : q.1.Ok ∧ g.queue <+: q.1.queue := by
  obtain ⟨r, hr, rfl⟩ := Option.map_eq_some_iff.mp hq
  refine Machine.run_invariant (fun g' => g'.Ok ∧ g.queue <+: g'.queue)
    (P := CodeFits m) ?_ cs g r ⟨h, List.prefix_rfl⟩ hfit hr
  intro g' c p hg' hc hp
  obtain ⟨hok, hpre⟩ := ok_code hg'.1 hc hp
  exact ⟨hok, hg'.2.trans hpre⟩

/-- **Every state that a run whose completions fit reaches.**  The indices are in
order and a full ring is committed, so that the reader can drain it; and a further
interrupt whose completions fit overwrites no committed byte. -/
theorem ok_of_tabsFit (m : Memory) (events : List Event) (r : Sys Unit × List Answer)
    (hfit : Machine.AlongRun (Sys.step (consoleintr m)) (TabsFit m) (Sys.boot ()) events)
    (hr : Machine.run (Sys.step (consoleintr m)) (Sys.boot ()) events = some r) :
    r.1.input.Ok ∧ (dist r.1.input.r r.1.input.e = 128 → r.1.input.r ≠ r.1.input.w) ∧
      ∀ cs q, Machine.AlongRun (code m) (CodeFits m) r.1.input cs →
        consoleintr m r.1.input () cs = some q → r.1.input.queue <+: q.1.queue := by
  have hok : r.1.input.Ok := by
    refine Machine.run_invariant (fun s => s.input.Ok) ?_ events _ r Input.ok_boot hfit hr
    intro s ev p hs hev hp
    refine ok_step hs (fun cs q hcs hq => ?_) hp
    subst hcs
    exact (ok_consoleintr hs hev hq).1
  exact ⟨hok, hok.r_ne_w, fun cs q hcs hq => (ok_consoleintr hok hcs hq).2⟩

/-- A memory of blanks. -/
def Memory.blank : Memory := fun _ _ => 0x20

/-- The rule where `ls` is completed on the first line and on the second, by two processes
reading. -/
theorem ok_of_ls_tab :
    ∃ r, Machine.run (Sys.step (consoleintr Memory.blank)) (Sys.boot ())
        [.intr [0x6C, 0x73, 0x09, 0x0D], .call 0 2, .call 1 9, .pass 0 false, .intr [0x6C],
          .pass 1 false, .intr [0x73, 0x20, 0x67, 0x09, 0x04]] = some r ∧ r.1.input.Ok :=
  ⟨_, (Option.some_get (by decide +kernel)).symm,
    (ok_of_tabsFit Memory.blank _ _ (by decide +kernel)
      (Option.some_get (by decide +kernel)).symm).1⟩

/-- After 124 letters, a blank and an `f`, TAB types `orktest`: 133 unread bytes
stand in a ring of 128. -/
theorem not_ok_of_forktest :
    ∃ r, Machine.run (Sys.step (consoleintr Memory.blank)) (Sys.boot ())
        [.intr (List.replicate 124 0x78 ++ [0x20, 0x66, 0x09])] = some r ∧
      dist r.1.input.r r.1.input.e = 133 ∧ ¬ r.1.input.Ok := by
  have hrun : (Machine.run (Sys.step (consoleintr Memory.blank)) (Sys.boot ())
      [.intr (List.replicate 124 0x78 ++ [0x20, 0x66, 0x09])]).map
        (fun r : Sys Unit × List Answer => dist r.1.input.r r.1.input.e) = some 133 := by
    decide +kernel
  obtain ⟨r, hr, hdist⟩ := Option.map_eq_some_iff.mp hrun
  refine ⟨r, hr, hdist, fun hok => ?_⟩
  have := hok.e_le
  omega

end Autocomplete
end Console
end Xv6

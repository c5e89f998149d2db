import Xv6.Console.HelpfulTyping

/-!
# The record of an encrypted line

While encryption is on, every code is kept in `previous_line`, which also holds the line
before, and the newline prints what is there as a string.  A modifier key gives the code zero,
which ends that string; and nothing ends it behind the newline, so that what is left of a
longer line is printed with it.

## Main results

* `encrypt_run` — the record after any run of encrypted codes.
* `printsRecord_iff` — **when the newline prints what was typed.**
-/

namespace Xv6
namespace Console
namespace Helpful

variable {m : Memory} {g : Input} {v : Vars}

/-! ### Encrypted codes -/

/-- An encrypted code is recorded. -/
theorem code_encrypted {s : State} (c : UInt8) (h : s.vars.trackEnigma < 128) :
    code m s (1000 + c.toNat) = some ({ s with
      vars := { s.vars with
        previousLine := s.vars.previousLine.set s.vars.trackEnigma c
        trackEnigma := s.vars.trackEnigma + 1 }
      flags := { s.flags with isEncrypt := true, c_ := c.toNat } }, []) := by
  have hlt := UInt8.toNat_lt c
  rw [code, if_pos (by omega), dif_pos h, Nat.add_sub_cancel_left, UInt8.ofNat_toNat]

/-- An interrupt with an encrypted code. -/
theorem consoleintr_encrypted (c : UInt8) (h : v.trackEnigma < 128) :
    consoleintr m g v [1000 + c.toNat] =
      some (g, encrypt m g { v with
        previousLine := v.previousLine.set v.trackEnigma c
        trackEnigma := v.trackEnigma + 1 } c.toNat) := by
  have hcode := code_encrypted (m := m) (s := ⟨g, v, {}⟩) c h
  rw [consoleintr, Machine.run, hcode]
  simp [deferred]

/-- A character other than the newline moves the rotors at most. -/
theorem encrypt_frame {c : ℕ} (hc : c ≠ 0x0A) :
    (encrypt m g v c).1.previousLine = v.previousLine ∧
      (encrypt m g v c).1.trackEnigma = v.trackEnigma := by
  unfold encrypt
  rw [if_neg hc]
  split <;> exact ⟨rfl, rfl⟩

/-- **The record after encrypted codes**, one in each interrupt, while readers come and go: the
characters lie over what was there. -/
theorem encrypt_run : ∀ (events : List Event) (cs : List UInt8) {s : Sys Vars}
    {r : Sys Vars × List Answer}, 0x0A ∉ cs → s.dev.trackEnigma + cs.length ≤ 128 →
      (events.map Event.codes).filter (· ≠ []) = cs.map (fun c => [1000 + c.toNat]) →
        Machine.run (Sys.step (consoleintr m)) s events = some r →
          r.1.dev.trackEnigma = s.dev.trackEnigma + cs.length ∧
            r.1.dev.previousLine.toList = overlay s.dev.previousLine s.dev.trackEnigma cs := by
  intro events
  induction events with
  | nil =>
    intro cs s r _ _ hcodes hr
    cases hr
    obtain rfl : cs = [] := by simpa using hcodes
    exact ⟨rfl, (overlay_nil _ _).symm⟩
  | cons ev events ih =>
    intro cs s r hnl hlen hcodes hr
    obtain ⟨p, q, hp, hq, rfl⟩ := Machine.run_cons_eq_some.mp hr
    rw [List.map_cons] at hcodes
    by_cases hquiet : ev.codes = []
    · -- a reader comes or goes
      rw [List.filter_cons_of_neg (by simpa using hquiet)] at hcodes
      obtain ⟨hdev, -⟩ := quiet_step hquiet hp
      rw [← hdev] at hlen ⊢
      exact ih cs (r := q) hnl hlen hcodes hq
    · rw [List.filter_cons_of_pos (by simpa using hquiet)] at hcodes
      cases cs with
      | nil => simp at hcodes
      | cons c cs =>
        rw [List.map_cons, List.cons.injEq] at hcodes
        obtain ⟨hev, hcodes⟩ := hcodes
        rw [List.length_cons] at hlen
        rw [List.mem_cons, not_or] at hnl
        obtain ⟨ds, rfl⟩ : ∃ ds, ev = .intr ds := by
          cases ev with
          | intr ds => exact ⟨ds, rfl⟩
          | call p' n => exact absurd rfl hquiet
          | pass p' killed => exact absurd rfl hquiet
        obtain rfl : ds = [1000 + c.toNat] := hev
        rw [Sys.step_intr (consoleintr_encrypted c (by omega)), Option.some.injEq] at hp
        subst hp
        have hne : c.toNat ≠ 0x0A := fun heq => hnl.1 (UInt8.toNat_inj.mp heq.symm)
        obtain ⟨hline, htrack⟩ := encrypt_frame (m := m) (g := s.input) (v := { s.dev with
          previousLine := s.dev.previousLine.set s.dev.trackEnigma c
          trackEnigma := s.dev.trackEnigma + 1 }) hne
        obtain ⟨htrack', hline'⟩ :=
          ih cs (r := q) hnl.2 (by dsimp only; rw [htrack]; dsimp only; omega)
          hcodes hq
        dsimp only at htrack' hline'
        rw [htrack] at htrack' hline'
        rw [hline] at hline'
        refine ⟨htrack'.trans (by rw [List.length_cons]; dsimp only; omega), ?_⟩
        exact hline'.trans (overlay_set (by omega) c cs)

/-! ### The newline -/

/-- The bytes from `previous_line[0]` on, as `cprintf` prints them. -/
def printed (m : Memory) (g : Input) (v : Vars) : List UInt8 :=
  (List.range (prevLen m g v)).map fun i : ℕ => lineAt m g v i

/-- The newline prints the record. -/
theorem encrypt_newline (m : Memory) (g : Input) (v : Vars) :
    (encrypt m g v 0x0A).2 = printf " is enigma cipher for " ++ putChars (printed m g v) ++
      printf "." ++ [.putc 0x0A] := by
  have hbytes : (handleNewLineEnigma m g v).2 =
      printf " is enigma cipher for " ++ putChars (printed m g v) ++ printf "." := by
    simp [handleNewLineEnigma, printed, ← List.map_eq_flatMap, Function.comp_def]
  show (handleNewLineEnigma m g v).2 ++ _ = _
  rw [hbytes]
  rfl

/-- A string with its NUL in the array is printed as it is. -/
theorem printed_eq (hlt : (content v.previousLine).length < 128) :
    printed m g v = content v.previousLine := by
  have hlen : prevLen m g v = (content v.previousLine).length := if_pos hlt
  refine List.ext_getElem (by simp [printed, hlen]) fun i hi hi' => ?_
  have hpre : content v.previousLine <+: v.previousLine.toList := List.takeWhile_prefix _
  have hget := hpre.getElem hi'
  simp only [printed, List.getElem_map, List.getElem_range]
  rw [lineAt, dif_pos ⟨by omega, by omega⟩, hget]
  simp [Vector.get_eq_getElem]

/-- What is printed is `text` and a newline, where `text` and then a newline lie over the start of
the array: just if there is no NUL in `text` and one behind the newline. -/
theorem printed_iff {a : Vector UInt8 128} {cs : List UInt8} (hlen : cs.length ≤ 120)
    (hnl : 0x0A ∉ cs) (ha : v.previousLine.toList = overlay a 0 (cs ++ [0x0A])) :
    printed m g v = cs.filter (· ≠ 0) ++ [0x0A] ↔
      0 ∉ cs ∧ a.toList[cs.length + 1]?.getD 0 = 0 := by
  have hlist : v.previousLine.toList = cs ++ [0x0A] ++ a.toList.drop (cs.length + 1) := by
    rw [ha, overlay, List.take_zero, List.nil_append, Nat.zero_add, List.length_append,
      List.length_singleton]
  have hnext : v.previousLine.toList[cs.length + 1]? = a.toList[cs.length + 1]? := by
    rw [hlist, List.getElem?_append_right (by simp)]
    simp
  have htake : v.previousLine.toList.take (cs.length + 1) = cs ++ [0x0A] := by
    rw [hlist, List.take_left' (by simp)]
  have hstop := takeWhile_eq_take_iff v.previousLine.toList (k := cs.length + 1)
    (by rw [Vector.length_toList]; omega)
  rw [htake, hnext] at hstop
  constructor
  · intro h
    have hlt : (content v.previousLine).length < 128 := by
      by_contra hno
      have hlong : 128 ≤ prevLen m g v := by
        rw [prevLen, if_neg hno]
        exact Nat.le_add_right _ _
      have hcount := congrArg List.length h
      have hfilter := List.length_filter_le (· ≠ (0 : UInt8)) cs
      simp only [printed, List.length_map, List.length_range, List.length_append,
        List.length_singleton] at hcount
      omega
    rw [printed_eq hlt] at h
    by_cases hnul : 0 ∈ cs
    · -- the string ends within `cs`, and the newline is not printed
      exfalso
      have hmem : (0x0A : UInt8) ∈ content v.previousLine := by rw [h]; simp
      obtain ⟨xs, ys, rfl⟩ := List.append_of_mem hnul
      rw [content, hlist, List.append_assoc, List.append_assoc, List.takeWhile_append] at hmem
      split at hmem
      · rw [List.cons_append, List.takeWhile_cons_of_neg (by decide), List.append_nil] at hmem
        exact hnl (List.mem_append_left _ hmem)
      · exact hnl (List.mem_append_left _ ((List.takeWhile_sublist _).subset hmem))
    · have hall : cs.filter (· ≠ 0) = cs := by
        refine List.filter_eq_self.mpr fun c hc => decide_eq_true ?_
        rintro rfl
        exact hnul hc
      rw [hall] at h
      exact ⟨hnul, (hstop.mp h).2⟩
  · rintro ⟨hnul, hend⟩
    have hall : cs.filter (· ≠ 0) = cs := by
      refine List.filter_eq_self.mpr fun c hc => decide_eq_true ?_
      rintro rfl
      exact hnul hc
    have hcontent : content v.previousLine = cs ++ [0x0A] :=
      hstop.mpr ⟨by simpa using hnul, hend⟩
    rw [printed_eq (by rw [hcontent]; simp; omega), hcontent, hall]

/-- **The newline prints what was typed**: the characters of the codes since the record was
empty, but for the zeros, and a newline. -/
def PrintsRecord (m : Memory) (g : Input) (v : Vars) (cs : List UInt8) : Prop :=
  ∃ q, consoleintr m g v [1000 + 0x0A] = some q ∧
    q.2.2 = printf " is enigma cipher for " ++ putChars (cs.filter (· ≠ 0) ++ [0x0A]) ++
      printf "." ++ [.putc 0x0A]

/-- **When the newline prints what was typed**: after any encrypted codes, at most 120, that come
one in each interrupt from a state with an empty record, while readers come and go, just if no
code is zero and the byte of `previous_line` behind the newline was zero. -/
theorem printsRecord_iff {s : Sys Vars} {events : List Event} {cs : List UInt8}
    {r : Sys Vars × List Answer} (htrack : s.dev.trackEnigma = 0) (hlen : cs.length ≤ 120)
    (hnl : 0x0A ∉ cs)
    (hcodes : (events.map Event.codes).filter (· ≠ []) = cs.map (fun c => [1000 + c.toNat]))
    (hr : Machine.run (Sys.step (consoleintr m)) s events = some r) :
    PrintsRecord m r.1.input r.1.dev cs ↔
      0 ∉ cs ∧ s.dev.previousLine.toList[cs.length + 1]?.getD 0 = 0 := by
  obtain ⟨htrack', hline⟩ := encrypt_run events cs hnl (by omega) hcodes hr
  rw [htrack, Nat.zero_add] at htrack'
  rw [htrack] at hline
  have hintr := consoleintr_encrypted (m := m) (g := r.1.input) (v := r.1.dev) 0x0A (by omega)
  have hrecord : (r.1.dev.previousLine.set r.1.dev.trackEnigma 0x0A).toList =
      overlay s.dev.previousLine 0 (cs ++ [0x0A]) := by
    simp only [htrack']
    exact overlay_concat (by omega) hline 0x0A
  rw [← printed_iff (m := m) (g := r.1.input) (v := { r.1.dev with
    previousLine := r.1.dev.previousLine.set r.1.dev.trackEnigma 0x0A
    trackEnigma := r.1.dev.trackEnigma + 1 }) hlen hnl hrecord]
  constructor
  · rintro ⟨q, hq, hout⟩
    obtain rfl := Option.some.inj (hintr.symm.trans hq)
    have hout := (encrypt_newline m r.1.input _).symm.trans hout
    rw [List.append_left_inj] at hout
    exact putChars_injective (List.append_cancel_left (List.append_cancel_right hout))
  · intro heq
    refine ⟨_, hintr, ?_⟩
    rw [← heq]
    exact encrypt_newline m r.1.input _

/-- The rule for `hi`, the first line after boot. -/
theorem printsRecord_hi : ∃ r, Machine.run (Sys.step (consoleintr Memory.zero))
    (Sys.boot Vars.boot) [.intr [1104], .call 0 9, .intr [1105]] = some r ∧
      PrintsRecord Memory.zero r.1.input r.1.dev (str "hi") := by
  have hrun : (Machine.run (Sys.step (consoleintr Memory.zero)) (Sys.boot Vars.boot)
      [.intr [1104], .call 0 9, .intr [1105]]).isSome := by
    decide +kernel
  obtain ⟨r, hr⟩ := Option.isSome_iff_exists.mp hrun
  refine ⟨r, hr, (printsRecord_iff rfl ?_ ?_ ?_ hr).mpr ?_⟩ <;> decide +kernel

/-- With a modifier key between `a` and `b`, the newline prints ` is enigma cipher for a.` -/
theorem not_printsRecord_modifier : ∃ r, Machine.run (Sys.step (consoleintr Memory.zero))
    (Sys.boot Vars.boot) [.intr [1097], .intr [1000], .intr [1098]] = some r ∧
      ¬ PrintsRecord Memory.zero r.1.input r.1.dev [0x61, 0, 0x62] := by
  have hrun : ((Machine.run (Sys.step (consoleintr Memory.zero)) (Sys.boot Vars.boot)
      [.intr [1097], .intr [1000], .intr [1098]]).bind fun r =>
        (consoleintr Memory.zero r.1.input r.1.dev [1000 + 0x0A]).map fun q => q.2.2) =
      some (printf " is enigma cipher for a." ++ [.putc 0x0A]) := by
    decide +kernel
  obtain ⟨r, hr, hq⟩ := Option.bind_eq_some_iff.mp hrun
  obtain ⟨q, hq, hout⟩ := Option.map_eq_some_iff.mp hq
  refine ⟨r, hr, ?_⟩
  rintro ⟨q', hq', hout'⟩
  obtain rfl := Option.some.inj (hq.symm.trans hq')
  rw [hout] at hout'
  exact absurd hout' (by decide +kernel)

end Helpful
end Console
end Xv6

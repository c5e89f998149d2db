import Xv6.Basic
import Xv6.Lib.Machine

/-!
# The cipher of the Helpful console

`enigma` of `B22CS052/Helpful/console.h`: a letter goes through a plugboard, three
rotors, a reflector, and the rotors again.  On the way back the code looks a letter
up in the same tables as on the way there, not in their inverses, and with the
offsets negated: `%` of a negative number is negative, and indexes memory in front of
the table.  So the cipher is not reciprocal, and a letter that leaves the tables has
no defined image.

## Main results

* `roundTrip_iff` — a message comes back exactly when every letter is exchanged with
  its image, at its own rotor position.
* `not_roundTrip` — **from no start position does every message come back.**
* `roundTrip_boot_iff` — from the position at boot no message does but the empty one.
-/

namespace Xv6
namespace Console
namespace Enigma

/-! ### The code -/

/-- `rotorI`. -/
def rotorI : List UInt8 := str "EKMFLGDQVZNTOWYHXUSPAIBRCJ"

/-- `rotorII`. -/
def rotorII : List UInt8 := str "AJDKSIRUXBLHWTMCQGZNPYFVOE"

/-- `rotorIII`. -/
def rotorIII : List UInt8 := str "YRUHQSLDPXNGOKMIEBFZCWVJAT"

/-- `reflector`. -/
def reflector : List UInt8 := str "BDFHJLCPRTXVZNYEIWGAKMUSQO"

/-- `plugboard`. -/
def plugboard : List UInt8 := str "ABCDEFGHIJKLMNOPQRSTUVWXYZ"

/-- `table[i]`, a byte of the string or its NUL; nothing else is defined. -/
def load (table : List UInt8) (i : ℤ) : Option UInt8 :=
  if 0 ≤ i then (table ++ [0])[i.toNat]? else none

/-- `apply_rotor`.  The remainder has the sign of the dividend. -/
def applyRotor (c : UInt8) (rotor : List UInt8) (offset : ℤ) : Option UInt8 :=
  load rotor ((schar c - 65 + offset).tmod 26)

/-- `apply_reflector`. -/
def applyReflector (c : UInt8) : Option UInt8 := load reflector (schar c - 65)

/-- `rotor_offsets`. -/
structure Offsets where
  first : ℕ
  second : ℕ
  third : ℕ
  deriving DecidableEq

/-- The offsets at boot. -/
def boot : Offsets := ⟨0, 0, 0⟩

/-- The rotors move by one letter.  Nothing bounds the third. -/
def Offsets.step (o : Offsets) : Offsets :=
  if 26 ≤ o.first + 1 then
    if 26 ≤ o.second + 1 then ⟨0, 0, o.third + 1⟩ else ⟨0, o.second + 1, o.third⟩
  else ⟨o.first + 1, o.second, o.third⟩

/-- The way of a letter to the reflector and through it. -/
def forth (o : Offsets) (c : UInt8) : Option UInt8 := do
  let c ← load plugboard (schar c - 65)
  let c ← applyRotor c rotorI o.first
  let c ← applyRotor c rotorII o.second
  let c ← applyRotor c rotorIII o.third
  applyReflector c

/-- The way of a letter back from the reflector. -/
def back (o : Offsets) (c : UInt8) : Option UInt8 := do
  let c ← applyRotor c rotorIII (-o.third)
  let c ← applyRotor c rotorII (-o.second)
  applyRotor c rotorI (-o.first)

/-- The image of a letter at a rotor position. -/
def image (o : Offsets) (c : UInt8) : Option UInt8 := (forth o c).bind (back o)

/-- `enigma`. -/
def enigma (o : Offsets) (c : UInt8) : Option (Offsets × UInt8) :=
  (image o c).map fun c' => (o.step, c')

/-! ### Messages -/

/-- **The message comes back**: enciphered from the position `o`, and the result
enciphered from `o` again, it is the message. -/
def RoundTrip (o : Offsets) (msg : List UInt8) : Prop :=
  ((Machine.run enigma o msg).bind fun r => (Machine.run enigma o r.2).map Prod.snd) = some msg

instance (o : Offsets) (msg : List UInt8) : Decidable (RoundTrip o msg) :=
  inferInstanceAs (Decidable (_ = _))

/-- The letter is the image of its image. -/
def Exchanged (o : Offsets) (c : UInt8) : Prop := (image o c).bind (image o) = some c

instance (o : Offsets) (c : UInt8) : Decidable (Exchanged o c) :=
  inferInstanceAs (Decidable (_ = _))

/-- Every letter of the message is exchanged with its image at its own position. -/
def AllExchanged (o : Offsets) (msg : List UInt8) : Prop :=
  Machine.Along (fun o _ => (o.step, ())) Exchanged o msg

theorem enigma_eq_some {o : Offsets} {c : UInt8} {p : Offsets × UInt8} :
    enigma o c = some p ↔ image o c = some p.2 ∧ p.1 = o.step := by
  simp only [enigma, Option.map_eq_some_iff]
  constructor
  · rintro ⟨c', hc', rfl⟩
    exact ⟨hc', rfl⟩
  · rintro ⟨hc', hp⟩
    exact ⟨p.2, hc', by rw [← hp]⟩

theorem roundTrip_nil (o : Offsets) : RoundTrip o [] := rfl

theorem roundTrip_cons {o : Offsets} {c : UInt8} {msg : List UInt8} :
    RoundTrip o (c :: msg) ↔ Exchanged o c ∧ RoundTrip o.step msg := by
  simp only [RoundTrip, Exchanged, Option.bind_eq_some_iff, Option.map_eq_some_iff]
  constructor
  · rintro ⟨r, hr, r', hr', hmsg⟩
    obtain ⟨p, q, hp, hq, rfl⟩ := Machine.run_cons_eq_some.mp hr
    obtain ⟨p', q', hp', hq', rfl⟩ := Machine.run_cons_eq_some.mp hr'
    obtain ⟨hc, hstep⟩ := enigma_eq_some.mp hp
    obtain ⟨hc', hstep'⟩ := enigma_eq_some.mp hp'
    rw [hstep] at hq
    rw [hstep'] at hq'
    rw [List.cons.injEq] at hmsg
    exact ⟨⟨p.2, hc, by rw [hc', hmsg.1]⟩, q, hq, q', hq', hmsg.2⟩
  · rintro ⟨⟨y, hc, hy⟩, q, hq, q', hq', hmsg⟩
    refine ⟨(q.1, y :: q.2), ?_, (q'.1, c :: q'.2), ?_, by rw [hmsg]⟩
    · exact Machine.run_cons_eq_some.mpr
        ⟨(o.step, y), q, enigma_eq_some.mpr ⟨hc, rfl⟩, hq, rfl⟩
    · exact Machine.run_cons_eq_some.mpr
        ⟨(o.step, c), q', enigma_eq_some.mpr ⟨hy, rfl⟩, hq', rfl⟩

/-- **A message comes back exactly when every letter of it is exchanged** with its
image at the rotor position where it stands. -/
theorem roundTrip_iff : ∀ (msg : List UInt8) (o : Offsets),
    RoundTrip o msg ↔ AllExchanged o msg := by
  intro msg
  induction msg with
  | nil => intro o; exact iff_of_true (roundTrip_nil o) trivial
  | cons c msg ih => intro o; rw [roundTrip_cons, ih o.step]; rfl

/-! ### Letters that leave the tables -/

/-- The `i`-th letter. -/
def letter (i : ℕ) : UInt8 := UInt8.ofNat (65 + i)

/-- The upper-case letters. -/
def IsUpper (c : UInt8) : Prop := 65 ≤ c ∧ c ≤ 90

instance (c : UInt8) : Decidable (IsUpper c) := inferInstanceAs (Decidable (_ ∧ _))

/-- The offsets a rotor has. -/
def Offsets.InRange (o : Offsets) : Prop := o.first < 26 ∧ o.second < 26 ∧ o.third < 26

instance (o : Offsets) : Decidable o.InRange := inferInstanceAs (Decidable (_ ∧ _ ∧ _))

theorem schar_letter : ∀ i < 26, schar (letter i) - 65 = i := by decide

theorem isUpper_letter : ∀ i < 26, IsUpper (letter i) := by decide

/-- The table has every letter in it. -/
def Onto (table : List UInt8) : Prop := ∀ j < 26, ∃ i : ℕ, i < 26 ∧ load table i = some (letter j)

theorem onto_tables :
    ∀ table ∈ [rotorI, rotorII, rotorIII, reflector, plugboard], Onto table := by
  unfold Onto
  decide +kernel

theorem onto_rotorI : Onto rotorI := onto_tables _ (by simp)
theorem onto_rotorII : Onto rotorII := onto_tables _ (by simp)
theorem onto_rotorIII : Onto rotorIII := onto_tables _ (by simp)
theorem onto_reflector : Onto reflector := onto_tables _ (by simp)
theorem onto_plugboard : Onto plugboard := onto_tables _ (by simp)

/-- A letter looked up directly: in the plugboard or the reflector. -/
theorem Onto.exists_load {table : List UInt8} (h : Onto table) {j : ℕ} (hj : j < 26) :
    ∃ i < 26, load table (schar (letter i) - 65) = some (letter j) := by
  obtain ⟨i, hi, hload⟩ := h j hj
  exact ⟨i, hi, by rw [schar_letter i hi, hload]⟩

/-- A letter looked up in a turned rotor, on the way to the reflector. -/
theorem Onto.exists_applyRotor {rotor : List UInt8} (h : Onto rotor) {j offset : ℕ}
    (hj : j < 26) (hoff : offset < 26) :
    ∃ i < 26, applyRotor (letter i) rotor offset = some (letter j) := by
  obtain ⟨k, hk, hload⟩ := h j hj
  refine ⟨(k + 26 - offset) % 26, Nat.mod_lt _ (by decide), ?_⟩
  have hindex : (((k + 26 - offset) % 26 : ℕ) + (offset : ℤ)).tmod 26 = k := by
    rw [Int.tmod_eq_emod_of_nonneg (by omega)]
    omega
  rw [applyRotor, schar_letter _ (Nat.mod_lt _ (by decide)), hindex, hload]

/-- Every letter comes out of the reflector for some letter that goes in. -/
theorem exists_forth {o : Offsets} (h : o.InRange) {j : ℕ} (hj : j < 26) :
    ∃ i < 26, forth o (letter i) = some (letter j) := by
  obtain ⟨i₄, hi₄, h₄⟩ := onto_reflector.exists_load hj
  obtain ⟨i₃, hi₃, h₃⟩ := onto_rotorIII.exists_applyRotor hi₄ h.2.2
  obtain ⟨i₂, hi₂, h₂⟩ := onto_rotorII.exists_applyRotor hi₃ h.2.1
  obtain ⟨i₁, hi₁, h₁⟩ := onto_rotorI.exists_applyRotor hi₂ h.1
  obtain ⟨i₀, hi₀, h₀⟩ := onto_plugboard.exists_load hi₁
  refine ⟨i₀, hi₀, ?_⟩
  simp only [forth, h₀, h₁, h₂, h₃, Option.bind_eq_bind, Option.bind_some, applyReflector, h₄]

/-- On the way back an `A` falls out of a rotor that is turned. -/
theorem applyRotor_neg (rotor : List UInt8) {offset : ℕ} (h0 : 0 < offset) (h : offset < 26) :
    applyRotor (letter 0) rotor (-offset) = none := by
  have hindex : ((0 : ℕ) + -(offset : ℤ)).tmod 26 = -offset := by
    rw [Nat.cast_zero, zero_add, Int.neg_tmod, Int.tmod_eq_emod_of_nonneg (by omega),
      Int.emod_eq_of_lt (by omega) (by omega)]
  rw [applyRotor, schar_letter 0 (by decide), hindex]
  exact if_neg (by omega)

/-- Some letter falls out of the tables on the way back, unless all rotors stand at zero. -/
theorem exists_back_eq_none {o : Offsets} (h : o.InRange) (hne : o ≠ boot) :
    ∃ j < 26, back o (letter j) = none := by
  rcases Nat.eq_zero_or_pos o.third with h₃ | h₃
  · rcases Nat.eq_zero_or_pos o.second with h₂ | h₂
    · have h₁ : 0 < o.first := by
        rw [Nat.pos_iff_ne_zero]
        intro h₁
        refine hne ?_
        cases o
        simp_all [boot]
      -- `Y` returns as `A` from the third rotor, and that as `A` from the second
      have hY : applyRotor (letter 24) rotorIII 0 = some (letter 0) := by decide
      have hAA : applyRotor (letter 0) rotorII 0 = some (letter 0) := by decide
      refine ⟨24, by decide, ?_⟩
      simp only [back, h₃, h₂, Nat.cast_zero, neg_zero, hY, hAA, Option.bind_eq_bind,
        Option.bind_some, applyRotor_neg rotorI h₁ h.1]
    · have hY : applyRotor (letter 24) rotorIII 0 = some (letter 0) := by decide
      refine ⟨24, by decide, ?_⟩
      simp only [back, h₃, Nat.cast_zero, neg_zero, hY, Option.bind_eq_bind, Option.bind_some,
        applyRotor_neg rotorII h₂ h.2.1, Option.bind_none]
  · refine ⟨0, by decide, ?_⟩
    simp only [back, applyRotor_neg rotorIII h₃ h.2.2, Option.bind_eq_bind,
      Option.bind_none]

/-- At every position some letter is not exchanged with its image. -/
theorem exists_not_exchanged {o : Offsets} (h : o.InRange) :
    ∃ i < 26, ¬ Exchanged o (letter i) := by
  rcases eq_or_ne o boot with rfl | hne
  · exact ⟨0, by decide, by decide +kernel⟩
  · obtain ⟨j, hj, hback⟩ := exists_back_eq_none h hne
    obtain ⟨i, hi, hforth⟩ := exists_forth h hj
    refine ⟨i, hi, ?_⟩
    simp [Exchanged, image, hforth, hback]

/-- At boot no letter is. -/
theorem not_exchanged_boot : ∀ i < 26, ¬ Exchanged boot (letter i) := by decide +kernel

/-- **From no start position does every message come back**: some message of a single
letter does not.  And from every position a message comes back exactly when each
letter of it is exchanged with its image where it stands. -/
theorem not_roundTrip (o : Offsets) (h : o.InRange) :
    (∃ c, IsUpper c ∧ ¬ RoundTrip o [c]) ∧ ∀ msg, RoundTrip o msg ↔ AllExchanged o msg := by
  refine ⟨?_, fun msg => roundTrip_iff msg o⟩
  obtain ⟨i, hi, hnot⟩ := exists_not_exchanged h
  exact ⟨letter i, isUpper_letter i hi, fun hrt => hnot (roundTrip_cons.mp hrt).1⟩

/-- The rule with the rotors at 3, 5 and 7. -/
theorem not_roundTrip_three_five_seven :
    (∃ c, IsUpper c ∧ ¬ RoundTrip ⟨3, 5, 7⟩ [c]) ∧
      ∀ msg, RoundTrip ⟨3, 5, 7⟩ msg ↔ AllExchanged ⟨3, 5, 7⟩ msg :=
  not_roundTrip ⟨3, 5, 7⟩ (by decide)

/-- From the position at boot, `A` is enciphered as `U`, and `U` as `S`. -/
theorem not_roundTrip_A :
    (Machine.run enigma boot (str "A")).map Prod.snd = some (str "U") ∧
      (Machine.run enigma boot (str "U")).map Prod.snd = some (str "S") ∧
      ¬ RoundTrip boot (str "A") := by
  decide +kernel

/-- From the position at boot, no message of letters comes back but the empty one. -/
theorem roundTrip_boot_iff (msg : List UInt8) (h : ∀ c ∈ msg, IsUpper c) :
    RoundTrip boot msg ↔ msg = [] := by
  cases msg with
  | nil => exact iff_of_true (roundTrip_nil boot) rfl
  | cons c msg =>
    refine iff_of_false (fun hrt => ?_) (by simp)
    obtain ⟨hlow, hhigh⟩ := h c List.mem_cons_self
    have hc : c = letter (c.toNat - 65) := by
      rw [UInt8.le_iff_toNat_le] at hlow hhigh
      rw [letter, ← UInt8.toNat_inj, UInt8.toNat_ofNat']
      have hlow' : 65 ≤ c.toNat := hlow
      have hhigh' : c.toNat ≤ 90 := hhigh
      omega
    have hi : c.toNat - 65 < 26 := by
      rw [UInt8.le_iff_toNat_le] at hhigh
      have hhigh' : c.toNat ≤ 90 := hhigh
      omega
    refine not_exchanged_boot _ hi ?_
    rw [← hc]
    exact (roundTrip_cons.mp hrt).1

end Enigma
end Console
end Xv6

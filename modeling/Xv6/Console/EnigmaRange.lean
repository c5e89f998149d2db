import Xv6.Console.HelpfulRun

/-!
# The tables of the cipher and their indices

`enigma` looks a letter up in eight tables, one after the other, at an index that it makes of
the letter found before.  The plugboard has no lower-case letters; and on the way back a rotor
that is turned further than the number of the letter is looked up in front of its table, as the
remainder of a negative number is negative.

## Main definitions

* `lookups` — the tables, each with the index that is made of a letter.
* `indices`, `InTables` — the indices used for a letter, and that all are in the tables.
* `StaysIn` — the letter is an upper-case one, and no rotor is turned too far for it.

## Main results

* `image_eq_chain` — `enigma` is these lookups.
* `inTables_iff` — the letters and rotor positions whose indices are in the tables.
* `forall_inTables_iff` — at the first letter only are all of them.
* `final_encipher_iff` — the rotors are an odometer for `26 ^ 3` letters.
* `cipherInTables_iff` — **the runs of the console along which the tables are not left.**
-/

namespace Xv6
namespace Console
namespace Enigma

/-! ### The indices -/

/-- The index into a rotor turned by `offset`, for the letter of the number `k`. -/
def turn (offset k : ℤ) : ℤ := (k + offset).tmod 26

/-- The lookups of `enigma`, in their order: the table, and the index made of the number of the
letter found before. -/
def lookups (o : Offsets) : List (List UInt8 × (ℤ → ℤ)) :=
  [(plugboard, id), (rotorI, turn o.first), (rotorII, turn o.second), (rotorIII, turn o.third),
    (reflector, id), (rotorIII, turn (-o.third)), (rotorII, turn (-o.second)),
    (rotorI, turn (-o.first))]

/-- What the lookups make of a letter. -/
def chain : List (List UInt8 × (ℤ → ℤ)) → UInt8 → Option UInt8
  | [], c => some c
  | (table, index) :: rest, c => (load table (index (schar c - 65))).bind (chain rest)

/-- The indices the lookups use for a letter, as far as they find one. -/
def indices : List (List UInt8 × (ℤ → ℤ)) → UInt8 → List ℤ
  | [], _ => []
  | (table, index) :: rest, c =>
      let i := index (schar c - 65)
      i :: ((load table i).map (indices rest)).getD []

/-- **The cipher is these lookups.** -/
theorem image_eq_chain (o : Offsets) (c : UInt8) : image o c = chain (lookups o) c := by
  have hback : back o = chain ((lookups o).drop 5) := by
    funext c
    simp only [back, chain, lookups, List.drop, applyRotor, turn, Option.bind_eq_bind,
      Option.bind_fun_some]
  simp only [image, forth, hback, chain, lookups, List.drop, applyRotor, applyReflector, turn,
    id_eq, Option.bind_eq_bind, Option.bind_assoc]

/-- An index of a table of 26 letters. -/
def InTable (i : ℤ) : Prop := 0 ≤ i ∧ i < 26

instance (i : ℤ) : Decidable (InTable i) := inferInstanceAs (Decidable (_ ∧ _))

/-- **Every index used for the letter is in its table.** -/
def InTables (o : Offsets) (c : UInt8) : Prop := ∀ i ∈ indices (lookups o) c, InTable i

instance (o : Offsets) (c : UInt8) : Decidable (InTables o c) :=
  inferInstanceAs (Decidable (∀ i ∈ _, _))

/-! ### The letters by their numbers -/

/-- The number of the `k`-th letter of a table. -/
def number (table : List UInt8) (k : ℕ) : ℕ := (table.getD k 0).toNat - 65

/-- The table has a letter at each of its indices. -/
def Lettered (table : List UInt8) : Prop :=
  ∀ k : ℕ, k < 26 → load table k = some (letter (number table k)) ∧ number table k < 26

theorem Lettered.lt {table : List UInt8} (h : Lettered table) {k : ℕ} (hk : k < 26) :
    number table k < 26 := (h k hk).2

theorem Lettered.lt_mod {table : List UInt8} (h : Lettered table) (k : ℕ) :
    number table (k % 26) < 26 := h.lt (Nat.mod_lt _ (by decide))

theorem Lettered.lt_sub {table : List UInt8} (h : Lettered table) {k : ℕ} (hk : k < 26) (d : ℕ) :
    number table (k - d) < 26 := h.lt ((Nat.sub_le k d).trans_lt hk)

theorem lettered_tables :
    ∀ table ∈ [rotorI, rotorII, rotorIII, reflector, plugboard], Lettered table := by
  unfold Lettered
  decide +kernel

theorem lettered_plugboard : Lettered plugboard := lettered_tables _ (by simp)
theorem lettered_rotorI : Lettered rotorI := lettered_tables _ (by simp)
theorem lettered_rotorII : Lettered rotorII := lettered_tables _ (by simp)
theorem lettered_rotorIII : Lettered rotorIII := lettered_tables _ (by simp)
theorem lettered_reflector : Lettered reflector := lettered_tables _ (by simp)

variable {table : List UInt8} {rest : List (List UInt8 × (ℤ → ℤ))} {k offset : ℕ}

/-- A lookup at an index in the table. -/
theorem indices_cons {index : ℤ → ℤ} {i : ℕ} (h : Lettered table) (hk : k < 26) (hi : i < 26)
    (hindex : index k = i) :
    (∀ j ∈ indices ((table, index) :: rest) (letter k), InTable j) ↔
      ∀ j ∈ indices rest (letter (number table i)), InTable j := by
  have hin : InTable (i : ℤ) := ⟨by omega, by omega⟩
  rw [indices, schar_letter k hk, hindex, (h i hi).1]
  exact List.forall_mem_cons.trans (and_iff_right hin)

/-- On the way to the reflector no rotor is left. -/
theorem indices_turn (h : Lettered table) (hk : k < 26) :
    (∀ j ∈ indices ((table, turn offset) :: rest) (letter k), InTable j) ↔
      ∀ j ∈ indices rest (letter (number table ((k + offset) % 26))), InTable j := by
  refine indices_cons h hk (Nat.mod_lt _ (by decide)) ?_
  rw [turn, ← Nat.cast_add, Int.tmod_eq_emod_of_nonneg (by omega)]
  rfl

/-- The remainder of a difference is negative with it. -/
theorem turn_neg (hk : k < 26) : turn (-offset) k =
    if offset ≤ k then ((k - offset : ℕ) : ℤ) else -(((offset - k) % 26 : ℕ) : ℤ) := by
  unfold turn
  split
  · next hle =>
    rw [Int.tmod_eq_emod_of_nonneg (by omega)]
    omega
  · next hgt =>
    have hdiff : (k : ℤ) + -(offset : ℤ) = -((offset - k : ℕ) : ℤ) := by omega
    rw [hdiff, Int.neg_tmod, Int.tmod_eq_emod_of_nonneg (by omega)]
    rfl

/-- The index on the way back is in the table if the rotor is not turned beyond the letter, or
turned to it. -/
theorem inTable_turn_neg (hk : k < 26) :
    InTable (turn (-offset) k) ↔ offset ≤ k ∨ offset % 26 = k := by
  rw [turn_neg hk, InTable]
  split <;> omega

/-- On the way back a rotor is left if it is turned too far. -/
theorem indices_turn_neg (h : Lettered table) (hk : k < 26) :
    (∀ j ∈ indices ((table, turn (-offset)) :: rest) (letter k), InTable j) ↔
      (offset ≤ k ∨ offset % 26 = k) ∧
        ∀ j ∈ indices rest (letter (number table (k - offset))), InTable j := by
  by_cases hin : offset ≤ k ∨ offset % 26 = k
  · rw [and_iff_right hin]
    refine indices_cons h hk (by omega) ?_
    rw [turn_neg hk]
    split <;> omega
  · refine iff_of_false (fun hall => hin ?_) fun hrest => hin hrest.1
    unfold indices at hall
    rw [schar_letter k hk] at hall
    exact (inTable_turn_neg hk).mp (List.forall_mem_cons.mp hall).1

/-! ### The letters that stay in the tables -/

/-- The number of the letter that comes out of the reflector for the `k`-th letter. -/
def reflected (o : Offsets) (k : ℕ) : ℕ :=
  number reflector (number rotorIII ((number rotorII ((number rotorI
    ((number plugboard k + o.first) % 26) + o.second) % 26) + o.third) % 26))

/-- **The letter is an upper-case one, and on its way back it meets no rotor that is turned
further than its number**, unless by whole turns. -/
def StaysIn (o : Offsets) (c : UInt8) : Prop :=
  IsUpper c ∧
    let x := reflected o (c.toNat - 65)
    let y := number rotorIII (x - o.third)
    let z := number rotorII (y - o.second)
    (o.third ≤ x ∨ o.third % 26 = x) ∧ (o.second ≤ y ∨ o.second % 26 = y) ∧
      (o.first ≤ z ∨ o.first % 26 = z)

instance (o : Offsets) (c : UInt8) : Decidable (StaysIn o c) :=
  inferInstanceAs (Decidable (_ ∧ _ ∧ _ ∧ _))

theorem inTable_schar : ∀ c : UInt8, InTable (schar c - 65) ↔ IsUpper c := by
  have hall : ∀ k : Fin 256, InTable (schar (UInt8.ofNat k) - 65) ↔ IsUpper (UInt8.ofNat k) := by
    decide +kernel
  intro c
  have hc := hall ⟨c.toNat, UInt8.toNat_lt c⟩
  rwa [UInt8.ofNat_toNat] at hc

theorem IsUpper.eq_letter {c : UInt8} (h : IsUpper c) :
    c.toNat - 65 < 26 ∧ c = letter (c.toNat - 65) := by
  have hlow : 65 ≤ c.toNat := UInt8.le_iff_toNat_le.mp h.1
  have hhigh : c.toNat ≤ 90 := UInt8.le_iff_toNat_le.mp h.2
  refine ⟨by omega, ?_⟩
  rw [letter, ← UInt8.toNat_inj, UInt8.toNat_ofNat']
  omega

/-- On the way to the reflector every index is in its table. -/
theorem indices_forth {o : Offsets} (hk : k < 26) :
    (∀ j ∈ indices (lookups o) (letter k), InTable j) ↔
      ∀ j ∈ indices ((lookups o).drop 5) (letter (reflected o k)), InTable j := by
  rw [lookups, indices_cons lettered_plugboard hk hk rfl,
    indices_turn lettered_rotorI (lettered_plugboard.lt hk),
    indices_turn lettered_rotorII (lettered_rotorI.lt_mod _),
    indices_turn lettered_rotorIII (lettered_rotorII.lt_mod _),
    indices_cons lettered_reflector (lettered_rotorIII.lt_mod _) (lettered_rotorIII.lt_mod _) rfl]
  rfl

/-- On the way back no index is out of its table as long as no rotor is turned too far. -/
theorem indices_back {o : Offsets} {x : ℕ} (hx : x < 26) :
    (∀ j ∈ indices ((lookups o).drop 5) (letter x), InTable j) ↔
      (o.third ≤ x ∨ o.third % 26 = x) ∧
        (o.second ≤ number rotorIII (x - o.third) ∨
          o.second % 26 = number rotorIII (x - o.third)) ∧
        (o.first ≤ number rotorII (number rotorIII (x - o.third) - o.second) ∨
          o.first % 26 = number rotorII (number rotorIII (x - o.third) - o.second)) := by
  have hy := lettered_rotorIII.lt_sub hx o.third
  have hz := lettered_rotorII.lt_sub hy o.second
  rw [lookups, List.drop_succ_cons, List.drop_succ_cons, List.drop_succ_cons, List.drop_succ_cons,
    List.drop_succ_cons, List.drop_zero, indices_turn_neg lettered_rotorIII hx,
    indices_turn_neg lettered_rotorII hy, indices_turn_neg lettered_rotorI hz]
  refine and_congr Iff.rfl (and_congr Iff.rfl (and_iff_left ?_))
  exact fun j hj => absurd hj List.not_mem_nil

/-- **The letters and rotor positions whose indices are in the tables.** -/
theorem inTables_iff (o : Offsets) (c : UInt8) : InTables o c ↔ StaysIn o c := by
  by_cases hupper : IsUpper c
  · obtain ⟨hk, hc⟩ := hupper.eq_letter
    rw [InTables, StaysIn, and_iff_right hupper]
    generalize c.toNat - 65 = k at hk hc
    subst hc
    exact (indices_forth hk).trans (indices_back (lettered_reflector.lt
      (lettered_rotorIII.lt_mod _)))
  · refine iff_of_false (fun hall => hupper ?_) fun hstays => hupper hstays.1
    exact (inTable_schar c).mp (hall _ List.mem_cons_self)

/-! ### The rotor positions -/

theorem letter_inj {i j : ℕ} (hi : i < 26) (hj : j < 26) (h : letter i = letter j) : i = j := by
  have hnum := congrArg UInt8.toNat h
  rw [letter, letter, UInt8.toNat_ofNat', UInt8.toNat_ofNat'] at hnum
  omega

theorem Onto.exists_number (h : Onto table) (hl : Lettered table) {j : ℕ} (hj : j < 26) :
    ∃ i < 26, number table i = j := by
  obtain ⟨i, hi, hload⟩ := h j hj
  obtain ⟨hload', hlt⟩ := hl i hi
  exact ⟨i, hi, letter_inj hlt hj (Option.some.inj (hload'.symm.trans hload))⟩

/-- The same with the table turned. -/
theorem Onto.exists_number_mod (h : Onto table) (hl : Lettered table) {j : ℕ} (offset : ℕ)
    (hj : j < 26) : ∃ i < 26, number table ((i + offset) % 26) = j := by
  obtain ⟨i, hi, hij⟩ := h.exists_number hl hj
  refine ⟨(i + 26 - offset % 26) % 26, Nat.mod_lt _ (by decide), ?_⟩
  rwa [show ((i + 26 - offset % 26) % 26 + offset) % 26 = i by omega]

/-- Every letter comes out of the reflector, at every rotor position. -/
theorem exists_reflected (o : Offsets) {x : ℕ} (hx : x < 26) : ∃ k < 26, reflected o k = x := by
  obtain ⟨i₄, hi₄, h₄⟩ := onto_reflector.exists_number lettered_reflector hx
  obtain ⟨i₃, hi₃, h₃⟩ := onto_rotorIII.exists_number_mod lettered_rotorIII o.third hi₄
  obtain ⟨i₂, hi₂, h₂⟩ := onto_rotorII.exists_number_mod lettered_rotorII o.second hi₃
  obtain ⟨i₁, hi₁, h₁⟩ := onto_rotorI.exists_number_mod lettered_rotorI o.first hi₂
  obtain ⟨k, hk, h₀⟩ := onto_plugboard.exists_number lettered_plugboard hi₁
  exact ⟨k, hk, by rw [reflected, h₀, h₁, h₂, h₃, h₄]⟩

theorem staysIn_letter {o : Offsets} {k : ℕ} (hk : k < 26) :
    StaysIn o (letter k) ↔
      (o.third ≤ reflected o k ∨ o.third % 26 = reflected o k) ∧
        (o.second ≤ number rotorIII (reflected o k - o.third) ∨
          o.second % 26 = number rotorIII (reflected o k - o.third)) ∧
        (o.first ≤ number rotorII (number rotorIII (reflected o k - o.third) - o.second) ∨
          o.first % 26 =
            number rotorII (number rotorIII (reflected o k - o.third) - o.second)) := by
  have hnum : (letter k).toNat - 65 = k := by
    rw [letter, UInt8.toNat_ofNat']
    omega
  rw [StaysIn, hnum, and_iff_right (isUpper_letter k hk)]

/-- **Every upper-case letter stays in the tables at the position at boot only**, of those where
the first two rotors have the offsets of a rotor. -/
theorem forall_inTables_iff {o : Offsets} (h₁ : o.first < 26) (h₂ : o.second < 26) :
    (∀ c, IsUpper c → InTables o c) ↔ o = boot := by
  constructor
  · intro hall
    have hstays : ∀ k < 26, StaysIn o (letter k) := fun k hk =>
      (inTables_iff o _).mp (hall _ (isUpper_letter k hk))
    -- a letter that comes out of the reflector as `A` or `B` falls out of a turned third rotor
    have hthird : o.third = 0 := by
      by_contra hne
      obtain ⟨k, hk, hx⟩ := exists_reflected o (x := if o.third % 26 = 0 then 1 else 0)
        (by split <;> decide)
      have hturned := ((staysIn_letter hk).mp (hstays k hk)).1
      rw [hx] at hturned
      split at hturned <;> omega
    -- one that comes out as `Y` returns as `A` from the third, and as `A` from the second
    obtain ⟨k, hk, hx⟩ := exists_reflected o (x := 24) (by decide)
    obtain ⟨-, hturned₂, hturned₁⟩ := (staysIn_letter hk).mp (hstays k hk)
    have hY : number rotorIII 24 = 0 := by decide
    have hA : number rotorII 0 = 0 := by decide
    rw [hx, hthird, Nat.sub_zero, hY] at hturned₂ hturned₁
    have hsecond : o.second = 0 := by omega
    rw [hsecond, Nat.sub_zero, hA] at hturned₁
    have hfirst : o.first = 0 := by omega
    cases o
    simp_all [boot]
  · rintro rfl c hc
    obtain ⟨hk, hletter⟩ := hc.eq_letter
    rw [inTables_iff, hletter, staysIn_letter hk]
    exact ⟨.inl (Nat.zero_le _), .inl (Nat.zero_le _), .inl (Nat.zero_le _)⟩

/-- **The rotor positions after `n` letters**: an odometer, but for the last rotor. -/
theorem iterate_step (n : ℕ) :
    Offsets.step^[n] boot = ⟨n % 26, n / 26 % 26, n / 26 / 26⟩ := by
  induction n with
  | zero => rfl
  | succ n ih =>
    rw [Function.iterate_succ_apply', ih, Offsets.step]
    dsimp only
    split
    · split
      · rw [Offsets.mk.injEq]
        omega
      · rw [Offsets.mk.injEq]
        omega
    · rw [Offsets.mk.injEq]
      omega

/-! ### The rotors as an odometer -/

/-- `enigma`, with the result where it leaves its tables.  The rotors turn there too. -/
def encipher (outside : Offsets → UInt8 → UInt8) (o : Offsets) (c : UInt8) : Offsets × UInt8 :=
  (enigma o c).getD (o.step, outside o c)

/-- An odometer of base 26 with three places. -/
def odometer (n : ℕ) : Offsets := ⟨n % 26, n / 26 % 26, n / 26 ^ 2 % 26⟩

variable {outside : Offsets → UInt8 → UInt8}

theorem fst_encipher (o : Offsets) (c : UInt8) : (encipher outside o c).1 = o.step := by
  rw [encipher, enigma]
  cases image o c with
  | none => rfl
  | some c' => rfl

/-- Each letter turns the rotors, whatever it is. -/
theorem final_encipher (letters : List UInt8) :
    Machine.final (encipher outside) boot letters =
      ⟨letters.length % 26, letters.length / 26 % 26, letters.length / 26 / 26⟩ := by
  rw [← iterate_step]
  suffices hrun : ∀ o, Machine.final (encipher outside) o letters =
      Offsets.step^[letters.length] o from hrun boot
  induction letters with
  | nil => intro o; rfl
  | cons c letters ih =>
    intro o
    rw [Machine.final_cons, fst_encipher, ih, List.length_cons, Function.iterate_succ_apply]

/-- **The rotors are an odometer for `26 ^ 3` letters.**  The last rotor does not start again
from 0, so they are not for a letter more. -/
theorem final_encipher_iff (outside : Offsets → UInt8 → UInt8) (letters : List UInt8) :
    (Machine.final (encipher outside) boot letters = odometer letters.length ∧
      (Machine.final (encipher outside) boot letters).InRange) ↔ letters.length < 26 ^ 3 := by
  rw [final_encipher, odometer, Offsets.mk.injEq, Offsets.InRange]
  dsimp only
  omega

/-- After `26 ^ 3` times the letter `A`, the last rotor stands at 26. -/
theorem not_final_encipher :
    Machine.final (encipher fun _ c => c) boot (List.replicate (26 ^ 3) 65) = ⟨0, 0, 26⟩ ∧
      Machine.final (encipher fun _ c => c) boot (List.replicate (26 ^ 3) 65) ≠
        odometer (List.replicate (26 ^ 3) (65 : UInt8)).length := by
  rw [final_encipher, List.length_replicate]
  exact ⟨by norm_num, by norm_num [odometer]⟩

end Enigma

namespace Helpful

open Enigma

variable {m : Memory}

/-! ### Runs of the console -/

/-- **The tables are not left for the letter that the chain enciphers**, if it does. -/
def CipherInTables (s : State) : Prop :=
  Encrypts s → isLetter s.flags.c_ → InTables s.vars.rotorOffsets (UInt8.ofNat s.flags.c_)

/-- The letter that the chain enciphers is an upper-case one, and no rotor is turned too far for
it on its way back. -/
def CipherStays (s : State) : Prop :=
  Encrypts s → isLetter s.flags.c_ → StaysIn s.vars.rotorOffsets (UInt8.ofNat s.flags.c_)

instance (s : State) : Decidable (CipherInTables s) := inferInstanceAs (Decidable (_ → _ → _))
instance (s : State) : Decidable (CipherStays s) := inferInstanceAs (Decidable (_ → _ → _))

/-- A round leaves the rotors alone. -/
theorem rotorOffsets_code {s : State} {c : ℕ} {p : State × List Out} (hp : code m s c = some p) :
    p.1.vars.rotorOffsets = s.vars.rotorOffsets := by
  rcases code_cases hp with
    ⟨-, ⟨-, -, _, hvars⟩ | ⟨-, -, hvars⟩ | ⟨-, hvars⟩⟩ | ⟨-, q, hq, rfl⟩
  · rw [hvars]
  · rw [hvars]
  · rw [hvars]
  · show q.2.1.rotorOffsets = s.vars.rotorOffsets
    rcases edit_cases hq with ⟨-, rfl⟩ | ⟨-, rfl⟩ | ⟨-, rfl⟩ | ⟨-, rfl⟩ | ⟨-, hq⟩
    · rfl
    · unfold copy
      rfl
    · rfl
    · rfl
    · obtain ⟨a, ha⟩ := typed_frame hq
      rw [ha]

theorem cipher_eq (m : Memory) (g : Input) (v : Vars) (c : UInt8) :
    cipher m g v c = encipher (fun _ => m.cipher g v) v.rotorOffsets c := rfl

/-- The chain turns the rotors by a letter, or leaves them alone. -/
theorem rotorOffsets_deferred {s : State} {q : Input × Vars × List Out}
    (hq : deferred m s = some q) :
    q.2.1.rotorOffsets = s.vars.rotorOffsets ∨ q.2.1.rotorOffsets = s.vars.rotorOffsets.step := by
  rcases deferred_cases hq with ⟨-, p, -, rfl⟩ | ⟨-, rfl⟩ | ⟨-, rfl⟩ | ⟨-, -, -, -, hvars⟩
  · exact .inl rfl
  · exact .inl rfl
  · show (encrypt m s.input s.vars s.flags.c_).1.rotorOffsets = _ ∨
      (encrypt m s.input s.vars s.flags.c_).1.rotorOffsets = _
    unfold encrypt
    split
    · exact .inl rfl
    · split
      · -- the rotors turn also where the letter leaves the tables
        right
        show (cipher m s.input s.vars (UInt8.ofNat s.flags.c_)).1 = _
        rw [cipher_eq, fst_encipher]
      · exact .inl rfl
  · exact .inl (by rw [hvars])

/-- **The rotor positions of the console**: those after any number of letters. -/
theorem rotorOffsets_of_reachable {s : State} (h : Reachable m s) :
    ∃ n, s.vars.rotorOffsets = Offsets.step^[n] boot := by
  refine invariant_of_reachable (I := fun _ v => ∃ n, v.rotorOffsets = Offsets.step^[n] boot)
    ?_ ?_ (fun g v rd killed hv => hv) ⟨0, rfl⟩ h
  · rintro s c p ⟨n, hn⟩ hp
    exact ⟨n, (rotorOffsets_code hp).trans hn⟩
  · rintro s q ⟨n, hn⟩ hq
    rcases rotorOffsets_deferred hq with hsame | hstep
    · exact ⟨n, hsame.trans hn⟩
    · exact ⟨n + 1, by rw [hstep, hn, Function.iterate_succ_apply']⟩

end Helpful
end Console
end Xv6

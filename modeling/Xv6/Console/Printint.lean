import Xv6.Basic

/-!
# Printing a number

`printint` of `console.c` and `printint` of `printf.c`, which differ in the digits above nine.
Both store the digits in a buffer of 16 bytes, the last one first.

* `printint` — the code; `Console.printint`, `Printf.printint` — the two functions.
* `parse`, `Canonical` — numerals, and the one of a number.
* `digitLoop_eq` — the loop stores the digits of its number.
* `printint_canonical` — **what is printed is the numeral of the number**, and it has room in
  the buffer.
-/

namespace Xv6
namespace Printint

/-! ### The code -/

/-- `buf[i++] = c`, in a buffer of 16 bytes of which `i` are stored. -/
def store (buf : List UInt8) (c : UInt8) : Option (List UInt8) :=
  if buf.length < 16 then some (buf ++ [c]) else none

/-- The loop that stores the digits of `x`.  It leaves the buffer before its rounds run out. -/
def digitLoop (digits : List UInt8) (base : ℕ) : ℕ → ℕ → List UInt8 → Option (List UInt8)
  | 0, _, _ => none
  | n + 1, x, buf => do
      let c ← digits[x % base]?
      let buf ← store buf c
      if x / base ≠ 0 then digitLoop digits base n (x / base) buf else return buf

/-- `printint` with some digits: the characters that are put. -/
def printint (digits : List UInt8) (xx : BitVec 32) (base : ℕ) (sign : Bool) :
    Option (List UInt8) := do
  let neg := sign && decide (xx.toInt < 0)
  -- the negation of the least number is itself, and is read as unsigned
  let x := if neg then (-xx).toNat else xx.toNat
  let buf ← digitLoop digits base 17 x []
  let buf ← if neg then store buf 0x2D else some buf
  return buf.reverse

/-- `printint` of `console.c`. -/
def Console.printint : BitVec 32 → ℕ → Bool → Option (List UInt8) :=
  Printint.printint (str "0123456789abcdef")

/-- `printint` of `printf.c`. -/
def Printf.printint : BitVec 32 → ℕ → Bool → Option (List UInt8) :=
  Printint.printint (str "0123456789ABCDEF")

/-! ### Numerals -/

/-- The value of a digit, of either case. -/
def digitValue (c : UInt8) : Option ℕ :=
  if 0x30 ≤ c ∧ c ≤ 0x39 then some (c.toNat - 0x30)
  else if 0x61 ≤ c ∧ c ≤ 0x66 then some (c.toNat - 0x61 + 10)
  else if 0x41 ≤ c ∧ c ≤ 0x46 then some (c.toNat - 0x41 + 10)
  else none

/-- One more digit. -/
def shiftIn (base v : ℕ) (c : UInt8) : Option ℕ := do
  let d ← digitValue c
  if d < base then some (base * v + d) else none

/-- The number of some digits, the first one the highest. -/
def parseNat (base : ℕ) (s : List UInt8) : Option ℕ :=
  if s = [] then none else s.foldlM (shiftIn base) 0

/-- The digits of a numeral, its minus sign left out. -/
def magnitude (s : List UInt8) : List UInt8 := if s.head? = some 0x2D then s.tail else s

/-- The number of a numeral. -/
def parse (base : ℕ) (s : List UInt8) : Option ℤ :=
  (parseNat base (magnitude s)).map fun v : ℕ => if s.head? = some 0x2D then -(v : ℤ) else v

/-- The canonical numeral of a number. -/
structure Canonical (base : ℕ) (v : ℤ) (s : List UInt8) : Prop where
  value : parse base s = some v
  minus : s.head? = some 0x2D ↔ v < 0
  noLeadingZero : (magnitude s).head? = some 0x30 → magnitude s = [0x30]

/-! ### The digits -/

/-- The digits of a number, the lowest one first, and at least one. -/
def digitsOf (base x : ℕ) : List ℕ := if x = 0 then [0] else Nat.digits base x

/-- A table with the digits in their order. -/
def IsDigits (digits : List UInt8) : Prop :=
  ∀ d < 16, digits[d]? = some (digits.getD d 0) ∧ digitValue (digits.getD d 0) = some d

theorem isDigits_console : IsDigits (str "0123456789abcdef") := by unfold IsDigits; decide

theorem isDigits_printf : IsDigits (str "0123456789ABCDEF") := by unfold IsDigits; decide

section Digits

variable {digits : List UInt8} {base x : ℕ}

theorem digitsOf_eq (hbase : 1 < base) (x : ℕ) :
    digitsOf base x = x % base :: if x / base ≠ 0 then digitsOf base (x / base) else [] := by
  rcases Nat.eq_zero_or_pos x with rfl | hpos
  · simp [digitsOf]
  · rw [digitsOf, if_neg hpos.ne', Nat.digits_def' hbase hpos, digitsOf]
    split
    · next h => rfl
    · next h => rw [not_not.mp h, Nat.digits_zero]

theorem digitsOf_lt (hbase : 1 < base) : ∀ d ∈ digitsOf base x, d < base := by
  intro d hd
  rw [digitsOf] at hd
  split at hd
  · rw [List.mem_singleton.mp hd]
    omega
  · exact Nat.digits_lt_base hbase hd

theorem ofDigits_digitsOf (base x : ℕ) : Nat.ofDigits base (digitsOf base x) = x := by
  rw [digitsOf]
  split
  · next h => rw [h, Nat.ofDigits_singleton]
  · exact Nat.ofDigits_digits base x

theorem digitsOf_ne_nil (base x : ℕ) : digitsOf base x ≠ [] := by
  rw [digitsOf]
  split
  · simp
  · next h => exact Nat.digits_ne_nil_iff_ne_zero.mpr h

/-- The highest digit is zero for zero only. -/
theorem digitsOf_eq_zero (h : (digitsOf base x).getLast? = some 0) : digitsOf base x = [0] := by
  rw [digitsOf] at h ⊢
  split
  · rfl
  · next hx =>
    have hlast := Nat.getLast_digit_ne_zero base hx
    rw [if_neg hx, List.getLast?_eq_some_getLast (Nat.digits_ne_nil_iff_ne_zero.mpr hx),
      Option.some.injEq] at h
    exact absurd h hlast

theorem length_digitsOf {n : ℕ} (hbase : 1 < base) (hx : x < base ^ (n + 1)) :
    (digitsOf base x).length ≤ n + 1 := by
  rw [digitsOf]
  split
  · exact Nat.succ_le_succ (Nat.zero_le n)
  · exact (Nat.digits_length_le_iff hbase x).mpr hx

/-- **The loop stores the digits.**  There is a round and a byte for each of them. -/
theorem digitLoop_eq (hdigits : IsDigits digits) (hbase : 1 < base) (hmax : base ≤ 16) :
    ∀ (rounds n x : ℕ) (buf : List UInt8), n < rounds → x < base ^ (n + 1) →
    buf.length + n < 16 →
    digitLoop digits base rounds x buf =
      some (buf ++ (digitsOf base x).map fun d => digits.getD d 0) := by
  intro rounds
  induction rounds with
  | zero => intro n x buf hn; omega
  | succ rounds ih =>
    intro n x buf hn hx hlen
    have hd : x % base < 16 := (Nat.mod_lt x (by omega)).trans_le hmax
    rw [digitLoop, (hdigits _ hd).1, Option.bind_eq_bind, Option.bind_some, store,
      if_pos (by omega), Option.bind_eq_bind, Option.bind_some, digitsOf_eq hbase, List.map_cons]
    split
    · next hmore =>
      -- the number has another digit, for which there is room
      obtain ⟨n, rfl⟩ : ∃ m, n = m + 1 := by
        refine Nat.exists_eq_succ_of_ne_zero fun hzero => hmore (Nat.div_eq_of_lt ?_)
        rw [hzero, Nat.zero_add, pow_one] at hx
        exact hx
      have hdiv : x / base < base ^ (n + 1) := by
        rw [Nat.div_lt_iff_lt_mul (by omega), ← pow_succ]
        exact hx
      rw [ih n (x / base) _ (by omega) hdiv (by simp; omega), List.append_assoc]
      rfl
    · rfl

/-! ### What is printed -/

/-- The digits that are put, the highest one first. -/
def put (digits : List UInt8) (base x : ℕ) : List UInt8 :=
  ((digitsOf base x).map fun d => digits.getD d 0).reverse

theorem foldlM_put (hdigits : IsDigits digits) (hmax : base ≤ 16) (ds : List ℕ)
    (hds : ∀ d ∈ ds, d < base) :
    ((ds.map fun d => digits.getD d 0).reverse).foldlM (shiftIn base) 0 =
      some (Nat.ofDigits base ds) := by
  induction ds with
  | nil => rfl
  | cons d ds ih =>
    have hd := hds d List.mem_cons_self
    rw [List.map_cons, List.reverse_cons, List.foldlM_append,
      ih fun e he => hds e (List.mem_cons_of_mem d he), Option.bind_eq_bind, Option.bind_some,
      List.foldlM_cons, shiftIn, (hdigits d (hd.trans_le hmax)).2, Option.bind_eq_bind,
      Option.bind_some, if_pos hd, Nat.ofDigits_cons, Nat.add_comm]
    rfl

theorem parseNat_put (hdigits : IsDigits digits) (hbase : 1 < base) (hmax : base ≤ 16) (x : ℕ) :
    parseNat base (put digits base x) = some x := by
  have hne : put digits base x ≠ [] := by
    rw [put, Ne, List.reverse_eq_nil_iff, List.map_eq_nil_iff]
    exact digitsOf_ne_nil base x
  rw [parseNat, if_neg hne, put, foldlM_put hdigits hmax _ (digitsOf_lt hbase), ofDigits_digitsOf]

/-- The character put first is that of the highest digit. -/
theorem head?_put (digits : List UInt8) (base x : ℕ) :
    (put digits base x).head? = (digitsOf base x).getLast?.map fun d => digits.getD d 0 := by
  rw [put, List.head?_reverse, List.getLast?_map]

theorem exists_head?_put (hdigits : IsDigits digits) (hbase : 1 < base) (hmax : base ≤ 16)
    (x : ℕ) : ∃ c d, (put digits base x).head? = some c ∧
      (digitsOf base x).getLast? = some d ∧ digitValue c = some d := by
  have hlast := List.getLast?_eq_some_getLast (digitsOf_ne_nil base x)
  refine ⟨_, _, by rw [head?_put, hlast]; rfl, hlast, (hdigits _ ?_).2⟩
  exact (digitsOf_lt hbase _ (List.getLast_mem _)).trans_le hmax

/-- No digit is a minus sign. -/
theorem head?_put_ne (hdigits : IsDigits digits) (hbase : 1 < base) (hmax : base ≤ 16) (x : ℕ) :
    (put digits base x).head? ≠ some 0x2D := by
  obtain ⟨c, d, hc, -, hvalue⟩ := exists_head?_put hdigits hbase hmax x
  rintro hminus
  rw [hc, Option.some.injEq] at hminus
  rw [hminus] at hvalue
  cases hvalue

theorem put_eq_zero (hdigits : IsDigits digits) (hbase : 1 < base) (hmax : base ≤ 16)
    (h : (put digits base x).head? = some 0x30) : put digits base x = [0x30] := by
  obtain ⟨c, d, hc, hd, hvalue⟩ := exists_head?_put hdigits hbase hmax x
  rw [hc, Option.some.injEq] at h
  have hzero : d = 0 := by
    rw [h] at hvalue
    exact (Option.some.inj hvalue).symm
  have hall := digitsOf_eq_zero (hzero ▸ hd)
  rw [head?_put, hd, Option.map_some, Option.some.injEq, hzero, h] at hc
  rw [put, hall, List.map_singleton, List.reverse_singleton, hc]

theorem canonical_put (hdigits : IsDigits digits) (hbase : 1 < base) (hmax : base ≤ 16) (x : ℕ) :
    Canonical base x (put digits base x) := by
  have hhead := head?_put_ne hdigits hbase hmax x
  have hmag : magnitude (put digits base x) = put digits base x := if_neg hhead
  refine ⟨?_, iff_of_false hhead (by omega), fun hzero => ?_⟩
  · rw [parse, hmag, parseNat_put hdigits hbase hmax, Option.map_some, if_neg hhead]
  · rw [hmag] at hzero ⊢
    exact put_eq_zero hdigits hbase hmax hzero

theorem canonical_minus (hdigits : IsDigits digits) (hbase : 1 < base) (hmax : base ≤ 16)
    (hx : 0 < x) : Canonical base (-x) (0x2D :: put digits base x) := by
  have hhead : (0x2D :: put digits base x).head? = some 0x2D := rfl
  have hmag : magnitude (0x2D :: put digits base x) = put digits base x := if_pos hhead
  refine ⟨?_, iff_of_true hhead (by omega), fun hzero => ?_⟩
  · rw [parse, hmag, parseNat_put hdigits hbase hmax, Option.map_some, if_pos hhead]
  · rw [hmag] at hzero ⊢
    exact put_eq_zero hdigits hbase hmax hzero

/-- A number that is negative, and the number that is stored for it. -/
theorem toInt_of_neg {xx : BitVec 32} (h : xx.toInt < 0) :
    0 < (-xx).toNat ∧ xx.toInt = -((-xx).toNat : ℤ) := by
  have hlt := xx.isLt
  rw [BitVec.toInt_eq_toNat_cond] at h ⊢
  rw [BitVec.toNat_neg]
  split at h <;> split <;> omega

theorem toInt_of_nonneg {xx : BitVec 32} (h : ¬ xx.toInt < 0) : xx.toInt = xx.toNat := by
  have hlt := xx.isLt
  rw [BitVec.toInt_eq_toNat_cond] at h ⊢
  split at h <;> omega

/-- `printint` with the digits of a table, in a base in which ten digits are enough. -/
theorem printint_of_isDigits (hdigits : IsDigits digits) (hbase : 1 < base) (hmax : base ≤ 16)
    (hten : 2 ^ 32 ≤ base ^ 10) (xx : BitVec 32) (sign : Bool) :
    ∃ s, printint digits xx base sign = some s ∧
      Canonical base (if sign then xx.toInt else xx.toNat) s := by
  have hloop : ∀ x < 2 ^ 32, digitLoop digits base 17 x [] =
      some ((digitsOf base x).map fun d => digits.getD d 0) := fun x hx => by
    rw [digitLoop_eq hdigits hbase hmax 17 9 x [] (by omega) (hx.trans_le hten) (by simp),
      List.nil_append]
  rw [printint]
  by_cases hneg : (sign && decide (xx.toInt < 0)) = true
  · have hneg' := hneg
    rw [Bool.and_eq_true, decide_eq_true_eq] at hneg'
    obtain ⟨hpos, hvalue⟩ := toInt_of_neg hneg'.2
    have hlen := length_digitsOf (n := 9) hbase ((-xx).isLt.trans_le hten)
    -- the sign is stored behind the digits, and put before them
    refine ⟨0x2D :: put digits base (-xx).toNat, ?_, ?_⟩
    · rw [if_pos hneg, hloop _ (-xx).isLt, Option.bind_eq_bind, Option.bind_some, if_pos hneg,
        store, if_pos (by rw [List.length_map]; omega), Option.bind_some]
      dsimp only
      rw [List.reverse_append]
      rfl
    · rw [if_pos hneg'.1, hvalue]
      exact canonical_minus hdigits hbase hmax hpos
  · refine ⟨put digits base xx.toNat, ?_, ?_⟩
    · rw [if_neg hneg, hloop _ xx.isLt, Option.bind_eq_bind, Option.bind_some, if_neg hneg]
      rfl
    · have hvalue : (if sign then xx.toInt else (xx.toNat : ℤ)) = xx.toNat := by
        split
        · next hsign =>
          rw [hsign, Bool.true_and, decide_eq_true_eq] at hneg
          exact toInt_of_nonneg hneg
        · rfl
      rw [hvalue]
      exact canonical_put hdigits hbase hmax _

end Digits

/-- **What is printed is the numeral of the number.**  In base 10 or 16, `printint` of the
console and `printint` of the library store every number in their 16 bytes, and put its canonical
numeral: with a minus sign if it is read as signed and negative, and with no leading zeros. -/
theorem printint_canonical (xx : BitVec 32) (base : ℕ) (hbase : base = 10 ∨ base = 16)
    (sign : Bool) :
    (∃ s, Console.printint xx base sign = some s ∧
      Canonical base (if sign then xx.toInt else xx.toNat) s) ∧
    ∃ s, Printf.printint xx base sign = some s ∧
      Canonical base (if sign then xx.toInt else xx.toNat) s := by
  have hone : 1 < base := by omega
  have hmax : base ≤ 16 := by omega
  have hten : 2 ^ 32 ≤ base ^ 10 := by
    rcases hbase with rfl | rfl <;> norm_num
  exact ⟨printint_of_isDigits isDigits_console hone hmax hten xx sign,
    printint_of_isDigits isDigits_printf hone hmax hten xx sign⟩

/-- The least number. -/
theorem printint_canonical_least :
    (∃ s, Console.printint 0x80000000 10 true = some s ∧
      Canonical 10 (if true then (0x80000000 : BitVec 32).toInt
        else (0x80000000 : BitVec 32).toNat) s) ∧
    ∃ s, Printf.printint 0x80000000 10 true = some s ∧
      Canonical 10 (if true then (0x80000000 : BitVec 32).toInt
        else (0x80000000 : BitVec 32).toNat) s :=
  printint_canonical 0x80000000 10 (.inl rfl) true

example : Console.printint 0x80000000 10 true = some (str "-2147483648") := by decide

end Printint
end Xv6

import Xv6.Kbd.ShiftWord
import Xv6.Lib.Machine

/-!
# The modifier keys

Which of the Shift, Ctrl and Alt keys are down, and what the shift word of the stock
`kbdgetc` knows of it.  A keyboard sends the code of a key when it goes down, again
while it is held, and its break code when it goes up; an extended key has the `E0`
prefix before each of its codes.

* `Key`, `Scan`, `Scan.bytes` — the physical keys and their codes.
* `step`, `WellFormed` — the decoder beside the keys that are down.
* `Tracks` — SHIFT, CTL and ALT tell whether one of their two keys is down.
* `has_bytes` — one bit of the word behind a code.
* `tracks_iff_twinUp` — **the word tracks the keys exactly as long as no modifier key is
  released while its twin is down.**
-/

namespace Xv6
namespace Kbd
namespace Modifiers

/-! ### Keys and codes -/

/-- A physical key.  The break code of a key is not the prefix. -/
structure Key where
  extended : Bool
  code : UInt8
  lt : code < 0x80
  break_ne : code ≠ 0x60
  deriving DecidableEq

def lshift : Key := ⟨false, 0x2A, by decide, by decide⟩
def rshift : Key := ⟨false, 0x36, by decide, by decide⟩
def lctl : Key := ⟨false, 0x1D, by decide, by decide⟩
def rctl : Key := ⟨true, 0x1D, by decide, by decide⟩
def lalt : Key := ⟨false, 0x38, by decide, by decide⟩
def ralt : Key := ⟨true, 0x38, by decide, by decide⟩

/-- The bits of the modifiers, each with the two keys that hold it. -/
def modifiers : List (UInt32 × Key × Key) :=
  [(Mod.shift, lshift, rshift), (Mod.ctl, lctl, rctl), (Mod.alt, lalt, ralt)]

/-- A complete code: of a key that goes down or is held, or of one that goes up. -/
inductive Scan
  | make (k : Key)
  | brk (k : Key)
  deriving DecidableEq

def Scan.bytes : Scan → List UInt8
  | .make k => (if k.extended then [0xE0] else []) ++ [k.code]
  | .brk k => (if k.extended then [0xE0] else []) ++ [k.code ||| 0x80]

/-- The shift word, and the keys that are down. -/
structure State where
  shift : UInt32
  down : Key → Bool

/-- A complete code comes in. -/
def step (s : State) (i : Scan) : State × Unit :=
  (⟨Machine.final Stock.scan s.shift i.bytes,
    match i with
    | .make k => Function.update s.down k true
    | .brk k => Function.update s.down k false⟩, ())

/-- At boot no key is down. -/
def boot : State := ⟨0, fun _ => false⟩

/-- Only a key that is down goes up. -/
def WellFormed (s : State) : Scan → Prop
  | .make _ => True
  | .brk k => s.down k = true

instance (s : State) : ∀ i, Decidable (WellFormed s i)
  | .make _ => inferInstanceAs (Decidable True)
  | .brk _ => inferInstanceAs (Decidable (_ = _))

/-- The bits of the modifiers tell which are down, and the decoder is between two codes. -/
structure Tracks (s : State) : Prop where
  bits : ∀ m a b, (m, a, b) ∈ modifiers → has s.shift m = (s.down a || s.down b)
  e0esc : has s.shift Mod.e0esc = false

/-- No modifier key goes up while its twin is down. -/
def TwinUp (s : State) : Scan → Prop
  | .make _ => True
  | .brk k => ∀ p ∈ modifiers, (k = p.2.1 → s.down p.2.2 = false) ∧
      (k = p.2.2 → s.down p.2.1 = false)

/-! ### The bits behind a code -/

theorem isBit_alt : IsBit Mod.alt := ⟨2, by decide⟩

theorem isBit_of_mem {m : UInt32} {a b : Key} (h : (m, a, b) ∈ modifiers) : IsBit m := by
  simp only [modifiers, List.mem_cons, Prod.mk.injEq, List.not_mem_nil, or_false] at h
  rcases h with ⟨rfl, -⟩ | ⟨rfl, -⟩ | ⟨rfl, -⟩
  · exact isBit_shift
  · exact isBit_ctl
  · exact isBit_alt

/-- The index of a key in the tables. -/
def Key.index (k : Key) : UInt8 := if k.extended then k.code ||| 0x80 else k.code

/-- A key holds a bit of a modifier if it is one of the two. -/
theorem has_shiftcode_index {m : UInt32} {a b : Key} (h : (m, a, b) ∈ modifiers) (k : Key) :
    has (shiftcode k.index) m = (decide (k = a) || decide (k = b)) := by
  obtain ⟨ext, code, hlt, hne⟩ := k
  have hkey : ∀ x : Key, (⟨ext, code, hlt, hne⟩ : Key) = x ↔ ext = x.extended ∧ code = x.code := by
    rintro ⟨ext', code', -, -⟩
    rw [Key.mk.injEq]
  simp only [modifiers, List.mem_cons, Prod.mk.injEq, List.not_mem_nil, or_false] at h
  have hall : ∀ d : UInt8, d < 0x80 → ∀ e : Bool,
      has (shiftcode (if e then d ||| 0x80 else d)) Mod.shift =
          (decide (e = false ∧ d = 0x2A) || decide (e = false ∧ d = 0x36)) ∧
        has (shiftcode (if e then d ||| 0x80 else d)) Mod.ctl =
          (decide (e = false ∧ d = 0x1D) || decide (e = true ∧ d = 0x1D)) ∧
        has (shiftcode (if e then d ||| 0x80 else d)) Mod.alt =
          (decide (e = false ∧ d = 0x38) || decide (e = true ∧ d = 0x38)) :=
    forall_byte _ (by decide +kernel)
  obtain ⟨hshift, hctl, halt⟩ := hall code hlt ext
  rcases h with ⟨rfl, rfl, rfl⟩ | ⟨rfl, rfl, rfl⟩ | ⟨rfl, rfl, rfl⟩
  · simp only [hkey]
    exact hshift
  · simp only [hkey]
    exact hctl
  · simp only [hkey]
    exact halt

/-- No key toggles a modifier, and no modifier is the escape. -/
theorem has_of_mem {m : UInt32} {a b : Key} (h : (m, a, b) ∈ modifiers) :
    (∀ d, has (togglecode d) m = false) ∧ has Mod.e0esc m = false := by
  have hall : ∀ d, has (togglecode d) Mod.shift = false ∧ has (togglecode d) Mod.ctl = false ∧
      has (togglecode d) Mod.alt = false := forall_byte _ (by decide +kernel)
  simp only [modifiers, List.mem_cons, Prod.mk.injEq, List.not_mem_nil, or_false] at h
  rcases h with ⟨rfl, -⟩ | ⟨rfl, -⟩ | ⟨rfl, -⟩
  · exact ⟨fun d => (hall d).1, by decide⟩
  · exact ⟨fun d => (hall d).2.1, by decide⟩
  · exact ⟨fun d => (hall d).2.2, by decide⟩

theorem make_byte (k : Key) : k.code ≠ 0xE0 ∧ k.code &&& 0x80 = 0 := by
  have hall : ∀ d : UInt8, d < 0x80 → d ≠ 0xE0 ∧ d &&& 0x80 = 0 := forall_byte _ (by decide +kernel)
  exact hall k.code k.lt

theorem break_byte (k : Key) : (k.code ||| 0x80) ≠ 0xE0 ∧ (k.code ||| 0x80) &&& 0x80 ≠ 0 ∧
    (k.code ||| 0x80) &&& 0x7F = k.code := by
  have hall : ∀ d : UInt8, d < 0x80 → d ≠ 0x60 → (d ||| 0x80) ≠ 0xE0 ∧
      (d ||| 0x80) &&& 0x80 ≠ 0 ∧ (d ||| 0x80) &&& 0x7F = d := forall_byte _ (by decide +kernel)
  exact hall k.code k.lt k.break_ne

/-- Behind a complete code the decoder has no escape pending. -/
theorem e0esc_bytes (s : UInt32) (i : Scan) :
    has (Machine.final Stock.scan s i.bytes) Mod.e0esc = false := by
  cases i with
  | make k =>
    rw [Scan.bytes, Machine.final_append]
    exact (Stock.has_scan_e0esc _ _).trans (beq_eq_false_iff_ne.mpr (make_byte k).1)
  | brk k =>
    rw [Scan.bytes, Machine.final_append]
    exact (Stock.has_scan_e0esc _ _).trans (beq_eq_false_iff_ne.mpr (break_byte k).1)

section Bit

variable {m : UInt32} {a b : Key} {s : UInt32}

/-- The word behind the prefix of a key, if it has one. -/
theorem has_prefix (hm : (m, a, b) ∈ modifiers) (he : has s Mod.e0esc = false) (k : Key) :
    has (Machine.final Stock.scan s (if k.extended then [0xE0] else [])) m = has s m ∧
      has (Machine.final Stock.scan s (if k.extended then [0xE0] else [])) Mod.e0esc =
        k.extended := by
  split
  · next hext =>
    refine ⟨?_, by rw [hext]; exact Stock.has_scan_e0esc _ _⟩
    show has (s ||| Mod.e0esc) m = _
    rw [has_or, (has_of_mem hm).2, Bool.or_false]
  · next hext => exact ⟨rfl, by rw [Bool.eq_false_of_not_eq_true hext]; exact he⟩

/-- **One bit of the word behind a code.** -/
theorem has_bytes (hm : (m, a, b) ∈ modifiers) (he : has s Mod.e0esc = false) (i : Scan) :
    has (Machine.final Stock.scan s i.bytes) m =
      match i with
      | .make k => has s m || decide (k = a) || decide (k = b)
      | .brk k => has s m && !(decide (k = a) || decide (k = b)) := by
  have hbit := isBit_of_mem hm
  obtain ⟨htoggle, hesc⟩ := has_of_mem hm
  cases i with
  | make k =>
    obtain ⟨h0, hmake⟩ := make_byte k
    obtain ⟨hs, hext⟩ := has_prefix hm he k
    rw [Scan.bytes, Machine.final_append]
    show has (Stock.scan _ k.code).1 m = (has s m || _ || _)
    rw [Stock.scan_press _ h0 hmake, pressWord, has_latch hbit, htoggle, Bool.xor_false,
      Bool.or_assoc, ← has_shiftcode_index hm, ← hs, unescape, hext, Key.index]
    split
    · rw [hbit.has_and_not, hesc, Bool.not_false, Bool.and_true]
    · rfl
  | brk k =>
    obtain ⟨h0, hbreak, hlow⟩ := break_byte k
    obtain ⟨hs, hext⟩ := has_prefix hm he k
    rw [Scan.bytes, Machine.final_append]
    show has (Stock.scan _ (k.code ||| 0x80)).1 m = (has s m && _)
    rw [Stock.scan_release _ h0 hbreak, has_keyRelease hbit, hesc, Bool.or_false, hext, hlow, hs,
      ← has_shiftcode_index hm, Key.index]

end Bit

/-! ### The keys that are down -/

theorem tracks_boot : Tracks boot := by
  refine ⟨fun m a b hm => ?_, by decide⟩
  show has 0 m = (false || false)
  rw [has, UInt32.zero_and]
  rfl

/-- A pair of keys that hold one bit are not one key. -/
theorem ne_of_mem {m : UInt32} {a b : Key} (h : (m, a, b) ∈ modifiers) : a ≠ b := by
  have hall : ∀ p ∈ modifiers, p.2.1 ≠ p.2.2 := by decide
  exact hall _ h

/-- **One code** leaves a word that tracks the keys, unless it lets go of a modifier key
whose twin is down. -/
theorem tracks_step_iff {s : State} (h : Tracks s) (i : Scan) :
    Tracks (step s i).1 ↔ TwinUp s i := by
  have he : has (step s i).1.shift Mod.e0esc = false := e0esc_bytes s.shift i
  cases i with
  | make k =>
    refine iff_of_true ⟨fun m a b hm => ?_, he⟩ trivial
    have hbit : has (step s (.make k)).1.shift m = _ := has_bytes hm h.e0esc (.make k)
    rw [hbit, h.bits m a b hm]
    show _ = (Function.update s.down k true a || Function.update s.down k true b)
    rw [Function.update_apply, Function.update_apply]
    rcases eq_or_ne k a with rfl | ha
    · simp
    · rcases eq_or_ne k b with rfl | hb
      · simp
      · simp [ha, hb, ha.symm, hb.symm]
  | brk k =>
    have hbit : ∀ m a b, (m, a, b) ∈ modifiers → has (step s (.brk k)).1.shift m =
        ((s.down a || s.down b) && !(decide (k = a) || decide (k = b))) := by
      intro m a b hm
      rw [← h.bits m a b hm]
      exact has_bytes hm h.e0esc (.brk k)
    have hdown : ∀ a, (step s (.brk k)).1.down a = if a = k then false else s.down a :=
      fun a => Function.update_apply s.down k false a
    have hiff : ∀ m a b, (m, a, b) ∈ modifiers → (has (step s (.brk k)).1.shift m =
        ((step s (.brk k)).1.down a || (step s (.brk k)).1.down b) ↔
          (k = a → s.down b = false) ∧ (k = b → s.down a = false)) := by
      intro m a b hm
      have hne := ne_of_mem hm
      rw [hbit m a b hm, hdown, hdown]
      rcases eq_or_ne k a with rfl | ha
      · simp [hne, hne.symm]
      · rcases eq_or_ne k b with rfl | hb
        · simp [hne, ha]
        · simp [ha, hb, ha.symm, hb.symm]
    constructor
    · intro htracks p hp
      exact (hiff p.1 p.2.1 p.2.2 hp).mp (htracks.bits p.1 p.2.1 p.2.2 hp)
    · intro htwin
      exact ⟨fun m a b hm => (hiff m a b hm).mpr (htwin (m, a, b) hm), he⟩

/-- **When the word tracks the keys.**  For every stream of codes, well-formed or not:
behind each of its codes SHIFT, CTL and ALT are set exactly when one of their two keys is
down, and E0ESC is clear, exactly if no modifier key is released while its twin is down. -/
theorem tracks_iff_twinUp (codes : List Scan) :
    (∀ pre, pre <+: codes → Tracks (Machine.final step boot pre)) ↔
      Machine.Along step TwinUp boot codes := by
  rw [Machine.forall_prefix_iff_along, and_iff_right tracks_boot]
  refine Machine.along_congr Tracks (fun s i _ htracks => ?_) (fun s i hs => ?_) codes boot
    tracks_boot
  · exact htracks
  · exact tracks_step_iff hs i

/-- The left Shift key goes up while the right one is down: the word has no Shift. -/
theorem not_tracks_both_shifts :
    ¬ ∀ codes, Machine.Along step WellFormed boot codes →
      ∀ pre, pre <+: codes → Tracks (Machine.final step boot pre) := by
  intro h
  have htracks := h [.make lshift, .make rshift, .brk lshift] (by decide) _ List.prefix_rfl
  have hbit := htracks.bits Mod.shift lshift rshift (by decide)
  exact absurd hbit (by decide)

end Modifiers
end Kbd
end Xv6

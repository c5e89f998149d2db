import Xv6.Kbd.HelpfulReset

/-!
# The case modes of the Helpful driver

Pascal and camel mode are to raise the first letter of each word and no other.  The driver
remembers that a word starts in flags which every later key press clears, that of a Shift key
among them; and it lowers a letter that Shift has already raised.

* `CaseLaw` — what a case mode is for: a law of the codes emitted so far.
* `Word`, `watch` — a monitor of the keys pressed since the word started.
* `caseLaw_iff` — **the typing for which a case mode obeys its law.**
-/

namespace Xv6
namespace Kbd
namespace Helpful

/-! ### The law -/

/-- The two modes that raise the first letter of a word. -/
inductive CaseMode
  | pascal | camel
  deriving DecidableEq

/-- The codes behind which a word starts: in camel mode a space only. -/
def CaseMode.breaks : CaseMode → List ℤ
  | .pascal => [0x20, 0x0A]
  | .camel => [0x20]

/-- The codes of the letters. -/
def upperCode (k : ℤ) : Bool := 0x41 ≤ k && k ≤ 0x5A
def letterCode (k : ℤ) : Bool := upperCode k || (0x61 ≤ k && k ≤ 0x7A)

/-- Whether a word starts, after one more code. -/
def CaseMode.step (mode : CaseMode) (fresh : Bool) (k : ℤ) : Bool :=
  if k ∈ mode.breaks then true else fresh && !letterCode k

/-- Every emitted letter is upper case exactly if it is the first of its word. -/
def CaseLawFrom (mode : CaseMode) (fresh : Bool) (codes : List ℤ) : Prop :=
  ∀ a k b, codes = a ++ k :: b → letterCode k = true →
    (upperCode k = true ↔ a.foldl mode.step fresh = true)

/-- The law of a case mode.  The entry of Pascal mode starts a word. -/
def CaseLaw (mode : CaseMode) (codes : List ℤ) : Prop := CaseLawFrom mode (mode == .pascal) codes

theorem caseLawFrom_nil (mode : CaseMode) (fresh : Bool) : CaseLawFrom mode fresh [] := by
  intro a k b h
  simp at h

/-- The law, one code at a time. -/
theorem caseLawFrom_cons {mode : CaseMode} {fresh : Bool} {k : ℤ} {codes : List ℤ} :
    CaseLawFrom mode fresh (k :: codes) ↔
      (letterCode k = true → (upperCode k = true ↔ fresh = true)) ∧
        CaseLawFrom mode (mode.step fresh k) codes := by
  constructor
  · intro h
    refine ⟨h [] k codes rfl, fun a x b hx => h (k :: a) x b ?_⟩
    rw [hx, List.cons_append]
  · rintro ⟨hk, hrest⟩ a x b hx
    cases a with
    | nil =>
      rw [List.nil_append, List.cons.injEq] at hx
      rw [← hx.1]
      exact hk
    | cons y a =>
      rw [List.cons_append, List.cons.injEq] at hx
      rw [← hx.1]
      exact hrest a x b hx.2

/-! ### The monitor -/

/-- The keys pressed since a word started: a letter, none, or only others. -/
inductive Word
  | inside | start | touched
  deriving DecidableEq

/-- The word after the press of a key with the character `c`. -/
def Word.next (mode : CaseMode) (w : Word) (c : UInt32) : Word :=
  if isLetter c then .inside
  else if c = 0x20 ∨ mode = .pascal ∧ c = 0x0A then .start
  else if w = .start then .touched
  else w

/-- The entry of Pascal mode starts a word, that of camel mode does not. -/
def CaseMode.entry : CaseMode → Word
  | .pascal => .start
  | .camel => .inside

/-- The driver and the monitor. -/
def watch (mode : CaseMode) (p : State × Word) (i : UInt32 × UInt8) : (State × Word) × ℤ :=
  let q := scan p.1 i
  ((q.1, if i.2 &&& 0x80 = 0 then p.2.next mode (keyChar (latch p.1.shift i.2) i.2) else p.2),
    q.2)

/-- A letter is not the first of its word, or no other key was pressed since the word started
and Shift is up. -/
def Unspoilt (p : State × Word) (data : UInt8) : Prop :=
  letterKey data = true → has p.1.shift Mod.ctl = false →
    p.2 = .inside ∨ p.2 = .start ∧ has p.1.shift Mod.shift = false

instance (p : State × Word) (data : UInt8) : Decidable (Unspoilt p data) :=
  inferInstanceAs (Decidable (_ → _ → _))

/-- The release of a key, or the press of a letter, Shift, Space or Enter that is no chord. -/
def Typing (s : State) (data : UInt8) : Prop :=
  (data &&& 0x80 ≠ 0 ∧ data ≠ 0xE0 ∧ data ≠ 0xE2) ∨
    (letterKey data = true ∨ data ∈ [(0x2A : UInt8), 0x36, 0x39, 0x1C]) ∧
      ¬ ModeChord s data ∧ chord s data 0x23 = false

instance (s : State) (data : UInt8) : Decidable (Typing s data) :=
  inferInstanceAs (Decidable (_ ∨ _))

/-! ### Characters and codes -/

/-- What a case mode makes of a character, with its flag. -/
def caseChar (flag : Bool) (c : UInt32) : UInt32 :=
  if flag && isLower c then toUpper c else toLower c

theorem caseChar_of_not_isLetter (flag : Bool) {c : UInt32} (h : isLetter c = false) :
    caseChar flag c = c := by
  rw [isLetter, Bool.or_eq_false_iff] at h
  simp [caseChar, toLower, h.1, h.2]

theorem isLetter_caseChar (flag : Bool) (c : UInt32) : isLetter (caseChar flag c) = isLetter c := by
  unfold caseChar toUpper toLower isLetter isLower isUpper
  grind

theorem isUpper_caseChar (flag : Bool) {c : UInt32} (h : isLetter c = true) :
    isUpper (caseChar flag c) = (flag && isLower c) := by
  unfold isLetter isLower isUpper at h
  unfold caseChar toUpper toLower isLower isUpper
  grind

theorem upperCode_asInt (c : UInt32) : upperCode (asInt c) = isUpper c := by
  have hlt := c.toNat_lt
  rw [Bool.eq_iff_iff, upperCode, isUpper, asInt_eq]
  simp only [Bool.and_eq_true, decide_eq_true_eq, UInt32.le_iff_toNat_le]
  have h41 : (0x41 : UInt32).toNat = 0x41 := rfl
  have h5a : (0x5A : UInt32).toNat = 0x5A := rfl
  omega

theorem letterCode_asInt (c : UInt32) : letterCode (asInt c) = isLetter c := by
  have hlt := c.toNat_lt
  rw [letterCode, upperCode_asInt, isLetter, Bool.or_comm]
  congr 1
  rw [Bool.eq_iff_iff, isLower, asInt_eq]
  simp only [Bool.and_eq_true, decide_eq_true_eq, UInt32.le_iff_toNat_le]
  have h61 : (0x61 : UInt32).toNat = 0x61 := rfl
  have h7a : (0x7A : UInt32).toNat = 0x7A := rfl
  omega

/-- The break codes of a case mode among the codes of characters. -/
theorem mem_breaks_asInt {mode : CaseMode} {c : UInt32} :
    asInt c ∈ mode.breaks ↔ c = 0x20 ∨ mode = .pascal ∧ c = 0x0A := by
  have h20 : asInt c = 0x20 ↔ c = 0x20 := by
    rw [← asInt_inj, show asInt 0x20 = 0x20 by decide]
  have h0a : asInt c = 0x0A ↔ c = 0x0A := by
    rw [← asInt_inj, show asInt 0x0A = 0x0A by decide]
  cases mode with
  | pascal => simp [CaseMode.breaks, h20, h0a]
  | camel => simp [CaseMode.breaks, h20]

/-! ### The driver in a case mode -/

/-- The flag that a word starts. -/
def State.flag (mode : CaseMode) (s : State) : Bool :=
  match mode with
  | .pascal => s.spacePressed || s.newLinePressed
  | .camel => s.spacePressed

/-- One case mode is on, the other modes and CAPSLOCK are off, and no `E0` is pending. -/
structure InMode (mode : CaseMode) (s : State) : Prop where
  pascal : s.pascalCase = (mode == .pascal)
  camel : s.camelCase = (mode == .camel)
  snake : s.snakeCase = false
  encryption : s.encryptionMode = false
  devil : s.devilMode = false
  dvorak : s.isDvorak = false
  sticky : s.skEnabled = false
  caps : has s.shift Mod.capslock = false
  plain : has s.shift Mod.e0esc = false

theorem caseModes_inMode {mode : CaseMode} {s : State} (hs : InMode mode s) (c : UInt32) :
    caseModes s c = caseChar (s.flag mode) c := by
  cases mode with
  | pascal => rw [caseModes, hs.pascal]; rfl
  | camel => rw [caseModes, hs.pascal, hs.camel]; rfl

/-- The passes in a case mode. -/
theorem passes_inMode {mode : CaseMode} {s : State} (hs : InMode mode s) (data : UInt8)
    (c : UInt32) :
    (passes s data c).2 = asInt (caseChar (s.flag mode) c) ∧
      InMode mode (passes s data c).1 ∧
      (passes s data c).1.flag mode = decide (c = 0x20 ∨ mode = .pascal ∧ c = 0x0A) := by
  have hstate : passes s data c =
      ({ s with spacePressed := caseChar (s.flag mode) c == 0x20,
                newLinePressed := caseChar (s.flag mode) c == 0x0A,
                upKeyUsed := s.upKeyUsed && caseChar (s.flag mode) c != 0x0A },
        asInt (caseChar (s.flag mode) c)) := by
    rw [passes, if_neg (by rw [hs.devil]; decide), if_neg (by rw [hs.encryption]; decide),
      caseModes_inMode hs]
    simp only [spacePass, newLinePass, dvorakPass, capsPass, stickyPass, hs.snake, hs.dvorak,
      hs.sticky, hs.caps, Bool.false_eq_true, if_false, Bool.and_false, Bool.false_and,
      Bool.not_false]
  rw [hstate]
  refine ⟨rfl, ⟨hs.pascal, hs.camel, hs.snake, hs.encryption, hs.devil, hs.dvorak, hs.sticky,
    hs.caps, hs.plain⟩, ?_⟩
  -- a letter is no word start, and any other character stays what it is
  have hstart : ∀ x, isLetter x = false → (caseChar (s.flag mode) c == x) = decide (c = x) := by
    intro x hx
    rw [Bool.eq_iff_iff, beq_iff_eq, decide_eq_true_eq]
    cases hc : isLetter c with
    | false => rw [caseChar_of_not_isLetter _ hc]
    | true =>
      have hc' := (isLetter_caseChar (s.flag mode) c).trans hc
      refine iff_of_false ?_ ?_
      · rintro rfl
        rw [hx] at hc'
        contradiction
      · rintro rfl
        rw [hx] at hc
        contradiction
  cases mode with
  | pascal =>
    show ((_ == _) || (_ == _)) = _
    rw [hstart 0x20 (by decide), hstart 0x0A (by decide)]
    simp
  | camel =>
    show (_ == _) = _
    rw [hstart 0x20 (by decide)]
    simp

/-- The keys of `Typing` hold and toggle neither CAPSLOCK nor the escape. -/
theorem latch_typing (w : UInt32) {data : UInt8}
    (h : letterKey data = true ∨ data ∈ [(0x2A : UInt8), 0x36, 0x39, 0x1C]) :
    has (latch w data) Mod.capslock = has w Mod.capslock ∧
      has (latch w data) Mod.e0esc = has w Mod.e0esc ∧ data &&& 0x80 = 0 := by
  have hall : ∀ d : UInt8, letterKey d = true ∨ d ∈ [(0x2A : UInt8), 0x36, 0x39, 0x1C] →
      has (shiftcode d) Mod.capslock = false ∧ has (togglecode d) Mod.capslock = false ∧
        has (shiftcode d) Mod.e0esc = false ∧ has (togglecode d) Mod.e0esc = false ∧
        d &&& 0x80 = 0 := by
    intro d
    exact forall_byte (fun d => letterKey d = true ∨ d ∈ [(0x2A : UInt8), 0x36, 0x39, 0x1C] →
      has (shiftcode d) Mod.capslock = false ∧ has (togglecode d) Mod.capslock = false ∧
        has (shiftcode d) Mod.e0esc = false ∧ has (togglecode d) Mod.e0esc = false ∧
        d &&& 0x80 = 0) (by decide +kernel) d
  obtain ⟨h₁, h₂, h₃, h₄, hmake⟩ := hall data h
  refine ⟨?_, ?_, hmake⟩
  · rw [has_latch isBit_capslock, h₁, h₂, Bool.or_false, Bool.xor_false]
  · rw [has_latch isBit_e0esc, h₃, h₄, Bool.or_false, Bool.xor_false]

/-- A letter is lower case in its map exactly if Shift is up. -/
theorem isLower_keyChar {w : UInt32} {d : UInt8} (h : isLetter (keyChar w d) = true) :
    isLower (keyChar w d) = !has w Mod.shift := by
  rw [isLetter_keyChar, Bool.and_eq_true, Bool.not_eq_true'] at h
  obtain ⟨hkey, hctl⟩ := h
  cases hshift : has w Mod.shift with
  | false =>
    rw [keyChar_normal hctl hshift]
    exact hkey
  | true =>
    have hupper : ∀ d, letterKey d = true → isLower (shiftmap d).toUInt32 = false :=
      forall_byte (fun d => letterKey d = true → isLower (shiftmap d).toUInt32 = false)
        (by decide +kernel)
    rw [keyChar_shift hctl hshift]
    exact hupper d hkey

theorem not_break_of_isLetter {mode : CaseMode} {c : UInt32} (h : isLetter c = true) :
    ¬ (c = 0x20 ∨ mode = .pascal ∧ c = 0x0A) := by
  rintro (rfl | ⟨-, rfl⟩)
  · exact absurd h (by decide)
  · exact absurd h (by decide)

/-- What ties the monitor to the driver and to the law. -/
structure Tied (mode : CaseMode) (fresh : Bool) (p : State × Word) : Prop where
  inMode : InMode mode p.1
  flag_eq : p.1.flag mode = (p.2 == .start)
  fresh_eq : fresh = (p.2 != .inside)

/-- **One byte of typing** obeys the law exactly if it is unspoilt. -/
theorem watch_step {mode : CaseMode} {fresh : Bool} {p : State × Word} (hp : Tied mode fresh p)
    (ticks : UInt32) {data : UInt8} (hdata : Typing p.1 data) :
    Tied mode (mode.step fresh (scan p.1 (ticks, data)).2) (watch mode p (ticks, data)).1 ∧
      ((letterCode (scan p.1 (ticks, data)).2 = true →
          (upperCode (scan p.1 (ticks, data)).2 = true ↔ fresh = true)) ↔
        Unspoilt p data) := by
  obtain ⟨s, w⟩ := p
  obtain ⟨hs, hflag, hfresh⟩ := hp
  dsimp only at hs hflag hfresh hdata ⊢
  rcases hdata with ⟨hrel, h0, h2⟩ | ⟨hkey, hno, hH⟩
  · -- a release has the code 0 and leaves the flags alone
    have hcaps : has (keyRelease s.shift data) Mod.capslock = false := by
      rw [has_keyRelease isBit_capslock, hs.caps]; rfl
    have hplain : has (keyRelease s.shift data) Mod.e0esc = false := by
      rw [has_keyRelease isBit_e0esc, hs.plain]; rfl
    have hstep : mode.step fresh 0 = fresh := by
      cases mode with
      | pascal => exact Bool.and_true fresh
      | camel => exact Bool.and_true fresh
    have hunspoilt : Unspoilt (s, w) data := fun hkey => absurd (make_of_letterKey hkey).2 hrel
    rw [watch, scan_release s ticks h0 h2 hrel, hstep, if_neg hrel]
    exact ⟨⟨⟨hs.pascal, hs.camel, hs.snake, hs.encryption, hs.devil, hs.dvorak, hs.sticky, hcaps,
      hplain⟩, hflag, hfresh⟩, iff_of_true (fun h => absurd h Bool.false_ne_true) hunspoilt⟩
  · obtain ⟨hcaps, hplain, hmake⟩ := latch_typing s.shift hkey
    rw [hs.caps] at hcaps
    rw [hs.plain] at hplain
    have hs' : InMode mode (s.withShift (latch s.shift data)) :=
      ⟨hs.pascal, hs.camel, hs.snake, hs.encryption, hs.devil, hs.dvorak, hs.sticky, hcaps, hplain⟩
    have hflag' : (s.withShift (latch s.shift data)).flag mode = (w == .start) := by
      rw [← hflag]
      cases mode <;> rfl
    rw [watch, scan_press ⟨hmake, hs.plain⟩ hH hno, State.tick_of_off hs.sticky, translate,
      if_pos hmake]
    generalize hc : keyChar (latch s.shift data) data = c
    obtain ⟨hcode, hmode, hstart⟩ := passes_inMode hs' data c
    rw [hflag'] at hcode
    rw [hcode]
    have hlaw : (letterCode (asInt (caseChar (w == .start) c)) = true →
        (upperCode (asInt (caseChar (w == .start) c)) = true ↔ fresh = true)) ↔
          Unspoilt (s, w) data := by
      rw [letterCode_asInt, isLetter_caseChar, upperCode_asInt, hfresh, Unspoilt]
      have hiff : isLetter c = true ↔ letterKey data = true ∧ has s.shift Mod.ctl = false := by
        rw [← hc, isLetter_keyChar, Bool.and_eq_true, Bool.not_eq_true']
        refine and_congr_right fun hkey => ?_
        rw [latch_letterKey s.shift hkey]
      rw [hiff, and_imp]
      refine forall_congr' fun hkey => forall_congr' fun hctl => ?_
      have hletter : isLetter c = true := hiff.mpr ⟨hkey, hctl⟩
      have hlower : isLower c = !has s.shift Mod.shift := by
        rw [← hc] at hletter ⊢
        rw [isLower_keyChar hletter, latch_letterKey s.shift hkey]
      rw [isUpper_caseChar _ hletter, hlower]
      cases w with
      | inside => simp
      | start => simp
      | touched => simp
    refine ⟨⟨hmode, ?_, ?_⟩, hlaw⟩
    · -- the flag says that a word starts
      rw [hstart]
      dsimp only [Word.next]
      split
      · next hletter =>
        rw [decide_eq_false (not_break_of_isLetter hletter)]
        rfl
      · split
        · next hbreak => rw [decide_eq_true hbreak]; rfl
        · next hbreak =>
          rw [decide_eq_false hbreak]
          split
          · rfl
          · next hw => exact (beq_eq_false_iff_ne.mpr hw).symm
    · -- and so does the law
      rw [CaseMode.step, letterCode_asInt, isLetter_caseChar]
      dsimp only [Word.next]
      cases hletter : isLetter c with
      | true =>
        have hbreak : ¬ asInt (caseChar (w == .start) c) ∈ mode.breaks := by
          rw [mem_breaks_asInt]
          exact not_break_of_isLetter ((isLetter_caseChar _ c).trans hletter)
        rw [if_neg hbreak, Bool.not_true, Bool.and_false]
        rfl
      | false =>
        rw [caseChar_of_not_isLetter _ hletter, if_neg Bool.false_ne_true, Bool.not_false,
          Bool.and_true, hfresh]
        by_cases hbreak : c = 0x20 ∨ mode = .pascal ∧ c = 0x0A
        · rw [if_pos (mem_breaks_asInt.mpr hbreak), if_pos hbreak]
          rfl
        · rw [if_neg (mt mem_breaks_asInt.mp hbreak), if_neg hbreak]
          split
          · next hw => rw [hw]; rfl
          · rfl

/-- Typing obeys the law exactly if every byte of it is unspoilt. -/
theorem caseLawFrom_iff {mode : CaseMode} : ∀ (stream : List (UInt32 × UInt8)) {fresh : Bool}
    {p : State × Word}, Tied mode fresh p →
      Machine.Along scan (fun s i => Typing s i.2) p.1 stream →
      (CaseLawFrom mode fresh (Machine.outputs scan p.1 stream) ↔
        Machine.Along (watch mode) (fun p i => Unspoilt p i.2) p stream) := by
  intro stream
  induction stream with
  | nil => intro fresh p _ _; exact iff_of_true (caseLawFrom_nil mode fresh) trivial
  | cons i stream ih =>
    intro fresh p hp htyping
    rw [Machine.along_cons] at htyping
    obtain ⟨htied, hlaw⟩ := watch_step hp i.1 htyping.1
    rw [Machine.outputs_cons, caseLawFrom_cons, Machine.along_cons]
    exact and_congr hlaw (ih htied htyping.2)

/-! ### Under the cipher and in devil mode -/

/-- Neither the cipher nor the devil mode emits a letter. -/
theorem letterCode_devil (s : State) (data : UInt8) : letterCode (devil s data) = false := by
  have hplain : ∀ d, isLetter ((normalmap d).toUInt32 + 2000) = false :=
    forall_byte (fun d => isLetter ((normalmap d).toUInt32 + 2000) = false) (by decide +kernel)
  have hctl : ∀ d, isLetter ((normalmap d).toUInt32 + 128 + 2000) = false :=
    forall_byte (fun d => isLetter ((normalmap d).toUInt32 + 128 + 2000) = false)
      (by decide +kernel)
  have hswap : ∀ d, isLetter (swapCase (normalmap d).toUInt32 + 2000) = false :=
    forall_byte (fun d => isLetter (swapCase (normalmap d).toUInt32 + 2000) = false)
      (by decide +kernel)
  unfold devil
  dsimp only
  split
  · decide
  split
  · decide
  split
  · decide
  split
  · decide
  split
  · rw [letterCode_asInt, hctl]
  split
  · rw [letterCode_asInt, hswap]
  · rw [letterCode_asInt, hplain]

/-- The cipher or the devil mode is on, and no `E0` is pending. -/
structure Secret (s : State) : Prop where
  on : s.encryptionMode = true ∨ s.devilMode = true
  plain : has s.shift Mod.e0esc = false

theorem letterCode_translate {s : State} (hs : s.encryptionMode = true ∨ s.devilMode = true)
    (data : UInt8) : letterCode (translate s data).2 = false := by
  have hcipher : ∀ b : UInt8, isLetter (b.toUInt32 + 1000) = false :=
    forall_byte (fun b => isLetter (b.toUInt32 + 1000) = false) (by decide +kernel)
  unfold translate passes
  dsimp only
  split
  · exact letterCode_devil _ data
  · next hdevil =>
    have hon : (s.withShift (latch s.shift data)).encryptionMode = true := hs.resolve_right hdevil
    rw [if_pos hon, letterCode_asInt]
    exact hcipher _

/-- One byte of typing under the cipher or in devil mode. -/
theorem scan_secret {s : State} (hs : Secret s) (ticks : UInt32) {data : UInt8}
    (hdata : Typing s data) :
    letterCode (scan s (ticks, data)).2 = false ∧ Secret (scan s (ticks, data)).1 := by
  rcases hdata with ⟨hrel, h0, h2⟩ | ⟨hkey, hno, hH⟩
  · rw [scan_release s ticks h0 h2 hrel]
    refine ⟨rfl, hs.on, ?_⟩
    rw [State.withShift_shift, has_keyRelease isBit_e0esc, hs.plain]
    rfl
  · obtain ⟨-, hplain, hmake⟩ := latch_typing s.shift hkey
    obtain ⟨sk, ca, l, htick⟩ := s.tick_frame ticks data
    rw [scan_press ⟨hmake, hs.plain⟩ hH hno, htick]
    obtain ⟨sp, nl, up, hframe⟩ := translate_frame
      { s with skEnabled := sk, capsActive := ca, lastShiftPress := l } data
    refine ⟨letterCode_translate ?_ data, ?_⟩
    · exact hs.on
    · rw [hframe]
      exact ⟨hs.on, hplain.trans hs.plain⟩

theorem caseLawFrom_secret {mode : CaseMode} : ∀ (stream : List (UInt32 × UInt8)) (fresh : Bool)
    {s : State}, Secret s → Machine.Along scan (fun s i => Typing s i.2) s stream →
      CaseLawFrom mode fresh (Machine.outputs scan s stream) := by
  intro stream
  induction stream with
  | nil => intro fresh s _ _; exact caseLawFrom_nil mode fresh
  | cons i stream ih =>
    intro fresh s hs htyping
    rw [Machine.along_cons] at htyping
    obtain ⟨hcode, hs'⟩ := scan_secret hs i.1 htyping.1
    rw [Machine.outputs_cons, caseLawFrom_cons]
    refine ⟨fun hletter => ?_, ih _ hs' htyping.2⟩
    rw [hcode] at hletter
    contradiction

/-! ### Entering a case mode -/

/-- The key of the chord. -/
def CaseMode.key : CaseMode → UInt8
  | .pascal => 0x19
  | .camel => 0x2E

/-- The mode is on. -/
def State.inCase (mode : CaseMode) (s : State) : Bool :=
  match mode with
  | .pascal => s.pascalCase
  | .camel => s.camelCase

/-- The chord of the mode switches it on; CAPSLOCK, Dvorak and the sticky keys are off. -/
structure Enters (mode : CaseMode) (s : State) : Prop where
  chord : chord s mode.key mode.key = true
  plain : has s.shift Mod.e0esc = false
  off : s.inCase mode = false
  caps : has s.shift Mod.capslock = false
  dvorak : s.isDvorak = false
  sticky : s.skEnabled = false

/-- **The typing for which a case mode obeys its law.**  It is switched on under the cipher or
in devil mode, so that no letter is emitted; or the first letter of each word is pressed with
Shift up, and with no other key, Shift included, since the word started. -/
theorem caseLaw_iff (mode : CaseMode) (past stream : List (UInt32 × UInt8)) (ticks : UInt32)
    (henter : Enters mode (Machine.final scan boot past))
    (htyping : Machine.Along scan (fun s i => Typing s i.2)
      (scan (Machine.final scan boot past) (ticks, mode.key)).1 stream) :
    CaseLaw mode (Machine.outputs scan
        (scan (Machine.final scan boot past) (ticks, mode.key)).1 stream) ↔
      (Machine.final scan boot past).encryptionMode = true ∨
        (Machine.final scan boot past).devilMode = true ∨
        Machine.Along (watch mode) (fun p i => Unspoilt p i.2)
          ((scan (Machine.final scan boot past) (ticks, mode.key)).1, mode.entry) stream := by
  have hreached := reached_final past
  generalize Machine.final scan boot past = s at *
  -- the mode is on, and the flags are as the monitor starts
  have hs : ∃ nl, (scan s (ticks, mode.key)).1 = { s with
      pascalCase := mode == .pascal, camelCase := mode == .camel, snakeCase := false,
      newLinePressed := nl } ∧ (mode = .pascal → nl = true) := by
    cases mode with
    | pascal =>
      refine ⟨true, ?_, fun _ => rfl⟩
      rw [CaseMode.key, scan_pascal henter.chord henter.plain,
        show s.pascalCase = false from henter.off]
      rfl
    | camel =>
      refine ⟨s.newLinePressed, ?_, fun h => absurd h (by decide)⟩
      rw [CaseMode.key, scan_camel henter.chord henter.plain,
        show s.camelCase = false from henter.off]
      rfl
  obtain ⟨nl, hs, hnl⟩ := hs
  rw [hs] at htyping ⊢
  by_cases hsecret : s.encryptionMode = true ∨ s.devilMode = true
  · exact iff_of_true (caseLawFrom_secret stream _ ⟨hsecret, henter.plain⟩ htyping)
      (hsecret.imp_right .inl)
  · rw [not_or, Bool.not_eq_true, Bool.not_eq_true] at hsecret
    obtain ⟨hcipher, hdevil⟩ := hsecret
    have hspace : s.spacePressed = false :=
      hreached.space (.inl (chord_eq_true.mp henter.chord).1)
    rw [or_iff_right (by rw [hcipher]; decide), or_iff_right (by rw [hdevil]; decide)]
    refine caseLawFrom_iff stream (p := (_, mode.entry)) ⟨⟨rfl, rfl, rfl, hcipher, hdevil,
      henter.dvorak, henter.sticky, henter.caps, henter.plain⟩, ?_, ?_⟩ htyping
    · cases mode with
      | pascal => simp [State.flag, hspace, hnl rfl, CaseMode.entry]
      | camel => simp [State.flag, hspace, CaseMode.entry]
    · cases mode with
      | pascal => rfl
      | camel => rfl

/-- The rule at Pascal mode and `ab c`, typed without Shift: the codes are `Ab C`. -/
theorem caseLaw_abc : CaseLaw .pascal (Machine.outputs scan
    (scan (Machine.final scan boot [(0, 0x1D), (1, 0x2A)]) (2, 0x19)).1
    [(3, 0x99), (4, 0xAA), (5, 0x9D), (6, 0x1E), (7, 0x30), (8, 0x39), (9, 0x2E)]) :=
  (caseLaw_iff .pascal [(0, 0x1D), (1, 0x2A)]
    [(3, 0x99), (4, 0xAA), (5, 0x9D), (6, 0x1E), (7, 0x30), (8, 0x39), (9, 0x2E)] 2
    ⟨by decide, by decide, by decide, by decide, by decide, by decide⟩
    (by decide +kernel)).mpr (by decide +kernel)

/-- In Pascal mode, Shift and the `A` key give `a`; and so does the `A` key behind a space once
Shift was pressed and released in between. -/
theorem not_caseLaw_shift :
    ¬ CaseLaw .pascal (Machine.outputs scan
        (scan (Machine.final scan boot [(0, 0x1D), (1, 0x2A)]) (2, 0x19)).1
        [(3, 0x9D), (4, 0x1E)]) ∧
      Machine.outputs scan (scan (Machine.final scan boot [(0, 0x1D), (1, 0x2A)]) (2, 0x19)).1
        [(3, 0xAA), (4, 0x9D), (5, 0x39), (6, 0x2A), (7, 0xAA), (8, 0x1E)] =
          [0, 0, 0x20, 0, 0, 0x61] := by
  refine ⟨fun h => ?_, by decide +kernel⟩
  have hcodes : Machine.outputs scan
      (scan (Machine.final scan boot [(0, 0x1D), (1, 0x2A)]) (2, 0x19)).1 [(3, 0x9D), (4, 0x1E)] =
        [0] ++ 0x61 :: [] := by decide +kernel
  exact absurd ((h [0] 0x61 [] hcodes (by decide)).mpr (by decide)) (by decide)

end Helpful
end Kbd
end Xv6

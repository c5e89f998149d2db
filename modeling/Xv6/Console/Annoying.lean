import Xv6.Console.Discipline
import Xv6.Spinlock

/-!
# The lock of the Annoying console

`consoleintr` of `B22CS052/Annoying/console.c`: the stock line discipline with a devil
mode, in which codes from 128 on are answered with pranks.  To be able to print, it
releases `cons.lock` after every code; but it acquires the lock only once, in front of
the loop.

## Main results

* `consoleintr_nil`, `consoleintr_singleton`, `consoleintr_cons_cons` — a call that
  drains no code returns with the lock held, one that drains a single code with the lock
  free, and one that drains more does not return.
* `balanced_iff` — **a call keeps the lock balanced exactly when it drains one code.**
-/

namespace Xv6
namespace Console
namespace Annoying

open Counter Spinlock

/-- What a call does to the lock and, with the lock held or not, to the ring. -/
inductive Act
  | acquire
  | release
  | edit (held : Bool)
  deriving DecidableEq

/-- The console, and the processor that runs it. -/
structure World where
  lock : Lock
  cpu : Cpu
  locking : Bool
  input : Input
  out : List Out
  trace : List Act
  deriving DecidableEq

/-! ### The code -/

/-- `acquire(&cons.lock)`. -/
def acquire (w : World) : Except Stop World := do
  let (l, c) ← Spinlock.acquire w.lock w.cpu
  return { w with lock := l, cpu := c, trace := w.trace ++ [.acquire] }

/-- `release(&cons.lock)`. -/
def release (w : World) : Except Stop World := do
  let (l, c) ← Spinlock.release w.lock w.cpu
  return { w with lock := l, cpu := c, trace := w.trace ++ [.release] }

/-- `consputc`, some times. -/
def emit (w : World) (out : List Out) : World := { w with out := w.out ++ out }

/-- `cprintf`, of a text that it turns into this output. -/
def cprintf (out : List Out) (w : World) : Except Stop World :=
  if w.locking then do
    let w ← acquire w
    release (emit w out)
  else .ok (emit w out)

/-- The output of a text without conversions. -/
def text (s : String) : List Out := (str s).map fun b => .putc b.toNat

/-- `procdump`, which calls `cprintf` for each part of the listing. -/
def procdump (listing : List (List Out)) (w : World) : Except Stop World :=
  listing.foldlM (fun w out => cprintf out w) w

/-- `handle_devil_mode`. -/
def handleDevilMode (c : ℕ) (w : World) : Except Stop World :=
  if c = 2000 then
    cprintf (text "------- Welcome to Devil Mode-------\nThere is no way to exit now!!!\n") w
  else if 129 ≤ c ∧ c ≤ 131 then do
    let w ← cprintf (text "Rebooting\n") w
    return emit w [.outb 0x64 0xFE]
  else if 132 ≤ c ∧ c ≤ 134 then cprintf (text "You are entering into deadlock\n") w
  else if 135 ≤ c ∧ c ≤ 137 then cprintf (text "echo\n") w
  else if 138 ≤ c ∧ c ≤ 140 then cprintf (text "echo\n") w
  else if 141 ≤ c ∧ c ≤ 143 then .ok (emit w [.putc c])
  else if 144 ≤ c ∧ c ≤ 147 then .ok (emit w (List.replicate 5 (.putc ((c : ℤ) - 128 + 0x40))))
  else if 148 ≤ c ∧ c ≤ 150 then .ok (emit w (List.replicate 5 (.putc backspaceCode)))
  else if 151 ≤ c ∧ c ≤ 155 then cprintf (text "echo\n") w
  else if c ≠ 128 then cprintf (text "You are lucky at this keystroke!\n") w
  else .ok w

/-- The locals of `consoleintr` that outlive a round. -/
structure Flags where
  doprocdump : Bool := false
  devilMode : Bool := false

/-- The handling of a code, up to the release: the flags, the code as the default case
leaves it, and the ring edited. -/
def handle (f : Flags) (c : ℕ) (w : World) : Flags × ℕ × World :=
  if 128 ≤ c then ({ f with devilMode := true }, c, w)
  else
    let p := Stock.code w.input c
    ({ f with doprocdump := f.doprocdump || p.2.2 },
      if c = 0x0D ∧ dist w.input.r w.input.e < 128 then 0x0A else c,
      { w with
        input := p.1
        out := w.out ++ p.2.1
        trace := w.trace ++
          if p.1 = w.input then [] else [.edit (w.lock = ⟨true, some w.cpu.id⟩)] })

/-- What is done after the release. -/
def afterwards (listing : List (List Out)) (f : Flags) (c : ℕ) (w : World) : Except Stop World :=
  if f.devilMode then handleDevilMode c w
  else if f.doprocdump then procdump listing w
  else .ok w

/-- The loop of `consoleintr`. -/
def loop (listing : List (List Out)) : Flags → List ℕ → World → Except Stop World
  | _, [], w => .ok w
  | f, c :: cs, w => do
      let (f, c, w) := handle f c w
      let w ← release w
      let w ← afterwards listing f c w
      loop listing f cs w

/-- `consoleintr`, on the codes `getc` returns before its first negative value. -/
def consoleintr (listing : List (List Out)) (cs : List ℕ) (w : World) : Except Stop World := do
  let w ← acquire w
  loop listing {} cs w

/-! ### The lock -/

/-- All edits of the ring so far were made with the lock held. -/
def Guarded (w : World) : Prop := ∀ held, Act.edit held ∈ w.trace → held = true

/-- Entry: the lock is free, and nothing has happened. -/
structure Entry (w : World) : Prop where
  free : Free w.lock
  trace : w.trace = []

/-- **The call keeps the lock balanced**: it returns, with the lock free, and edits the
ring with the lock held only. -/
def Balanced (listing : List (List Out)) (cs : List ℕ) (w : World) : Prop :=
  ∃ w', consoleintr listing cs w = .ok w' ∧ Free w'.lock ∧ Guarded w'

/-- The computation ends with the lock free, the ring edited with the lock held only. -/
def Returns (x : Except Stop World) : Prop := ∃ w', x = .ok w' ∧ Free w'.lock ∧ Guarded w'

theorem Returns.ite {p : Prop} [Decidable p] {x y : Except Stop World} (hx : Returns x)
    (hy : Returns y) : Returns (if p then x else y) := by
  split
  · exact hx
  · exact hy

theorem Returns.bind {x : Except Stop World} {k : World → Except Stop World} (hx : Returns x)
    (hk : ∀ w', Free w'.lock → Guarded w' → Returns (k w')) : Returns (x >>= k) := by
  obtain ⟨w', rfl, h, hg⟩ := hx
  exact hk w' h hg

theorem guarded_concat {w w' : World} {a : Act} (h : Guarded w) (ht : w'.trace = w.trace ++ [a])
    (ha : a ≠ .edit false) : Guarded w' := by
  intro held hmem
  rw [ht, List.mem_append, List.mem_singleton] at hmem
  rcases hmem with hmem | hmem
  · exact h held hmem
  · cases held with
    | true => rfl
    | false => exact absurd hmem.symm ha

theorem acquire_ok {w : World} (h : Free w.lock) (hg : Guarded w) :
    ∃ w', acquire w = .ok w' ∧ Held w'.lock w'.cpu ∧ Guarded w' := by
  obtain ⟨l, c, hlc, hheld⟩ := acquire_of_free h w.cpu
  refine ⟨_, by rw [acquire, hlc]; rfl, hheld, guarded_concat hg rfl (by simp)⟩

theorem release_ok {w : World} (h : Held w.lock w.cpu) (hg : Guarded w) : Returns (release w) := by
  obtain ⟨l, c, hlc, hfree⟩ := release_of_held h
  refine ⟨_, by rw [release, hlc]; rfl, hfree, guarded_concat hg rfl (by simp)⟩

theorem release_panics {w : World} (h : Free w.lock) :
    release w = .error (.panic "release") := by
  rw [release, release_of_free h]
  rfl

theorem cprintf_ok {w : World} (out : List Out) (h : Free w.lock) (hg : Guarded w) :
    Returns (cprintf out w) := by
  refine .ite ?_ ⟨_, rfl, h, hg⟩
  obtain ⟨w₁, hw₁, hheld, hg₁⟩ := acquire_ok h hg
  rw [hw₁]
  exact release_ok (w := emit w₁ out) hheld hg₁

theorem procdump_ok : ∀ (listing : List (List Out)) {w : World}, Free w.lock → Guarded w →
    Returns (procdump listing w) := by
  intro listing
  induction listing with
  | nil => intro w h hg; exact ⟨w, rfl, h, hg⟩
  | cons out listing ih =>
    intro w h hg
    rw [procdump, List.foldlM_cons]
    exact (cprintf_ok out h hg).bind fun w' h' hg' => ih h' hg'

theorem handleDevilMode_ok {w : World} (c : ℕ) (h : Free w.lock) (hg : Guarded w) :
    Returns (handleDevilMode c w) := by
  have hprint : ∀ s, Returns (cprintf (text s) w) := fun s => cprintf_ok _ h hg
  have hemit : ∀ out, Returns (.ok (emit w out)) := fun out => ⟨_, rfl, h, hg⟩
  refine .ite (hprint _) (.ite ?reboot (.ite (hprint _) (.ite (hprint _) (.ite (hprint _) ?_))))
  case reboot => exact (hprint _).bind fun w' h' hg' => ⟨_, rfl, h', hg'⟩
  exact .ite (hemit _) (.ite (hemit _) (.ite (hemit _) (.ite (hprint _) (.ite (hprint _)
    ⟨w, rfl, h, hg⟩))))

theorem afterwards_ok {w : World} (listing : List (List Out)) (f : Flags) (c : ℕ)
    (h : Free w.lock) (hg : Guarded w) : Returns (afterwards listing f c w) :=
  .ite (handleDevilMode_ok c h hg) (.ite (procdump_ok listing h hg) ⟨w, rfl, h, hg⟩)

theorem handle_lock (f : Flags) (c : ℕ) (w : World) :
    (handle f c w).2.2.lock = w.lock ∧ (handle f c w).2.2.cpu = w.cpu := by
  unfold handle
  split <;> exact ⟨rfl, rfl⟩

theorem guarded_handle {w : World} (f : Flags) (c : ℕ) (h : Held w.lock w.cpu)
    (hg : Guarded w) : Guarded (handle f c w).2.2 := by
  unfold handle
  split
  · exact hg
  · intro held hmem
    simp only [List.mem_append] at hmem
    rcases hmem with hmem | hmem
    · exact hg held hmem
    · split at hmem
      · simp at hmem
      · simpa [h.locked] using hmem

/-- A round that starts with the lock held ends with the lock free. -/
theorem round_ok {w : World} (listing : List (List Out)) (f : Flags) (c : ℕ) (cs : List ℕ)
    (h : Held w.lock w.cpu) (hg : Guarded w) :
    ∃ f' w', loop listing f (c :: cs) w = loop listing f' cs w' ∧ Free w'.lock ∧ Guarded w' := by
  obtain ⟨hlock, hcpu⟩ := handle_lock f c w
  obtain ⟨w₁, hw₁, h₁, hg₁⟩ :=
    release_ok (w := (handle f c w).2.2) (by rw [hlock, hcpu]; exact h) (guarded_handle f c h hg)
  obtain ⟨w₂, hw₂, h₂, hg₂⟩ := afterwards_ok listing (handle f c w).1 (handle f c w).2.1 h₁ hg₁
  refine ⟨(handle f c w).1, w₂, ?_, h₂, hg₂⟩
  simp only [loop, hw₁, hw₂, bind, Except.bind]

/-- A round that starts with the lock free panics. -/
theorem round_panics {w : World} (listing : List (List Out)) (f : Flags) (c : ℕ) (cs : List ℕ)
    (h : Free w.lock) : loop listing f (c :: cs) w = .error (.panic "release") := by
  have hfree : Free (handle f c w).2.2.lock := by
    rw [(handle_lock f c w).1]
    exact h
  simp only [loop, release_panics hfree, bind, Except.bind]

/-! ### The calls -/

section Calls

variable {w : World} (listing : List (List Out))

theorem Entry.guarded (h : Entry w) : Guarded w := by
  intro held hmem
  rw [h.trace] at hmem
  simp at hmem

/-- A call that finds no code returns with the lock held. -/
theorem consoleintr_nil (h : Entry w) :
    ∃ w', consoleintr listing [] w = .ok w' ∧ Held w'.lock w'.cpu := by
  obtain ⟨w', hw', hheld, _⟩ := acquire_ok h.free h.guarded
  exact ⟨w', by rw [consoleintr, hw']; rfl, hheld⟩

/-- A call that drains one code is balanced. -/
theorem consoleintr_singleton (h : Entry w) (c : ℕ) : Balanced listing [c] w := by
  obtain ⟨w₁, hw₁, hheld, hg₁⟩ := acquire_ok h.free h.guarded
  obtain ⟨f', w₂, hloop, hfree, hg₂⟩ := round_ok listing {} c [] hheld hg₁
  exact ⟨w₂, by rw [consoleintr, hw₁]; exact hloop, hfree, hg₂⟩

/-- A call that drains more panics at the second release. -/
theorem consoleintr_cons_cons (h : Entry w) (c c' : ℕ) (cs : List ℕ) :
    consoleintr listing (c :: c' :: cs) w = .error (.panic "release") := by
  obtain ⟨w₁, hw₁, hheld, hg₁⟩ := acquire_ok h.free h.guarded
  obtain ⟨f', w₂, hloop, hfree, _⟩ := round_ok listing {} c (c' :: cs) hheld hg₁
  rw [consoleintr, hw₁]
  exact hloop.trans (round_panics listing f' c' cs hfree)

end Calls

/-- **A call keeps the lock balanced exactly when it drains one code.** -/
theorem balanced_iff (listing : List (List Out)) (cs : List ℕ) (w : World) (h : Entry w) :
    Balanced listing cs w ↔ cs.length = 1 := by
  match cs with
  | [] =>
    refine iff_of_false ?_ (by simp)
    rintro ⟨w', hw', hfree, _⟩
    obtain ⟨w'', hw'', hheld⟩ := consoleintr_nil listing h
    rw [hw', Except.ok.injEq] at hw''
    subst hw''
    rw [Free, hheld.locked] at hfree
    contradiction
  | [c] => exact iff_of_true (consoleintr_singleton listing h c) rfl
  | c :: c' :: cs =>
    refine iff_of_false ?_ (by simp)
    rintro ⟨w', hw', _⟩
    rw [consoleintr_cons_cons listing h] at hw'
    contradiction

/-- The console as it stands after `consoleinit`. -/
def boot : World :=
  { lock := ⟨false, none⟩, cpu := ⟨0, true, 0, false⟩, locking := true, input := Input.boot,
    out := [], trace := [] }

/-- The rule for one `a` at boot. -/
theorem balanced_a : Balanced [] [0x61] boot :=
  (balanced_iff [] [0x61] boot ⟨rfl, rfl⟩).mpr rfl

/-- Two codes drained by one interrupt panic; an interrupt without a code leaves the lock
held, and the next one panics in `acquire`. -/
theorem not_balanced_two :
    Entry boot ∧ ¬ Balanced [] [0x61, 0x62] boot ∧
      consoleintr [] [0x61, 0x62] boot = .error (.panic "release") ∧
      (consoleintr [] [] boot).bind (consoleintr [] [0x61]) = .error (.panic "acquire") := by
  have htwo : consoleintr [] [0x61, 0x62] boot = .error (.panic "release") := by decide +kernel
  refine ⟨⟨rfl, rfl⟩, ?_, htwo, by decide +kernel⟩
  rintro ⟨w', hw', _⟩
  rw [htwo] at hw'
  contradiction

end Annoying
end Console
end Xv6

import Xv6.Console.HelpfulCompletion

/-!
# A line typed at the Helpful console

A line is typed key by key, in as many interrupts as it takes, and readers come and go
meanwhile.  None of that matters to what is in the ring at the end, nor to what is recorded
of the line.

## Main definitions

* `Event.codes` — the codes of an event.
* `Plain` — the characters without a special meaning.
* `typeAll` — the ring with some bytes more.

## Main results

* `quiet_run` — events without codes leave the variables alone, and of the ring move only
  the reader.
* `type_run` — **what any run that types a line leaves behind.**
* `recordLoop_eq` — what is recorded of a line.
-/

namespace Xv6
namespace Console

/-- The key codes of an event. -/
def Event.codes : Event → List ℕ
  | .intr cs => cs
  | _ => []

namespace Helpful

open Counter

variable {m : Memory} {g : Input} {v : Vars}

/-! ### Events without codes -/

theorem readLoop_frame (target : ℕ) (killed : Bool) : ∀ (n : ℕ) (dst : List UInt8) (g : Input),
    ∃ r, (readLoop target killed n dst g).1 = { g with r := r } := by
  intro n
  induction n with
  | zero => intro dst g; exact ⟨g.r, rfl⟩
  | succ n ih =>
    intro dst g
    unfold readLoop
    split
    · split <;> exact ⟨g.r, rfl⟩
    · dsimp only
      split
      · rw [Input.untake_take]
        dsimp only
        split
        · exact ⟨g.r, rfl⟩
        · exact ⟨g.r + 1, rfl⟩
      · split
        · exact ⟨g.r + 1, rfl⟩
        · obtain ⟨r, hr⟩ := ih (dst ++ [g.get g.r]) g.take
          exact ⟨r, hr⟩

/-- With nothing to read, a pass leaves the ring alone. -/
theorem readLoop_empty {target n : ℕ} {killed : Bool} {dst : List UInt8} (h : g.r = g.w) :
    (readLoop target killed n dst g).1 = g := by
  cases n with
  | zero => rfl
  | succ n =>
    unfold readLoop
    rw [if_pos h]
    split <;> rfl

theorem consoleintr_nil (m : Memory) (g : Input) (v : Vars) :
    consoleintr m g v [] = some (g, v, []) := by
  simp [consoleintr, deferred]

/-- A step without codes leaves the variables alone, and of the ring moves only the reader, who
stays where he is with nothing to read. -/
theorem quiet_step {s : Sys Vars} {ev : Event} {p : Sys Vars × Answer} (hev : ev.codes = [])
    (hp : Sys.step (consoleintr m) s ev = some p) :
    p.1.dev = s.dev ∧ (∃ r, p.1.input = { s.input with r := r }) ∧
      (s.input.r = s.input.w → p.1.input = s.input) := by
  cases ev with
  | intr cs =>
    obtain rfl : cs = [] := hev
    rw [Sys.step_intr (consoleintr_nil m s.input s.dev)] at hp
    cases hp
    exact ⟨rfl, ⟨s.input.r, rfl⟩, fun _ => rfl⟩
  | call p' n =>
    cases hrd : s.readers p' with
    | none =>
      rw [Sys.step_call_free hrd] at hp
      cases hp
      exact ⟨rfl, ⟨s.input.r, rfl⟩, fun _ => rfl⟩
    | some rd =>
      rw [Sys.step_call_busy hrd] at hp
      cases hp
      exact ⟨rfl, ⟨s.input.r, rfl⟩, fun _ => rfl⟩
  | pass p' killed =>
    cases hrd : s.readers p' with
    | none =>
      rw [Sys.step_pass_none hrd] at hp
      cases hp
      exact ⟨rfl, ⟨s.input.r, rfl⟩, fun _ => rfl⟩
    | some rd =>
      have hframe := readLoop_frame rd.target killed rd.n rd.dst s.input
      have hempty : s.input.r = s.input.w →
          (readLoop rd.target killed rd.n rd.dst s.input).1 = s.input := readLoop_empty
      rcases hpass : consoleread s.input rd killed with ⟨g, ⟨val, dst⟩ | rd'⟩
      · rw [Sys.step_pass_ret hrd hpass] at hp
        cases hp
        rw [consoleread] at hpass
        rw [hpass] at hframe hempty
        exact ⟨rfl, hframe, hempty⟩
      · rw [Sys.step_pass_sleep hrd hpass] at hp
        cases hp
        rw [consoleread] at hpass
        rw [hpass] at hframe hempty
        exact ⟨rfl, hframe, hempty⟩

/-- A run without codes. -/
theorem quiet_run : ∀ (events : List Event) {s : Sys Vars} {r : Sys Vars × List Answer},
    events.flatMap Event.codes = [] → Machine.run (Sys.step (consoleintr m)) s events = some r →
      r.1.dev = s.dev ∧ ∃ x, r.1.input = { s.input with r := x } := by
  intro events
  induction events with
  | nil =>
    intro s r _ hr
    cases hr
    exact ⟨rfl, s.input.r, rfl⟩
  | cons ev events ih =>
    intro s r hcodes hr
    obtain ⟨p, q, hp, hq, rfl⟩ := Machine.run_cons_eq_some.mp hr
    rw [List.flatMap_cons, List.append_eq_nil_iff] at hcodes
    obtain ⟨hdev, ⟨x, hx⟩, -⟩ := quiet_step hcodes.1 hp
    obtain ⟨hdev', y, hy⟩ := ih hcodes.2 hq
    exact ⟨hdev'.trans hdev, y, by rw [hy, hx]⟩

/-! ### Typing -/

/-- The codes with a special meaning, NUL and the newline among them. -/
def special : List UInt8 :=
  [0x00, 0x03, 0x04, 0x08, 0x09, 0x0A, 0x0C, 0x0D, 0x10, 0x15, 0x16, 0x7F, 226, 227]

/-- A character without a special meaning. -/
def Plain (c : UInt8) : Prop := c ∉ special

instance (c : UInt8) : Decidable (Plain c) := inferInstanceAs (Decidable (_ ∉ _))

/-- The ring with the bytes `cs` added. -/
def typeAll (g : Input) (cs : List UInt8) : Input := cs.foldl Input.put g

theorem typeAll_cons (g : Input) (c : UInt8) (cs : List UInt8) :
    typeAll g (c :: cs) = typeAll (g.put c) cs := rfl

@[simp] theorem typeAll_r : ∀ (cs : List UInt8) (g : Input), (typeAll g cs).r = g.r
  | [], _ => rfl
  | c :: cs, g => typeAll_r cs (g.put c)

@[simp] theorem typeAll_w : ∀ (cs : List UInt8) (g : Input), (typeAll g cs).w = g.w
  | [], _ => rfl
  | c :: cs, g => typeAll_w cs (g.put c)

theorem typeAll_e (cs : List UInt8) (g : Input) :
    (typeAll g cs).e = g.e + UInt32.ofNat cs.length := by
  induction cs generalizing g with
  | nil => exact (UInt32.add_zero g.e).symm
  | cons c cs ih =>
    rw [typeAll_cons, ih, Input.put_e, List.length_cons, Nat.add_comm, UInt32.ofNat_add,
      ← UInt32.add_assoc]
    rfl

theorem bounds_typeAll : ∀ (cs : List UInt8) {g : Input}, g.Bounds →
    dist g.r g.e + cs.length ≤ 128 →
      (typeAll g cs).Bounds ∧
        dist (typeAll g cs).r (typeAll g cs).e = dist g.r g.e + cs.length := by
  intro cs
  induction cs with
  | nil => intro g h _; exact ⟨h, rfl⟩
  | cons c cs ih =>
    intro g h hlen
    rw [List.length_cons] at hlen
    have hput := Input.dist_put (g := g) (c := c) (by omega)
    obtain ⟨hbounds, hdist⟩ := ih (h.put (by omega) c) (by omega)
    exact ⟨hbounds, hdist.trans (by rw [hput, List.length_cons]; omega)⟩

theorem line_typeAll : ∀ (cs : List UInt8) {g : Input}, g.Bounds →
    dist g.r g.e + cs.length ≤ 128 → (typeAll g cs).line = g.line ++ cs := by
  intro cs
  induction cs with
  | nil => intro g _ _; exact (List.append_nil _).symm
  | cons c cs ih =>
    intro g h hlen
    rw [List.length_cons] at hlen
    have hput := Input.dist_put (g := g) (c := c) (by omega)
    have hline := ih (h.put (by omega) c) (by omega)
    rw [Input.line_put h (by omega) c, List.append_assoc, List.singleton_append] at hline
    exact hline

/-- A byte in front of what is typed, less than a capacity away, stays as it is. -/
theorem get_typeAll : ∀ (cs : List UInt8) {g : Input} {i : UInt32}, 0 < dist i g.e →
    dist i g.e + cs.length ≤ 128 → (typeAll g cs).get i = g.get i := by
  intro cs
  induction cs with
  | nil => intro g i _ _; rfl
  | cons c cs ih =>
    intro g i hpos hlen
    rw [List.length_cons] at hlen
    have hsucc : dist i (g.put c).e = dist i g.e + 1 := dist_succ_right (by omega)
    exact (ih (g := g.put c) (by omega) (by omega)).trans (Input.get_put_of_lt hpos (by omega))

theorem typed_of_plain {c : UInt8} (hc : Plain c) (hroom : dist g.r g.e + 1 < 128) :
    typed m g v c.toNat = some (g.put c, v, [.putc c.toNat]) := by
  have hne : ∀ b : UInt8, b ∈ special → c.toNat ≠ b.toNat :=
    fun b hb heq => hc (UInt8.toNat_inj.mp heq ▸ hb)
  have hcr : crToNl c.toNat = c.toNat := if_neg (hne 0x0D (by decide))
  have hput := Input.dist_put (g := g) (c := c) (by omega)
  unfold typed
  rw [if_pos ⟨hne 0 (by decide), by omega⟩, hcr, UInt8.ofNat_toNat]
  dsimp only
  refine if_neg ?_
  rintro (hnl | heof | hfull)
  · exact hne 0x0A (by decide) hnl
  · exact hne 0x04 (by decide) heof
  · rw [e_eq_iff_full] at hfull
    omega

theorem code_plain {s : State} {c : UInt8} (hc : Plain c)
    (hroom : dist s.input.r s.input.e + 1 < 128) :
    code m s c.toNat = some ({ s with input := s.input.put c }, [.putc c.toNat]) := by
  have hne : ∀ b : UInt8, b ∈ special → c.toNat ≠ b.toNat :=
    fun b hb heq => hc (UInt8.toNat_inj.mp heq ▸ hb)
  have hbyte := UInt8.toNat_lt c
  have hnot : ¬ Deferred c.toNat := by
    rintro (h | h | h | h)
    · exact hne 0x09 (by decide) h
    · exact hne 0x0C (by decide) h
    · exact hne 226 (by decide) h
    · omega
  have hedit : edit m s.input s.vars c.toNat = typed m s.input s.vars c.toNat := by
    unfold edit
    have hcopy : c.toNat ≠ 0x03 := hne 0x03 (by decide)
    have hpaste : c.toNat ≠ 0x16 := hne 0x16 (by decide)
    rw [if_neg, if_neg hcopy, if_neg hpaste, if_neg]
    · rintro (h | h)
      · exact hne 0x08 (by decide) h
      · exact hne 0x7F (by decide) h
    · rintro (h | h)
      · exact hne 0x15 (by decide) h
      · exact hne 227 (by decide) h
  rw [code_edit hnot (hne 0x10 (by decide)), hedit, typed_of_plain hc hroom]
  rfl

theorem code_newline {s : State} {c : ℕ} (hc : crToNl c = 0x0A)
    (hroom : dist s.input.r s.input.e < 128) :
    code m s c = (record m (s.input.put 0x0A) s.vars).map fun v =>
      ({ s with input := (s.input.put 0x0A).commit, vars := v }, [.putc 0x0A]) := by
  have hcode : c = 0x0A ∨ c = 0x0D := by
    unfold crToNl at hc
    split at hc
    · next h => exact .inr h
    · exact .inl hc
  have hedit : edit m s.input s.vars c = typed m s.input s.vars c := by
    unfold edit
    rw [if_neg (by omega), if_neg (by omega), if_neg (by omega), if_neg (by omega)]
  have hnot : ¬ Deferred c := by
    unfold Deferred
    omega
  rw [code_edit hnot (by omega), hedit, typed, if_pos ⟨by omega, hroom⟩, hc]
  dsimp only
  rw [if_pos (.inl rfl), Option.map_map]
  rfl

/-- The rounds of an interrupt with plain characters. -/
theorem run_plain : ∀ (cs : List UInt8) {s : State}, (∀ c ∈ cs, Plain c) → s.input.Bounds →
    dist s.input.r s.input.e + cs.length < 128 →
      ∃ os, Machine.run (code m) s (cs.map UInt8.toNat) =
        some ({ s with input := typeAll s.input cs }, os) := by
  intro cs
  induction cs with
  | nil => intro s _ _ _; exact ⟨[], rfl⟩
  | cons c cs ih =>
    intro s hcs h hlen
    rw [List.length_cons] at hlen
    have hput := Input.dist_put (g := s.input) (c := c) (by omega)
    obtain ⟨os, hos⟩ := ih (s := { s with input := s.input.put c })
      (fun b hb => hcs b (List.mem_cons_of_mem c hb)) (h.put (by omega) c)
      (by show dist (s.input.put c).r (s.input.put c).e + _ < _; omega)
    refine ⟨[.putc c.toNat] :: os, Machine.run_cons_eq_some.mpr ⟨_, _,
      code_plain (hcs c List.mem_cons_self) (by omega), hos, rfl⟩⟩

/-- An interrupt with plain characters. -/
theorem consoleintr_plain {cs : List UInt8} (hcs : ∀ c ∈ cs, Plain c) (h : g.Bounds)
    (hlen : dist g.r g.e + cs.length < 128) :
    ∃ out, consoleintr m g v (cs.map UInt8.toNat) = some (typeAll g cs, v, out) := by
  obtain ⟨os, hos⟩ := run_plain (m := m) cs (s := ⟨g, v, {}⟩) hcs h hlen
  exact ⟨os.flatten, by simp [consoleintr, hos, deferred]⟩

/-- An interrupt with plain characters and the newline that ends their line. -/
theorem consoleintr_line {cs : List UInt8} {nl : ℕ} (hcs : ∀ c ∈ cs, Plain c)
    (hnl : crToNl nl = 0x0A) (h : g.Bounds) (hlen : dist g.r g.e + cs.length < 128) :
    (consoleintr m g v (cs.map UInt8.toNat ++ [nl])).map (fun q => (q.1, q.2.1)) =
      (record m ((typeAll g cs).put 0x0A) v).map fun v' =>
        (((typeAll g cs).put 0x0A).commit, v') := by
  obtain ⟨os, hos⟩ := run_plain (m := m) cs (s := ⟨g, v, {}⟩) hcs h hlen
  have hnewline := code_newline (m := m) (s := ⟨typeAll g cs, v, {}⟩) hnl
    (by rw [(bounds_typeAll cs h hlen.le).2]; exact hlen)
  rw [consoleintr, Machine.run_append, hos]
  cases hrecord : record m ((typeAll g cs).put 0x0A) v with
  | none => simp [Machine.run, hnewline, hrecord]
  | some v' => simp [Machine.run, hnewline, hrecord, deferred]

/-- **What a run that types a line leaves behind**, however its keys are spread over interrupts
and whatever readers do: the ring with the line in it, the reader somewhere, and the variables
with the record of the line. -/
theorem type_run : ∀ (events : List Event) (cs : List UInt8) {nl : ℕ} {s : Sys Vars}
    {r : Sys Vars × List Answer}, (∀ c ∈ cs, Plain c) → crToNl nl = 0x0A → s.input.Bounds →
      s.input.r = s.input.w → dist s.input.r s.input.e + cs.length < 128 →
        events.flatMap Event.codes = cs.map UInt8.toNat ++ [nl] →
          Machine.run (Sys.step (consoleintr m)) s events = some r →
            record m ((typeAll s.input cs).put 0x0A) s.dev = some r.1.dev ∧
              ∃ x, r.1.input = { ((typeAll s.input cs).put 0x0A).commit with r := x } := by
  intro events
  induction events with
  | nil =>
    intro cs nl s r _ _ _ _ _ hcodes _
    simp at hcodes
  | cons ev events ih =>
    intro cs nl s r hcs hnl h hempty hlen hcodes hr
    obtain ⟨p, q, hp, hq, rfl⟩ := Machine.run_cons_eq_some.mp hr
    rw [List.flatMap_cons] at hcodes
    by_cases hquiet : ev.codes = []
    · -- a reader comes or goes, with nothing to read
      rw [hquiet, List.nil_append] at hcodes
      obtain ⟨hdev, -, hinput⟩ := quiet_step hquiet hp
      have hinput := hinput hempty
      rw [← hinput, ← hdev]
      rw [← hinput] at h hempty hlen
      exact ih cs (r := q) hcs hnl h hempty hlen hcodes hq
    obtain ⟨ds, rfl⟩ : ∃ ds, ev = .intr ds := by
      cases ev with
      | intr ds => exact ⟨ds, rfl⟩
      | call p' n => exact absurd rfl hquiet
      | pass p' killed => exact absurd rfl hquiet
    obtain ⟨u, hu, rfl⟩ := Option.map_eq_some_iff.mp hp
    change ds ++ _ = _ at hcodes
    rcases List.eq_nil_or_concat (events.flatMap Event.codes) with hrest | ⟨rest, x, hrest⟩
    · -- the interrupt has all that is left of the line, and the newline
      rw [hrest, List.append_nil] at hcodes
      have hline := consoleintr_line (m := m) (g := s.input) (v := s.dev) hcs hnl h hlen
      rw [← hcodes, hu, Option.map_some, eq_comm, Option.map_eq_some_iff] at hline
      obtain ⟨v', hv', heq⟩ := hline
      rw [Prod.mk.injEq] at heq
      obtain ⟨hdev, x, hx⟩ := quiet_run events hrest hq
      refine ⟨?_, x, ?_⟩
      · rw [hv', hdev, heq.2]
      · rw [hx, heq.1]
    · -- it has characters only
      rw [List.concat_eq_append] at hrest
      rw [hrest, ← List.append_assoc] at hcodes
      obtain ⟨hcodes, hx⟩ := List.append_inj' hcodes rfl
      obtain ⟨cs₁, cs₂, rfl, rfl, rfl⟩ := List.map_eq_append_iff.mp hcodes.symm
      rw [hx] at hrest
      rw [List.length_append] at hlen
      obtain ⟨out, hout⟩ := consoleintr_plain (m := m) (v := s.dev)
        (fun c hc => hcs c (List.mem_append_left cs₂ hc)) h (by omega)
      rw [hu, Option.some.injEq] at hout
      subst hout
      obtain ⟨hbounds, hdist⟩ := bounds_typeAll cs₁ h (by omega)
      have hafter := ih cs₂ (s := { s with input := typeAll s.input cs₁ })
        (fun c hc => hcs c (List.mem_append_right cs₁ hc)) hnl hbounds
        (by show (typeAll s.input cs₁).r = (typeAll s.input cs₁).w; simpa using hempty)
        (by show dist (typeAll s.input cs₁).r (typeAll s.input cs₁).e + _ < _; omega) hrest hq
      rw [typeAll, List.foldl_append]
      exact hafter

/-! ### Reading the line -/

/-- A pass that asks for all of a line takes it. -/
theorem readLoop_line (target : ℕ) : ∀ (cs dst : List UInt8) {g : Input},
    (∀ c ∈ cs, Plain c) → g.queue = cs ++ [0x0A] →
      ∃ g' val out, readLoop target false (cs.length + 1) dst g = (g', .ret val out) ∧
        g'.r = g'.w := by
  intro cs
  induction cs with
  | nil =>
    intro dst g _ hqueue
    have hne : g.r ≠ g.w := fun heq => by rw [Input.queue_eq_nil.mpr heq] at hqueue; simp at hqueue
    rw [Input.queue_eq_cons hne, List.nil_append, List.cons.injEq, Input.queue_eq_nil] at hqueue
    refine ⟨g.take, target - (0 : ℕ), dst ++ [0x0A], ?_, hqueue.2⟩
    rw [List.length_nil, readLoop, if_neg hne, hqueue.1]
    rfl
  | cons c cs ih =>
    intro dst g hcs hqueue
    have hne : g.r ≠ g.w := fun heq => by rw [Input.queue_eq_nil.mpr heq] at hqueue; simp at hqueue
    rw [Input.queue_eq_cons hne, List.cons_append, List.cons.injEq] at hqueue
    have hc := hcs c List.mem_cons_self
    have heof : c ≠ 0x04 := fun heq => hc (heq ▸ by decide)
    have hnl : c ≠ 0x0A := fun heq => hc (heq ▸ by decide)
    obtain ⟨g', val, out, hread, hend⟩ :=
      ih (dst ++ [c]) (fun b hb => hcs b (List.mem_cons_of_mem c hb)) hqueue.2
    refine ⟨g', val, out, ?_, hend⟩
    rw [List.length_cons, readLoop, if_neg hne, hqueue.1]
    dsimp only
    rw [if_neg heof, if_neg hnl, hread]

/-- A pass of a killed process with nothing to read ends its call. -/
theorem step_killed {s : Sys Vars} (hempty : s.input.r = s.input.w) (p : ℕ) :
    ∃ q, Sys.step (consoleintr m) s (.pass p true) = some q ∧ q.1.input = s.input ∧
      q.1.dev = s.dev ∧ q.1.readers p = none := by
  cases hrd : s.readers p with
  | none => exact ⟨_, Sys.step_pass_none hrd, rfl, rfl, hrd⟩
  | some rd =>
    have hret : ∃ val dst, consoleread s.input rd true = (s.input, .ret val dst) := by
      rw [consoleread]
      cases rd.n with
      | zero => exact ⟨_, _, rfl⟩
      | succ n =>
        unfold readLoop
        rw [if_pos hempty, if_pos rfl]
        exact ⟨_, _, rfl⟩
    obtain ⟨val, dst, hpass⟩ := hret
    exact ⟨_, Sys.step_pass_ret hrd hpass, rfl, rfl, Function.update_self _ _ _⟩

/-- **A line can be typed and read**, if its record is defined. -/
theorem exists_type_run {s : Sys Vars} {cs : List UInt8} {v : Vars} (hcs : ∀ c ∈ cs, Plain c)
    (h : s.input.Bounds) (hw : s.input.r = s.input.w) (he : s.input.r = s.input.e)
    (hlen : cs.length < 127) (hv : record m ((typeAll s.input cs).put 0x0A) s.dev = some v) :
    ∃ events r, events.flatMap Event.codes = cs.map UInt8.toNat ++ [0x0A] ∧
      Machine.run (Sys.step (consoleintr m)) s events = some r ∧
        r.1.input.r = r.1.input.w := by
  obtain ⟨p, hp, hinput, hdev, hfree⟩ := step_killed (m := m) hw 0
  have hzero : dist s.input.r s.input.e = 0 := dist_eq_zero.mpr he
  have hline := consoleintr_line (m := m) (g := s.input) (v := s.dev) hcs
    (rfl : crToNl 0x0A = 0x0A) h (by omega)
  rw [hv, Option.map_some, Option.map_eq_some_iff] at hline
  obtain ⟨q, hq, heq⟩ := hline
  rw [← hinput, ← hdev] at hq
  rw [Prod.mk.injEq] at heq
  -- what the reader finds
  obtain ⟨hbounds, hdist⟩ := bounds_typeAll cs h (by omega)
  have hqueue : q.1.queue = cs ++ [0x0A] := by
    have hnone : (typeAll s.input cs).queue = [] := Input.queue_eq_nil.mpr (by simpa using hw)
    rw [heq.1, Input.queue_commit (hbounds.put (by omega) _), Input.queue_put hbounds (by omega),
      Input.line_put hbounds (by omega), line_typeAll cs h (by omega), hnone,
      Input.line_eq_nil.mpr (he.symm.trans hw)]
    rfl
  obtain ⟨g', val, out, hread, hend⟩ := readLoop_line (cs.length + 1) cs [] hcs hqueue
  have hintr := Sys.step_intr hq
  have hcall : Sys.step (consoleintr m) { p.1 with input := q.1, dev := q.2.1 }
      (.call 0 (cs.length + 1)) = some _ := Sys.step_call_free hfree
  have hbusy : Function.update p.1.readers 0 (some ⟨cs.length + 1, cs.length + 1, []⟩) 0 =
      some ⟨cs.length + 1, cs.length + 1, []⟩ := Function.update_self _ _ _
  have hpass : Sys.step (consoleintr m) _ (.pass 0 false) = some _ :=
    Sys.step_pass_ret (s := ⟨q.1, q.2.1, Function.update p.1.readers 0
      (some ⟨cs.length + 1, cs.length + 1, []⟩)⟩) hbusy hread
  refine ⟨[.pass 0 true, .intr (cs.map UInt8.toNat ++ [0x0A]), .call 0 (cs.length + 1),
    .pass 0 false], _, by simp [Event.codes], Machine.run_cons_eq_some.mpr ⟨_, _, hp,
      Machine.run_cons_eq_some.mpr ⟨_, _, hintr, Machine.run_cons_eq_some.mpr ⟨_, _, hcall,
        Machine.run_cons_eq_some.mpr ⟨_, _, hpass, Machine.run_nil _ _, rfl⟩, rfl⟩, rfl⟩, rfl⟩,
    hend⟩

/-! ### The record -/

/-- The bytes of an array with `bs` laid over them from the index `q` on. -/
def overlay (a : Vector UInt8 128) (q : ℕ) (bs : List UInt8) : List UInt8 :=
  a.toList.take q ++ (bs ++ a.toList.drop (q + bs.length))

@[simp] theorem overlay_nil (a : Vector UInt8 128) (q : ℕ) : overlay a q [] = a.toList :=
  List.take_append_drop q _

/-- A byte laid over before the others. -/
theorem overlay_set {a : Vector UInt8 128} {q : ℕ} (h : q < 128) (b : UInt8) (bs : List UInt8) :
    overlay (a.set q b) (q + 1) bs = overlay a q (b :: bs) := by
  have hlt : q < a.toList.length := by simpa using h
  rw [overlay, overlay, Vector.toList_set, List.take_succ_eq_append_getElem (by simpa using hlt),
    List.take_set_of_le le_rfl, List.getElem_set_self, List.drop_set_of_lt (by omega),
    List.length_cons, List.append_assoc, Nat.add_right_comm, Nat.add_assoc]
  rfl

/-- A byte laid over behind the others. -/
theorem overlay_concat {a a' : Vector UInt8 128} {bs : List UInt8} (h : bs.length < 128)
    (ha : a'.toList = overlay a 0 bs) (b : UInt8) :
    (a'.set bs.length b).toList = overlay a 0 (bs ++ [b]) := by
  have hlt : bs.length < a.toList.length := by simpa using h
  rw [Vector.toList_set, ha, overlay, overlay, List.take_zero, List.nil_append, List.nil_append,
    Nat.zero_add, Nat.zero_add, List.set_append_right _ _ le_rfl, Nat.sub_self,
    List.drop_eq_getElem_cons hlt, List.set_cons_zero, List.length_append, List.length_singleton,
    List.append_assoc, List.singleton_append]

/-- What the loop records: the bytes it reads up to a newline. -/
theorem recordLoop_eq : ∀ (rs : List UInt8) (q : ℕ) (v : Vars), q + rs.length ≤ 128 →
    (∀ v k (hk : k < rs.length),
      bufAt m g v ((g.e - 1).toInt32.toInt - (q + k : ℕ) - 1) = rs[k]) →
      ∃ a, recordLoop m g rs.length q v = some { v with previousLine := a } ∧
        a.toList = overlay v.previousLine q (rs.takeWhile (· ≠ 0x0A)) := by
  intro rs
  induction rs with
  | nil =>
    intro q v _ _
    exact ⟨v.previousLine, rfl, (overlay_nil _ _).symm⟩
  | cons b rs ih =>
    intro q v hq hread
    rw [List.length_cons] at hq
    have hb : bufAt m g v ((g.e - 1).toInt32.toInt - q - 1) = b := hread v 0 (by simp)
    rw [List.length_cons]
    unfold recordLoop
    dsimp only
    rw [hb]
    by_cases hnl : b = 0x0A
    · -- the newline of the line before ends the record
      rw [if_neg (not_not.mpr hnl), List.takeWhile_cons_of_neg (by simpa using hnl)]
      exact ⟨v.previousLine, rfl, (overlay_nil _ _).symm⟩
    · rw [if_pos hnl, dif_pos (by omega), List.takeWhile_cons_of_pos (by simpa using hnl)]
      obtain ⟨a, ha, hlist⟩ := ih (q + 1)
        { v with previousLine := v.previousLine.set q b (by omega) } (by omega) fun v k hk => by
          rw [Nat.add_right_comm, Nat.add_assoc]
          exact hread v (k + 1) (by simpa using hk)
      exact ⟨a, ha, hlist.trans (overlay_set (by omega) b _)⟩

end Helpful
end Console
end Xv6

import Xv6.Console.Screen

/-!
# The background colour and the text

The whole output side of `B22ES019/bgcolor_change/console.c`: `consputc` sends a
character to the serial port and to the screen, where it is drawn on the colour
that Ctrl+B switches.  The colour is compared with nothing and only goes into the
attributes of cells, so two runs that differ in the Ctrl+Bs typed differ in nothing
else.

* `Monitor`, `consputc`, `Display.consoleintr`, `Display.step` — the devices, and the
  system with them.
* `Display.consoleintr_eq` — without the devices, this is the line discipline.
* `Content` — all that a run leaves, but for the colour and the attributes.
* `Same` — two monitors that differ in colours only.
* `same_consputc`, `same_consoleintr`, `same_step` — every operation keeps that.
* `content_withoutToggle` — **removing all Ctrl+Bs changes no content.**
-/

namespace Xv6
namespace Console
namespace Bgcolor

/-! ### The output side -/

/-- The devices that `consputc` writes to, with `bg_color`, whether there is a serial
port, and the bytes sent there. -/
structure Monitor where
  bg_color : ℕ
  cga : Cga
  uart : Bool
  serial : List UInt8

def uartputc (c : ℤ) (d : Monitor) : Monitor :=
  if d.uart then { d with serial := d.serial ++ [UInt8.ofNat (c % 256).toNat] } else d

/-- `consputc`, when the console has not panicked. -/
def consputc (c : ℤ) (d : Monitor) : Option Monitor :=
  let d := if c = backspaceCode then uartputc 0x08 (uartputc 0x20 (uartputc 0x08 d))
    else uartputc c d
  (cgaputc d.bg_color c d.cga).map fun cga => { d with cga := cga }

/-- `consputc` for each character of a text. -/
def print (text : List ℤ) (d : Monitor) : Option Monitor :=
  text.foldlM (fun d c => consputc c d) d

/-- The characters among the outputs of the line discipline. -/
def printed (os : List Out) : List ℤ :=
  os.filterMap fun
    | .putc c => some c
    | _ => none

namespace Display

/-- The switch of `consoleintr`, with its output on the devices.  The case that switches
the colour prints nothing. -/
def code (s : Input × Monitor) (c : ℕ) : Option ((Input × Monitor) × List Out × Bool) :=
  let p := Bgcolor.code (s.1, s.2.bg_color) c
  (print (printed p.2.1) { s.2 with bg_color := p.1.2 }).map fun d => ((p.1.1, d), p.2)

/-- `consoleintr`, where `listing` is what `procdump` prints. -/
def consoleintr (listing : List ℤ) (g : Input) (d : Monitor) (cs : List ℕ) :
    Option (Input × Monitor × List Out) :=
  (Machine.run code (g, d) cs).bind fun r =>
    if r.2.any Prod.snd then
      (print listing r.1.2).map fun d => (r.1.1, d, r.2.flatMap Prod.fst ++ [.procdump])
    else some (r.1.1, r.1.2, r.2.flatMap Prod.fst)

/-- What happens to the console. -/
inductive Act
  /-- An event; `listing` is the process listing at the time. -/
  | event (ev : Event) (listing : List ℤ)
  /-- A process or the kernel prints. -/
  | print (text : List ℤ)

/-- One step of the console and its readers. -/
def step (s : Sys Monitor) : Act → Option (Sys Monitor × Answer)
  | .event ev listing => s.step (consoleintr listing) ev
  | .print text => (Bgcolor.print text s.dev).map fun d => ({ s with dev := d }, {})

/-- Without its Ctrl+Bs. -/
def Act.withoutToggle : Act → Act
  | .event (.intr cs) listing => .event (.intr (cs.filter (· ≠ 0x02))) listing
  | a => a

/-- What there is in the console besides colours: the ring, the calls of `consoleread`,
the cursor, the characters on the screen and the bytes sent to the serial port. -/
structure Content where
  input : Input
  readers : ℕ → Option Reader
  pos : ℕ
  chr : ℕ → UInt8
  serial : List UInt8

def content (s : Sys Monitor) : Content :=
  ⟨s.input, s.readers, s.dev.cga.pos, s.dev.cga.chr, s.dev.serial⟩

end Display

/-! ### The line discipline -/

theorem bg_color_consputc {c : ℤ} {d d' : Monitor} (h : consputc c d = some d') :
    d'.bg_color = d.bg_color := by
  obtain ⟨cga, -, rfl⟩ := Option.map_eq_some_iff.mp h
  dsimp only [uartputc]
  repeat' split
  all_goals rfl

theorem bg_color_print : ∀ {text : List ℤ} {d d' : Monitor}, print text d = some d' →
    d'.bg_color = d.bg_color := by
  intro text
  induction text with
  | nil =>
    intro d d' h
    cases h
    rfl
  | cons c text ih =>
    intro d d' h
    obtain ⟨d₁, hfirst, hrest⟩ := Option.bind_eq_some_iff.mp h
    rw [ih hrest, bg_color_consputc hfirst]

theorem Display.run_code : ∀ {cs : List ℕ} {s : Input × Monitor} {r},
    Machine.run code s cs = some r →
    Machine.final Bgcolor.code (s.1, s.2.bg_color) cs = (r.1.1, r.1.2.bg_color) ∧
      Machine.outputs Bgcolor.code (s.1, s.2.bg_color) cs = r.2 := by
  intro cs
  induction cs with
  | nil =>
    intro s r h
    cases h
    exact ⟨rfl, rfl⟩
  | cons c cs ih =>
    intro s r h
    obtain ⟨p, q, hp, hq, rfl⟩ := Machine.run_cons_eq_some.mp h
    obtain ⟨d, hprint, rfl⟩ := Option.map_eq_some_iff.mp hp
    have hcolor : d.bg_color = (Bgcolor.code (s.1, s.2.bg_color) c).1.2 := bg_color_print hprint
    obtain ⟨hfinal, houts⟩ := ih hq
    dsimp only at hfinal houts
    rw [hcolor] at hfinal houts
    exact ⟨hfinal, congrArg _ houts⟩

/-- Without its devices, this is the `consoleintr` of the line discipline. -/
theorem Display.consoleintr_eq {listing : List ℤ} {g : Input} {d : Monitor} {cs : List ℕ}
    {q : Input × Monitor × List Out} (h : consoleintr listing g d cs = some q) :
    Bgcolor.consoleintr g d.bg_color cs = some (q.1, q.2.1.bg_color, q.2.2) := by
  obtain ⟨r, hrun, hr⟩ := Option.bind_eq_some_iff.mp h
  obtain ⟨hfinal, houts⟩ := run_code hrun
  dsimp only at hfinal houts
  rw [Bgcolor.consoleintr, hfinal, houts]
  split at hr
  · next hdump =>
    obtain ⟨d', hprint, rfl⟩ := Option.map_eq_some_iff.mp hr
    rw [if_pos hdump, bg_color_print hprint]
  · next hdump =>
    cases hr
    rw [if_neg hdump, List.append_nil]

/-! ### Two runs -/

/-- Two screens with the same text. -/
structure SameText (s t : Cga) : Prop where
  pos : s.pos = t.pos
  chr : ∀ i, s.chr i = t.chr i

theorem SameText.put {s t : Cga} (h : SameText s t) (i v : ℕ) :
    SameText (s.put i v) (t.put i v) := by
  refine ⟨h.pos, fun j => ?_⟩
  rw [Cga.chr_put, Cga.chr_put, h.chr]

theorem SameText.scroll {s t : Cga} (h : SameText s t) : SameText s.scroll t.scroll := by
  refine ⟨by rw [Cga.scroll, Cga.scroll, h.pos], fun i => ?_⟩
  rw [Cga.chr_scroll, Cga.chr_scroll, h.pos, h.chr, h.chr]

theorem SameText.write {s t : Cga} (h : SameText s t) {bg bg' : ℕ}
    (hbg : bg = black ∨ bg = blue) (hbg' : bg' = black ∨ bg' = blue) (c : ℤ) :
    SameText (s.write bg c) (t.write bg' c) := by
  refine ⟨?_, fun i => ?_⟩
  · unfold Cga.write
    split
    · exact congrArg (fun pos => pos + (80 - pos % 80)) h.pos
    · split
      · exact congrArg (· - 1) h.pos
      · exact congrArg (· + 1) h.pos
  · rw [Cga.chr_write hbg, Cga.chr_write hbg', h.pos, h.chr]

/-- The colour decides nothing in `cgaputc`. -/
theorem sameText_cgaputc {s t : Cga} (h : SameText s t) {bg bg' : ℕ}
    (hbg : bg = black ∨ bg = blue) (hbg' : bg' = black ∨ bg' = blue) (c : ℤ) :
    Option.Rel SameText (cgaputc bg c s) (cgaputc bg' c t) := by
  have hwrite := h.write hbg hbg' c
  unfold cgaputc
  dsimp only
  rw [hwrite.pos]
  split
  · exact .none
  · refine .some ?_
    split
    · have hscroll := hwrite.scroll
      rw [hscroll.pos]
      exact hscroll.put _ _
    · rw [hwrite.pos]
      exact hwrite.put _ _

/-- Two monitors that differ in colours only. -/
structure Same (d e : Monitor) : Prop where
  color : d.bg_color = black ∨ d.bg_color = blue
  color' : e.bg_color = black ∨ e.bg_color = blue
  text : SameText d.cga e.cga
  uart : d.uart = e.uart
  serial : d.serial = e.serial

theorem Same.uartputc {d e : Monitor} (h : Same d e) (c : ℤ) :
    Same (uartputc c d) (uartputc c e) := by
  unfold Bgcolor.uartputc
  by_cases huart : d.uart = true
  · rw [if_pos huart, if_pos (h.uart ▸ huart)]
    exact ⟨h.color, h.color', h.text, h.uart, by rw [h.serial]⟩
  · rw [if_neg huart, if_neg (h.uart ▸ huart)]
    exact h

theorem same_consputc {d e : Monitor} (h : Same d e) (c : ℤ) :
    Option.Rel Same (consputc c d) (consputc c e) := by
  have hsent : Same
      (if c = backspaceCode then uartputc 0x08 (uartputc 0x20 (uartputc 0x08 d)) else uartputc c d)
      (if c = backspaceCode then uartputc 0x08 (uartputc 0x20 (uartputc 0x08 e))
        else uartputc c e) := by
    split
    · exact ((h.uartputc _).uartputc _).uartputc _
    · exact h.uartputc _
  have hdrawn := sameText_cgaputc hsent.text hsent.color hsent.color' c
  exact Machine.rel_map hdrawn fun _ _ htext =>
    ⟨hsent.color, hsent.color', htext, hsent.uart, hsent.serial⟩

theorem same_print : ∀ (text : List ℤ) {d e : Monitor}, Same d e →
    Option.Rel Same (print text d) (print text e) := by
  intro text
  induction text with
  | nil => intro d e h; exact .some h
  | cons c text ih =>
    intro d e h
    exact Machine.rel_bind (same_consputc h c) fun _ _ hsame => ih hsame

/-- The switch, when the code is not Ctrl+B: what it does is independent of the colour. -/
theorem code_color {c : ℕ} (hc : c ≠ 0x02) (g : Input) (bg bg' : ℕ) :
    Bgcolor.code (g, bg) c =
      (((Bgcolor.code (g, bg') c).1.1, bg), (Bgcolor.code (g, bg') c).2) := by
  unfold Bgcolor.code
  rw [if_neg hc, if_neg hc]
  repeat' split
  all_goals rfl

namespace Display

/-- The state of the switch in the two runs. -/
def SameState (s t : Input × Monitor) : Prop := s.1 = t.1 ∧ Same s.2 t.2

theorem same_code {s t : Input × Monitor} (h : SameState s t) {c : ℕ} (hc : c ≠ 0x02) :
    Option.Rel (fun p q => SameState p.1 q.1 ∧ p.2 = q.2) (code s c) (code t c) := by
  obtain ⟨g, d⟩ := s
  obtain ⟨g', e⟩ := t
  obtain ⟨hg, hsame⟩ := h
  dsimp only at hg hsame
  subst hg
  have hcode := code_color hc g d.bg_color e.bg_color
  have hcode' := code_color hc g e.bg_color e.bg_color
  unfold code
  rw [hcode, hcode']
  exact Machine.rel_map (same_print _ hsame) fun _ _ hprint => ⟨⟨rfl, hprint⟩, rfl⟩

/-- A Ctrl+B in the one run only. -/
theorem code_toggle {s t : Input × Monitor} (h : SameState s t) :
    ∃ d, code s 0x02 = some ((s.1, d), [], false) ∧ SameState (s.1, d) t := by
  have hcolor : (if s.2.bg_color = black then blue else black) = black ∨
      (if s.2.bg_color = black then blue else black) = blue := by
    split
    · exact .inr rfl
    · exact .inl rfl
  exact ⟨_, rfl, h.1, hcolor, h.2.color', h.2.text, h.2.uart, h.2.serial⟩

/-- What matters of the outputs of the codes of one call. -/
def SameOuts (os os' : List (List Out × Bool)) : Prop :=
  os.flatMap Prod.fst = os'.flatMap Prod.fst ∧ os.any Prod.snd = os'.any Prod.snd

/-- A call of `consoleintr` whose Ctrl+Bs are removed in the other run. -/
theorem same_run_code : ∀ (cs : List ℕ) {s t : Input × Monitor}, SameState s t →
    Option.Rel (fun p q => SameState p.1 q.1 ∧ SameOuts p.2 q.2) (Machine.run code s cs)
      (Machine.run code t (cs.filter (· ≠ 0x02))) := by
  intro cs
  induction cs with
  | nil => intro s t h; exact .some ⟨h, rfl, rfl⟩
  | cons c cs ih =>
    intro s t h
    rcases eq_or_ne c 0x02 with rfl | hc
    · obtain ⟨d, hcode, hsame⟩ := code_toggle h
      have hrest := ih hsame
      rw [List.filter_cons_of_neg (by simp), Machine.run, hcode, Option.bind_some]
      have hmap := Machine.rel_map (f := fun q => (q.1, ([], false) :: q.2)) (g := id)
        (S := fun p q => SameState p.1 q.1 ∧ SameOuts p.2 q.2) hrest fun _ _ hr => hr
      rw [Option.map_id] at hmap
      exact hmap
    · rw [List.filter_cons_of_pos (by simpa using hc)]
      refine Machine.rel_bind (same_code h hc) fun p q hpq => ?_
      refine Machine.rel_map (ih hpq.1) fun r r' hr => ⟨hr.1, ?_, ?_⟩
      · rw [List.flatMap_cons, List.flatMap_cons, hpq.2, hr.2.1]
      · rw [List.any_cons, List.any_cons, hpq.2, hr.2.2]

theorem same_consoleintr (listing : List ℤ) (cs : List ℕ) (g : Input) {d e : Monitor}
    (h : Same d e) :
    Option.Rel (fun p q => p.1 = q.1 ∧ Same p.2.1 q.2.1 ∧ p.2.2 = q.2.2)
      (consoleintr listing g d cs) (consoleintr listing g e (cs.filter (· ≠ 0x02))) := by
  refine Machine.rel_bind (same_run_code cs (s := (g, d)) (t := (g, e)) ⟨rfl, h⟩) ?_
  rintro r r' ⟨hstate, houts, hany⟩
  rw [houts, hany]
  split
  · exact Machine.rel_map (same_print _ hstate.2) fun _ _ hprint => ⟨hstate.1, hprint, rfl⟩
  · exact .some ⟨hstate.1, hstate.2, rfl⟩

/-- Two systems that differ in colours only. -/
structure SameSys (s t : Sys Monitor) : Prop where
  input : s.input = t.input
  readers : s.readers = t.readers
  dev : Same s.dev t.dev

theorem SameSys.content {s t : Sys Monitor} (h : SameSys s t) : content s = content t := by
  rw [Display.content, Display.content, h.input, h.readers, h.dev.text.pos, h.dev.serial,
    funext h.dev.text.chr]

/-- A step, and the same step without its Ctrl+Bs. -/
theorem same_step {s t : Sys Monitor} (h : SameSys s t) (a : Act) :
    Option.Rel (fun p q => SameSys p.1 q.1 ∧ p.2 = q.2) (step s a) (step t a.withoutToggle) := by
  obtain ⟨hinput, hreaders, hdev⟩ := h
  obtain ⟨g, d, rd⟩ := s
  obtain ⟨g', e, rd'⟩ := t
  dsimp only at hinput hreaders hdev
  subst hinput hreaders
  cases a with
  | print text =>
    exact Machine.rel_map (same_print text hdev) fun _ _ hprint => ⟨⟨rfl, rfl, hprint⟩, rfl⟩
  | event ev listing =>
    cases ev with
    | intr cs =>
      refine Machine.rel_map (same_consoleintr listing cs g hdev) fun p q hpq => ?_
      exact ⟨⟨hpq.1, rfl, hpq.2.1⟩, by rw [hpq.2.2]⟩
    | call p n =>
      show Option.Rel _ (Sys.step (consoleintr listing) _ (.call p n))
        (Sys.step (consoleintr listing) _ (.call p n))
      cases hrd : rd p with
      | none =>
        rw [Sys.step_call_free hrd, Sys.step_call_free hrd]
        exact .some ⟨⟨rfl, rfl, hdev⟩, rfl⟩
      | some r =>
        rw [Sys.step_call_busy hrd, Sys.step_call_busy hrd]
        exact .some ⟨⟨rfl, rfl, hdev⟩, rfl⟩
    | pass p killed =>
      show Option.Rel _ (Sys.step (consoleintr listing) _ (.pass p killed))
        (Sys.step (consoleintr listing) _ (.pass p killed))
      cases hrd : rd p with
      | none =>
        rw [Sys.step_pass_none hrd, Sys.step_pass_none hrd]
        exact .some ⟨⟨rfl, rfl, hdev⟩, rfl⟩
      | some r =>
        rcases hread : consoleread g r killed with ⟨g', ⟨val, dst⟩ | r'⟩
        · rw [Sys.step_pass_ret hrd hread, Sys.step_pass_ret hrd hread]
          exact .some ⟨⟨rfl, rfl, hdev⟩, rfl⟩
        · rw [Sys.step_pass_sleep hrd hread, Sys.step_pass_sleep hrd hread]
          exact .some ⟨⟨rfl, rfl, hdev⟩, rfl⟩

/-- **Removing all Ctrl+Bs changes no content.**  From boot, with anything on the screen,
and for any order of key codes, prints and calls of `consoleread`: the run and the run
without its Ctrl+Bs both panic, or they give the same answers and leave the same ring, the
same calls in progress, the same cursor, the same characters on the screen and the same
bytes at the serial port. -/
theorem content_withoutToggle (screen : Cga) (uart : Bool) (acts : List Act) :
    (Machine.run step (Sys.boot ⟨black, screen, uart, []⟩) acts).map
        (fun r => (content r.1, r.2)) =
      (Machine.run step (Sys.boot ⟨black, screen, uart, []⟩)
        (acts.map Act.withoutToggle)).map (fun r => (content r.1, r.2)) := by
  have hboot : SameSys (Sys.boot ⟨black, screen, uart, []⟩)
      (Sys.boot ⟨black, screen, uart, []⟩) :=
    ⟨rfl, rfl, .inl rfl, .inl rfl, ⟨rfl, fun _ => rfl⟩, rfl, rfl⟩
  have hrel := Machine.run_rel (R := SameSys) (f := Act.withoutToggle)
    (fun s t a h => same_step h a) acts _ _ hboot
  generalize Machine.run step _ acts = x at hrel ⊢
  generalize Machine.run step _ (acts.map Act.withoutToggle) = y at hrel ⊢
  cases hrel with
  | none => rfl
  | some h => rw [Option.map_some, Option.map_some, h.1.content, h.2]

end Display

end Bgcolor
end Console
end Xv6

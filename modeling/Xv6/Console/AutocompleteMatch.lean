import Xv6.Console.AutocompleteScan

/-!
# What a completion types

The first command that `strncmp` finds to agree with the current word is the least of those that
start with it, although the table is not sorted: of the names that `console` should come before
none has its initial.

## Main results

* `strncmp_eq_zero_iff` — which strings `strncmp` finds to agree.
* `match?_of_isLeast`, `drop_of_match?` — what is found.
* `completion_eq` — **what a TAB types.**
-/

namespace Xv6
namespace Console
namespace Autocomplete

open Counter

variable {m : Memory} {g : Input}

/-! ### The match -/

/-- `strncmp` over the length of `p` finds agreement with a string that has `p` as a prefix, and
with one that `p` goes on behind with a NUL. -/
theorem strncmp_eq_zero_iff : ∀ (p c : List UInt8), 0 ∉ c →
    (strncmp p c p.length = 0 ↔ p <+: c ∨ c ++ [0] <+: p) := by
  intro p
  induction p with
  | nil => intro c _; simp [strncmp]
  | cons x p ih =>
    intro c hc
    rw [List.length_cons, strncmp]
    cases c with
    | nil =>
      -- the NUL of the string agrees with a NUL only
      have hdiff : ((x.toNat : ℤ) - (0 : UInt8).toNat = 0) ↔ x = 0 := by
        rw [← UInt8.toNat_inj]
        omega
      rw [List.headD_cons, List.headD_nil, if_neg fun h => h.1 h.2, hdiff]
      simp [eq_comm]
    | cons y c =>
      have hy : y ≠ 0 := fun h => hc (h ▸ List.mem_cons_self)
      rw [List.headD_cons, List.headD_cons, List.tail_cons, List.tail_cons, List.cons_append,
        List.cons_prefix_cons, List.cons_prefix_cons]
      by_cases hxy : x = y
      · rw [if_pos ⟨hxy ▸ hy, hxy⟩, ih c fun h => hc (List.mem_cons_of_mem y h)]
        simp [hxy]
      · rw [if_neg fun h => hxy h.2]
        have hdiff : ((x.toNat : ℤ) - y.toNat = 0) ↔ x = y := by
          rw [← UInt8.toNat_inj]
          omega
        rw [hdiff]
        simp [hxy, Ne.symm hxy]

/-- The commands that start with `p`. -/
def candidates (p : List UInt8) : Set (List UInt8) := {c | c ∈ commands ∧ p <+: c}

theorem zero_notMem_commands : ∀ c ∈ commands, 0 ∉ c := by decide +kernel

/-- The commands come in order, but for one with an initial of its own among those that it should
come before. -/
theorem pairwise_commands : commands.Pairwise fun c d => c ≤ d ∨ c.head? ≠ d.head? := by
  decide +kernel

/-- **The first command that starts with `p` is the least one.** -/
theorem isLeast_of_find? {p c : List UInt8} (h : commands.find? (p.isPrefixOf ·) = some c) :
    IsLeast (candidates p) c := by
  obtain ⟨hp, before, behind, hcommands, hbefore⟩ := List.find?_eq_some_iff_append.mp h
  have hprefix := List.isPrefixOf_iff_prefix.mp hp
  have hmem : c ∈ commands := by
    rw [hcommands]
    exact List.mem_append_right _ List.mem_cons_self
  refine ⟨⟨hmem, hprefix⟩, fun d hd => ?_⟩
  cases p with
  | nil =>
    -- the first name of the table is the least
    have hfirst : commands.find? (([] : List UInt8).isPrefixOf ·) = some (str "cat") := rfl
    obtain rfl := Option.some.inj (hfirst.symm.trans h)
    have hleast : ∀ d ∈ commands, str "cat" ≤ d := by decide +kernel
    exact hleast d hd.1
  | cons x p =>
    have hmem' := hd.1
    rw [hcommands, List.mem_append, List.mem_cons] at hmem'
    rcases hmem' with hmem' | rfl | hmem'
    · have hno := hbefore d hmem'
      rw [List.isPrefixOf_iff_prefix.mpr hd.2] at hno
      contradiction
    · exact List.le_refl d
    · -- names with a letter in common at their start are in order
      have hpair := pairwise_commands
      rw [hcommands, List.pairwise_append, List.pairwise_cons] at hpair
      refine (hpair.2.1.1 d hmem').resolve_right fun hne => hne ?_
      obtain ⟨s, rfl⟩ := hprefix
      obtain ⟨t, rfl⟩ := hd.2
      rfl

/-- Without a NUL in the word, the match is the first command that starts with it. -/
theorem match?_eq_find? {p : List UInt8} (h : 0 ∉ p) :
    match? p = commands.find? (p.isPrefixOf ·) := by
  have hagree : ∀ c ∈ commands, (strncmp p c p.length == 0) = p.isPrefixOf c := by
    intro c hc
    rw [Bool.eq_iff_iff, beq_iff_eq, strncmp_eq_zero_iff p c (zero_notMem_commands c hc),
      List.isPrefixOf_iff_prefix]
    exact or_iff_left fun hnul => h (hnul.subset (List.mem_append_right _ List.mem_cons_self))
  unfold match?
  rw [List.find?_congr hagree]

/-- **What is found if a command starts with the word.** -/
theorem match?_of_isLeast {p c : List UInt8} (h : IsLeast (candidates p) c) :
    match? p = some c := by
  have hnul : 0 ∉ p := fun hp => zero_notMem_commands c h.1.1 (h.1.2.subset hp)
  rw [match?_eq_find? hnul]
  obtain ⟨d, hd⟩ : ∃ d, commands.find? (p.isPrefixOf ·) = some d := by
    rw [← Option.isSome_iff_exists, List.find?_isSome]
    exact ⟨c, h.1.1, List.isPrefixOf_iff_prefix.mpr h.1.2⟩
  have hleast := isLeast_of_find? hd
  rw [hd]
  exact congrArg some (List.le_antisymm (hleast.2 h.1) (h.2 hleast.1))

/-- **What is found if none does** has nothing behind the word. -/
theorem drop_of_match? {p : List UInt8} (h : ∀ c ∈ commands, ¬ p <+: c) :
    ∀ found ∈ match? p, found.drop p.length = [] := by
  intro found hfound
  have hmem : found ∈ commands := List.mem_of_find?_eq_some hfound
  have hagree := List.find?_some hfound
  rw [beq_iff_eq, strncmp_eq_zero_iff p found (zero_notMem_commands found hmem)] at hagree
  have hle := (hagree.resolve_left (h found hmem)).length_le
  rw [List.length_append] at hle
  exact List.drop_eq_nil_iff.mpr (by omega)

/-! ### The completion -/

/-- The loop that types the rest of a command. -/
theorem append_spec : ∀ (cs : List UInt8) {g : Input}, dist g.r g.e + cs.length ≤ 128 →
    (append g cs).2 = cs.map (fun c => .putc c.toNat) ∧
      unread (append g cs).1 = unread g ++ cs ∧
      ∀ i, 0 < dist i g.e → dist i g.e + cs.length ≤ 128 → (append g cs).1.get i = g.get i := by
  intro cs
  induction cs with
  | nil =>
    intro g _
    exact ⟨rfl, (List.append_nil _).symm, fun i _ _ => rfl⟩
  | cons c cs ih =>
    intro g hroom
    rw [List.length_cons] at hroom
    have hput := Input.dist_put (g := g) (c := c) (by omega)
    obtain ⟨hout, htext, hframe⟩ := ih (g := g.put c) (by omega)
    have hunread : unread (g.put c) = unread g ++ [c] := by
      rw [unread, hput, segment_succ, Input.put_r, Input.segment_put (by omega) c le_rfl le_rfl,
        add_dist, Input.get_put_self]
      rfl
    refine ⟨congrArg (Out.putc c.toNat :: ·) hout, ?_, fun i hi hle => ?_⟩
    · show unread (append (g.put c) cs).1 = _
      rw [htext, hunread, List.append_assoc, List.singleton_append]
    · rw [List.length_cons] at hle
      have hnext : dist i (g.e + 1) = dist i g.e + 1 := dist_succ_right (by omega)
      show (append (g.put c) cs).1.get i = _
      rw [hframe i (by rw [Input.put_e]; omega) (by rw [Input.put_e]; omega),
        Input.get_put_of_lt hi (by omega)]

/-- **The completion with the unread text below `2 ^ 31`** and not at the start of the ring. -/
theorem autocomplete_low (hr : g.r ≠ 0) (hle : g.r ≤ g.e) (he : g.e.toNat ≤ 2 ^ 31)
    (hshort : (current g).length < 128) :
    autocomplete m g = match match? (current g) with
      | some found => some (append g (found.drop (current g).length))
      | none => some (g, []) := by
  have hnum := UInt32.le_iff_toNat_le.mp hle
  have hdist : dist g.r g.e = g.e.toNat - g.r.toNat := by
    rw [dist_eq]
    have := UInt32.toNat_lt g.e
    omega
  obtain ⟨-, j, hj, hstop, hword⟩ :=
    scanWord_low (m := m) (dist g.r g.e) (dist g.r g.e + 128) (by omega) (by omega) (.inl hr)
  have hcursor : g.r + UInt32.ofNat (dist g.r g.e) - 1 = g.e - 1 := by rw [add_dist]
  have hto : dist g.r (g.r + UInt32.ofNat j) = j := dist_add_ofNat _ (by omega)
  have hfrom : dist (g.r + UInt32.ofNat j) g.e = dist g.r g.e - j := by
    rw [dist_of_le (a := g.r) (by omega), hto]
  -- the copy of the word
  have hcopy : segment (charAt m g) (g.r + UInt32.ofNat j) (dist g.r g.e - j) = current g := by
    refine Eq.trans (segment_congr _ _ _ fun k hk => charAt_of_inBuf ?_) hword
    rw [inBuf_index_iff, UInt32.add_assoc, ← UInt32.ofNat_add, toNat_add_ofNat (by omega)]
    omega
  have hlen : dist g.r g.e - j = (current g).length := by rw [← hcopy, length_segment]
  rw [hcursor] at hstop
  unfold autocomplete
  rw [hstop, Option.bind_some]
  dsimp only
  rw [UInt32.sub_add_cancel, hfrom, hcopy, hlen]
  exact if_pos hshort

/-- An interrupt with a TAB. -/
theorem consoleintr_tab : consoleintr m g () [0x09] =
    (autocomplete m g).map fun p => (p.1, (), p.2) := by
  have hcode : code m g 0x09 = (autocomplete m g).map fun p => (p.1, p.2, false) := rfl
  rw [consoleintr, Machine.run, hcode]
  cases autocomplete m g with
  | none => rfl
  | some p => simp

/-- **What a TAB types**: the rest of the least command that starts with the current word, if
there is one and the rest fits the ring, and nothing if there is none.  Nothing in front of the
cursor changes. -/
theorem completion_eq (m : Memory) (g : Input) (hr : 1 ≤ g.r) (hrw : g.r ≤ g.w) (hwe : g.w ≤ g.e)
    (he : g.e < 0x80000000) (hshort : (current g).length < 128) :
    (∀ c, IsLeast (candidates (current g)) c →
      dist g.r g.e + (c.length - (current g).length) ≤ 128 →
        ∃ g', consoleintr m g () [0x09] =
            some (g', (), (c.drop (current g).length).map fun b => .putc b.toNat) ∧
          g'.r = g.r ∧ g'.w = g.w ∧ unread g' = unread g ++ c.drop (current g).length ∧
          ∀ i, 0 < dist i g.e → dist i g.e + (c.length - (current g).length) ≤ 128 →
            g'.get i = g.get i) ∧
      ((∀ c ∈ commands, ¬ current g <+: c) → consoleintr m g () [0x09] = some (g, (), [])) := by
  have hpos : g.r ≠ 0 := by
    rintro hzero
    rw [hzero] at hr
    exact absurd hr (by decide)
  have hlow : g.e.toNat ≤ 2 ^ 31 := (UInt32.lt_iff_toNat_lt.mp he).le
  have hauto := autocomplete_low (m := m) hpos (UInt32.le_trans hrw hwe) hlow hshort
  constructor
  · intro c hc hroom
    rw [match?_of_isLeast hc] at hauto
    have hlen : (c.drop (current g).length).length = c.length - (current g).length :=
      List.length_drop
    obtain ⟨hout, htext, hframe⟩ :=
      append_spec (c.drop (current g).length) (g := g) (by rw [hlen]; exact hroom)
    have hgrown := grown_append (c.drop (current g).length) g
    rw [hlen] at hframe
    refine ⟨_, ?_, hgrown.r, hgrown.w, htext, hframe⟩
    rw [consoleintr_tab, hauto, Option.map_some, hout]
  · intro hno
    have hdrop := drop_of_match? hno
    rw [consoleintr_tab, hauto]
    cases hfound : match? (current g) with
    | none => rfl
    | some found =>
      dsimp only
      rw [hdrop found hfound]
      rfl

/-- The rule where `ec` is completed on the second line. -/
theorem completion_echo : ∃ r g',
    Machine.run (Sys.step (consoleintr Memory.blank)) (Sys.boot ())
      [.intr [0x78, 0x0A], .call 0 2, .pass 0 false, .intr [0x65, 0x63]] = some r ∧
      consoleintr Memory.blank r.1.input () [0x09] =
        some (g', (), (str "ho").map fun b => .putc b.toNat) ∧ unread g' = str "echo" := by
  have hrun : (Machine.run (Sys.step (consoleintr Memory.blank)) (Sys.boot ())
      [.intr [0x78, 0x0A], .call 0 2, .pass 0 false, .intr [0x65, 0x63]]).map
        (fun r : Sys Unit × List Answer =>
          (r.1.input.r, r.1.input.w, r.1.input.e, unread r.1.input)) =
        some (2, 2, 4, str "ec") := by
    decide +kernel
  obtain ⟨r, hr, hstate⟩ := Option.map_eq_some_iff.mp hrun
  simp only [Prod.mk.injEq] at hstate
  obtain ⟨hread, hwrite, hedit, htext⟩ := hstate
  have hword : current r.1.input = str "ec" := by
    rw [current, htext]
    decide
  obtain ⟨g', hg', -, -, hunread, -⟩ := (completion_eq Memory.blank r.1.input
    (by rw [hread]; decide) (by rw [hread, hwrite]; decide) (by rw [hwrite, hedit]; decide)
    (by rw [hedit]; decide) (by rw [hword]; decide)).1 (str "echo")
    (by rw [hword]; exact isLeast_of_find? rfl) (by rw [hread, hedit, hword]; decide)
  rw [hword] at hg' hunread
  exact ⟨r, g', hr, hg', hunread.trans (by rw [htext]; decide)⟩

end Autocomplete
end Console
end Xv6

import Xv6.User.Malloc

/-!
# The list of free blocks

What `malloc` and `free` of `umalloc.c` make of the memory that `sbrk` gives them, which need not
be in one piece: the program calls `sbrk` too.

## Main definitions

* `Request`, `request` — a call of the program, with the memory that `malloc` obtains in it.
* `Shape` — the list of the free blocks, and the blocks in use.

## Main results

* `shape_malloc`, `shape_free` — what the functions keep.
* `freeList_shape` — **the list goes once round in the order of the addresses, free blocks do not
  touch, and the blocks cover what was obtained.**
-/

namespace Xv6
namespace Malloc

open Bytes FreeList Links Machine

/-! ### Requests -/

inductive Request
  | call (a : Action)
  /-- The program itself asks for memory. -/
  | sbrk (n : ℕ) (ok : Bool)

/-- What the program may ask for. -/
def Request.Small : Request → Prop
  | .call (.malloc nbytes _) => nbytes.toNat < 2 ^ 27
  | .call _ => True
  | .sbrk n _ => n < 2 ^ 31

/-- A request, with the ends of the memory that `malloc` obtains from `sbrk`. -/
def request (im : Image) (s : State) : Request → Option (State × (ℕ × ℕ))
  | .call a => (step im s a).map fun r => (r.1, (s.sz, r.1.sz))
  | .sbrk n ok =>
      match sbrk s n ok with
      | none => some (s, (s.sz, s.sz))
      | some (_, s') => some (s', (s'.sz, s'.sz))

/-- All memory obtained so far. -/
def obtained (os : List (ℕ × ℕ)) : Set ℕ := { a | ∃ o ∈ os, o.1 ≤ a ∧ a < o.2 }

/-- The headers of the blocks in use. -/
def heads (s : State) : List ℕ := s.live.map fun b => b.1 - 8

/-- The free blocks `l`, and the blocks in use, in the memory `C`. -/
structure Shape (im : Image) (s : State) (l : List ℕ) (C : Set ℕ) : Prop where
  head : l.head? = some im.base
  freep : s.freep ∈ l
  /-- The addresses go up, and wrap once. -/
  increasing : l.Pairwise (· < ·)
  cycle : ∀ (i : ℕ) (p : ℕ), l[i]? = some p → l[(i + 1) % l.length]? = some (ptr s.mem p)
  base_size : size s.mem im.base = 0
  /-- Free blocks do not touch. -/
  merged : ∀ p ∈ l, ∀ q ∈ l, p < q → p + 8 * size s.mem p < q
  apart : ∀ p ∈ l ++ heads s, ∀ q ∈ l ++ heads s, p < q → p + 8 * size s.mem p ≤ q
  nodup : (l ++ heads s).Nodup
  room : ∀ b ∈ s.live, 8 < b.1 ∧ b.2 + 8 ≤ 8 * size s.mem (b.1 - 8)
  cover : ∀ a, a ∈ C ↔ ∃ p ∈ l ++ heads s, p ≤ a ∧ a < p + 8 * size s.mem p

/-! ### The invariant -/

variable {im : Image} {F : Finset ℕ} {C : Set ℕ}

structure Shaped (im : Image) (s : State) (C : Set ℕ) : Prop where
  list : (s.freep = 0 ∧ s.live = [] ∧ C = ∅ ∧ im.sz ≤ s.sz ∧ s.sz < 2 ^ 32) ∨
    ∃ F, Heap im s.mem s.sz F (used s) ∧ s.freep ∈ F ∧
      Tight (fun k => 8 * size s.mem k) F (used s) C {im.base}
  nodup : (s.live.map Prod.fst).Nodup
  room : ∀ b ∈ s.live, 8 < b.1 ∧ b.2 + 8 ≤ 8 * size s.mem (b.1 - 8)

theorem tight_base (m : Memory) :
    Tight (fun k => 8 * size (setSize (setPtr m im.base im.base) im.base 0) k) {im.base} ∅ ∅
      {im.base} where
  cover a := by
    refine iff_of_false (Set.notMem_empty a) ?_
    rintro ⟨p, hp, hle, hlt⟩
    rw [Finset.union_empty, Finset.mem_singleton] at hp
    have hlen := (heap_base m : Heap im _ _ _ _).arena.base_len
    rw [hp] at hle hlt
    omega
  merged p hp hne := absurd (Finset.mem_singleton.mp hp) hne

/-- The heap that `malloc` finds at its first test. -/
theorem shaped_ready {s : State} (h : Shaped im s C) :
    ∃ F, Heap im (ready im s).mem (ready im s).sz F (used s) ∧ (ready im s).freep ∈ F ∧
      (ready im s).live = s.live ∧ (ready im s).sz = s.sz ∧
      (∀ k ∈ used s, size (ready im s).mem k = size s.mem k) ∧
      Tight (fun k => 8 * size (ready im s).mem k) F (used s) C {im.base} := by
  rcases h.list with ⟨hzero, hlive, rfl, hle, hlt⟩ | ⟨F, hheap, hfreep, htight⟩
  · have hused : used s = ∅ := by rw [used, hlive]; rfl
    have hbase := (heap_base s.mem : Heap im _ _ _ _)
    rw [ready, if_pos hzero, hused]
    exact ⟨{im.base}, ⟨hbase.arena.mono hle, hle, hlt⟩, Finset.mem_singleton_self _, rfl, rfl,
      by simp, tight_base s.mem⟩
  · rw [ready, if_neg (hheap.pos hfreep).ne']
    exact ⟨F, hheap, hfreep, rfl, rfl, fun _ _ => rfl, htight⟩

theorem shaped_of_heap {s s' : State} {C' : Set ℕ} (h : Shaped im s C)
    (hheap : Heap im s'.mem s'.sz F (used s)) (hfreep : s'.freep ∈ F) (hlive : s'.live = s.live)
    (hsame : ∀ k ∈ used s, size s'.mem k = size s.mem k)
    (htight : Tight (fun k => 8 * size s'.mem k) F (used s) C' {im.base}) : Shaped im s' C' := by
  have hused : used s' = used s := by rw [used, hlive, used]
  refine ⟨.inr ⟨F, hused ▸ hheap, hfreep, hused ▸ htight⟩, hlive ▸ h.nodup, fun b hb => ?_⟩
  rw [hlive] at hb
  rw [hsame _ (mem_used.mpr ⟨b, hb, rfl⟩)]
  exact h.room b hb

/-- A block that is large enough is given out. -/
theorem shaped_use {s : State} {p prevp nunits nbytes : ℕ} (h : Shaped im s C)
    (hheap : Heap im s.mem s.sz F (used s))
    (htight : Tight (fun k => 8 * size s.mem k) F (used s) C {im.base}) (hp : p ∈ F)
    (hprev : prevp ∈ F) (hlink : ptr s.mem prevp = p) (hfit : nunits ≤ size s.mem p)
    (hn : nbytes + 8 ≤ 8 * nunits) :
    ∃ s' r, use s nunits prevp p = (s', r) ∧ s'.sz = s.sz ∧ r ≠ 0 ∧
      Shaped im { s' with live := (r, nbytes) :: s'.live } C := by
  obtain ⟨s', F', q, huse, hq, hheap', hfreep, hlive, hself, hsame, hsz, htight'⟩ :=
    use_spec hheap hp hprev hlink (by omega) hfit
  have hqpos : 0 < q := by
    have hqm := Finset.mem_union_right F' (Finset.mem_insert_self q (used s))
    exact im.base_pos.trans_le (hheap'.arena.base_le hqm)
  obtain ⟨hused, hnodup, hroom⟩ := live_cons h.nodup h.room hlive hq hqpos hself hsame hn
  have htight'' := htight' C htight
  exact ⟨s', q + 8, huse, hsz, by omega, .inr ⟨F', hused ▸ hheap', hfreep, hused ▸ htight''⟩,
    hnodup, hroom⟩

/-- **`malloc` keeps the shape**, and what it obtains is covered. -/
theorem shape_malloc {s : State} {nbytes : UInt32} (oks : List Bool) (h : Shaped im s C)
    (hs : nbytes.toNat < 2 ^ 27) :
    ∃ s' r, malloc im s nbytes.toNat oks = some (s', r) ∧
      Shaped im (if r = 0 then s' else { s' with live := (r, nbytes.toNat) :: s'.live })
        (C ∪ Set.Ico s.sz s'.sz) := by
  obtain ⟨F, hheap, hfreep, hlive, hsz, hsame, htight⟩ := shaped_ready h
  have hused : used (ready im s) = used s := by rw [used, hlive, used]
  have hready := shaped_of_heap h hheap hfreep hlive hsame htight
  have hunits : units nbytes.toNat = (nbytes.toNat + 7) / 8 + 1 := by
    rw [units, Nat.mod_eq_of_lt (by omega)]
  have hroom : nbytes.toNat + 8 ≤ 8 * units nbytes.toNat := by omega
  have hnone : C ∪ Set.Ico s.sz s.sz = C := by rw [Set.Ico_self, Set.union_empty]
  rw [malloc]
  rcases loop_spec (units nbytes.toNat) (n := fuel) oks hheap hfreep
    (by rw [fuel]; omega) with ⟨prevq, hprevq, q, hq, hlink, hfit, heq⟩ | ⟨-, n, hn, heq⟩
  · -- there is a block
    obtain ⟨s', r, huse, hsz', hr, hshaped⟩ :=
      shaped_use hready (hused ▸ hheap) (hused ▸ htight) hq hprevq hlink hfit hroom
    refine ⟨s', r, heq.trans (congrArg some huse), ?_⟩
    have hcover : C ∪ Set.Ico s.sz s'.sz = C := by rw [hsz', hsz, hnone]
    rw [if_neg hr, hcover]
    exact hshaped
  · rw [heq, more]
    rcases morecore_spec hheap hfreep (by omega : units nbytes.toNat * 8 < 2 ^ 31)
      (oks.headD false) with
      hfail | ⟨s₁, F₁, hcore, hheap₁, hfreep₁, hlive₁, ⟨q, hq, hqle⟩, hsame₁, htight₁⟩
    · rw [hfail]
      refine ⟨_, 0, rfl, ?_⟩
      rw [if_pos rfl, hsz, hnone]
      exact hready
    · rw [hcore]
      dsimp only
      rw [if_neg (hheap₁.pos hfreep₁).ne']
      have hlive' := hlive₁.trans hlive
      have hused₁ : used s₁ = used s := by rw [used, hlive', used]
      have hgrown := htight₁ C htight
      rw [hsz] at hgrown
      have hshaped₁ := shaped_of_heap h hheap₁ hfreep₁ hlive'
        (fun k hk => (hsame₁ k hk).trans (hsame k hk)) hgrown
      rcases loop_spec (units nbytes.toNat) (n := n) oks.tail hheap₁ hfreep₁
        (by rw [fuel] at hn; omega) with ⟨prevq, hprevq, q, hq, hlink, hfit, heq'⟩ | ⟨hsmall, -⟩
      · obtain ⟨s', r, huse, hsz', hr, hshaped⟩ :=
          shaped_use hshaped₁ (hused₁ ▸ hheap₁) (hused₁ ▸ hgrown) hq hprevq hlink hfit hroom
        refine ⟨s', r, heq'.trans (congrArg some huse), ?_⟩
        rw [← hsz'] at hshaped
        rw [if_neg hr]
        exact hshaped
      · have hlt := hsmall q hq
        omega

/-- **`free` keeps the shape.** -/
theorem shape_free {s : State} {ap : ℕ} (h : Shaped im s C) (hap : ap ∈ s.live.map Prod.fst) :
    ∃ s', free s ap = some s' ∧ s'.sz = s.sz ∧
      Shaped im { s' with live := s'.live.filter fun b => b.1 ≠ ap } C := by
  obtain ⟨b, hb, rfl⟩ := List.mem_map.mp hap
  have hpos := (h.room b hb).1
  rcases h.list with ⟨-, hlive, -⟩ | ⟨F, hheap, hfreep, htight⟩
  · rw [hlive] at hb
    cases hb
  · have hbp : b.1 - 8 ∈ used s := mem_used.mpr ⟨b, hb, rfl⟩
    obtain ⟨s', F', hfree, hheap', hfreep', hsz, hlive, -, hsame, htight'⟩ :=
      free_spec hheap hfreep hbp
    rw [Nat.sub_add_cancel (by omega)] at hfree
    obtain ⟨hused, hnodup, hroom⟩ := live_filter hb h.nodup h.room hlive hsame
    have htight'' := htight' C htight
    exact ⟨s', hfree, hsz, .inr ⟨F', hused ▸ hheap', hfreep', hused ▸ htight''⟩, hnodup, hroom⟩

/-- The program writes into a block. -/
theorem shape_write {s : State} {b : ℕ × ℕ} {a : ℕ} (h : Shaped im s C) (hb : b ∈ s.live)
    (v : UInt8) (ha : b.1 ≤ a ∧ a < b.1 + b.2) :
    Shaped im { s with mem := Function.update s.mem a v } C := by
  rcases h.list with ⟨-, hlive, -⟩ | ⟨F, hheap, hfreep, htight⟩
  · rw [hlive] at hb
    cases hb
  · have hsame := hheap.write hb (h.room b hb) v ha
    have harena := hheap.arena.congr (f := ptr (Function.update s.mem a v))
      (l := fun k => 8 * size (Function.update s.mem a v) k) fun k hk =>
        ⟨fun _ => (hsame k hk).1, by rw [(hsame k hk).2]⟩
    exact shaped_of_heap h ⟨harena, hheap.grown, hheap.sz_lt⟩ hfreep rfl
      (fun k hk => (hsame k (Finset.mem_union_right F hk)).2)
      (htight.congr fun k hk => by rw [(hsame k hk).2])

/-- The program asks for memory, which is not for the list. -/
theorem shape_sbrk {s : State} {n : ℕ} {ok : Bool} {r : ℕ × State} (h : Shaped im s C)
    (hn : n < 2 ^ 31) (hr : sbrk s n ok = some r) : Shaped im r.2 C := by
  cases ok with
  | false => cases hr
  | true =>
    rw [sbrk, if_pos rfl, if_pos hn] at hr
    split at hr
    · next hroom =>
      cases hr
      refine ⟨?_, h.nodup, h.room⟩
      rcases h.list with ⟨hzero, hlive, hC, hle, -⟩ | ⟨F, hheap, hfreep, htight⟩
      · exact .inl ⟨hzero, hlive, hC, by dsimp only; omega, hroom⟩
      · have hgrown := hheap.grown
        exact .inr ⟨F, ⟨hheap.arena.mono (Nat.le_add_right _ _), by dsimp only; omega, hroom⟩,
          hfreep, htight⟩
    · cases hr

theorem obtained_concat (os : List (ℕ × ℕ)) (o : ℕ × ℕ) :
    obtained (os ++ [o]) = obtained os ∪ Set.Ico o.1 o.2 := by
  ext a
  simp [obtained, or_and_right, exists_or]

/-- **A request keeps the shape**, if it is small. -/
theorem shape_request {s : State} {os : List (ℕ × ℕ)} {i : Request} {r : State × (ℕ × ℕ)}
    (h : Shaped im s (obtained os)) (hi : i.Small) (hr : request im s i = some r) :
    Shaped im r.1 (obtained (os ++ [r.2])) := by
  have hnone : ∀ k, obtained os ∪ Set.Ico k k = obtained os := fun k => by
    rw [Set.Ico_self, Set.union_empty]
  rw [obtained_concat]
  cases i with
  | call a =>
    obtain ⟨p, hp, rfl⟩ := Option.map_eq_some_iff.mp hr
    cases a with
    | malloc nbytes oks =>
      obtain ⟨s', q, hmalloc, hshaped⟩ := shape_malloc oks h hi
      rw [step, hmalloc] at hp
      cases hp
      dsimp only
      rw [apply_ite State.sz, ite_self]
      exact hshaped
    | free ap =>
      rw [step] at hp
      split at hp
      · next hap =>
        obtain ⟨s', hfree, hsz, hshaped⟩ := shape_free h hap
        rw [hfree] at hp
        cases hp
        dsimp only
        rw [hsz, hnone]
        exact hsz ▸ hshaped
      · cases hp
    | write a v =>
      rw [step] at hp
      split at hp
      · next hin =>
        obtain ⟨b, hb, ha⟩ := hin
        cases hp
        dsimp only
        rw [hnone]
        exact shape_write h hb v ha
      · cases hp
  | sbrk n ok =>
    rw [request] at hr
    split at hr
    · cases hr
      rw [hnone]
      exact h
    · next hsbrk =>
      cases hr
      rw [hnone]
      exact shape_sbrk h hi hsbrk

theorem shaped_boot (m : Memory) : Shaped im (boot im m) (obtained []) where
  list := .inl ⟨rfl, rfl, by simp [obtained], le_rfl, im.sz_lt⟩
  nodup := List.nodup_nil
  room := fun _ hb => absurd hb List.not_mem_nil

/-- What the invariant says of the list. -/
theorem Shaped.shape {s : State} (h : Shaped im s C) (hne : s.freep ≠ 0) :
    ∃ l, Shape im s l C := by
  rcases h.list with ⟨hzero, -⟩ | ⟨F, hheap, hfreep, htight⟩
  · exact absurd hzero hne
  · obtain ⟨l, hincreasing, hmem, hhead, hcycle⟩ := hheap.arena.cycle
    have hheads : ∀ p, p ∈ heads s ↔ p ∈ used s := fun p => by simp [heads, used]
    have hall : ∀ p, p ∈ l ++ heads s ↔ p ∈ F ∪ used s := fun p => by
      rw [List.mem_append, hmem, hheads, Finset.mem_union]
    refine ⟨l, hhead, (hmem _).mpr hfreep, hincreasing, hcycle, ?_, ?_, ?_, ?_, h.room, ?_⟩
    · have hlen := hheap.arena.base_len
      omega
    · intro p hp q hq hlt
      rw [hmem] at hp hq
      have hap := hheap.arena.apart p (Finset.mem_union_left _ hp) q
        (Finset.mem_union_left _ hq) hlt
      by_cases hbase : p = im.base
      · have hlen := hheap.arena.base_len
        rw [hbase] at hlt ⊢
        omega
      · have hno : p + 8 * size s.mem p ≠ q := fun heq => htight.merged p hp hbase (heq ▸ hq)
        omega
    · intro p hp q hq hlt
      rw [hall] at hp hq
      exact hheap.arena.apart p hp q hq hlt
    · rw [List.nodup_append']
      refine ⟨hincreasing.imp ne_of_lt, ?_, fun p hp hp' => ?_⟩
      · -- blocks at different addresses have different headers
        refine (List.nodup_map_iff_inj_on h.nodup.of_map).mpr fun b hb c hc heq => ?_
        have hposb := (h.room b hb).1
        have hposc := (h.room c hc).1
        exact List.inj_on_of_nodup_map h.nodup hb hc (by omega)
      · exact Finset.disjoint_left.mp hheap.arena.disjoint ((hmem p).mp hp) ((hheads p).mp hp')
    · intro a
      rw [htight.cover]
      exact exists_congr fun p => and_congr_left fun _ => (hall p).symm

/-- **The list of free blocks.**  The program asks for less than 2^27 bytes at a time, frees what
it was given, and may ask for memory itself.  The list goes once round, from `base` in the order
of the addresses, free blocks do not touch, no two blocks overlap, and together they are the memory
that `malloc` obtained.  And all calls return. -/
theorem freeList_shape {m : Memory} {is : List Request} {s : State} {os : List (ℕ × ℕ)}
    (hrun : run (request im) (boot im m) is = some (s, os)) (his : ∀ i ∈ is, i.Small) :
    ((s.freep = 0 ∧ s.live = [] ∧ obtained os = ∅) ∨ ∃ l, Shape im s l (obtained os)) ∧
    (∀ nbytes oks, nbytes.toNat < 2 ^ 27 → request im s (.call (.malloc nbytes oks)) ≠ none) ∧
    ∀ ap ∈ s.live.map Prod.fst, request im s (.call (.free ap)) ≠ none := by
  have hshaped : Shaped im s (obtained os) :=
    AlongRun.history (fun s os => Shaped im s (obtained os))
      (fun _ _ _ _ h hi hr => shape_request h hi hr) is _ [] (s, os) (shaped_boot m)
      (AlongRun.of_forall _ fun _ i hi => his i hi) hrun
  refine ⟨?_, fun nbytes oks hs => ?_, fun ap hap => ?_⟩
  · rcases hshaped.list with ⟨hzero, hlive, hC, -⟩ | ⟨F, hheap, hfreep, -⟩
    · exact .inl ⟨hzero, hlive, hC⟩
    · exact .inr (hshaped.shape (hheap.pos hfreep).ne')
  · obtain ⟨s', r, hmalloc, -⟩ := shape_malloc oks hshaped hs
    simp [request, step, hmalloc]
  · obtain ⟨s', hfree, -⟩ := shape_free hshaped hap
    simp [request, step, hap, hfree]

/-- Two blocks from two pieces of memory, of which the first is freed. -/
theorem freeList_shape_gap : ∃ s os l, run (request small) (boot small fun _ => 0)
    [.call (.malloc 10 [true]), .sbrk 8 true, .call (.malloc 40000 [true]),
      .call (.free 45040)] = some (s, os) ∧
    Shape small s l (obtained os) ∧ os = [(12288, 45056), (45064, 45064), (45064, 85072),
      (85072, 85072)] := by
  have hrun : (run (request small) (boot small fun _ => 0) [.call (.malloc 10 [true]),
      .sbrk 8 true, .call (.malloc 40000 [true]), .call (.free 45040)]).map
        (fun r => (r.1.freep, r.2)) = some (12288, [(12288, 45056), (45064, 45064), (45064, 85072),
          (85072, 85072)]) := by decide +kernel
  obtain ⟨⟨s, os⟩, hs, hos⟩ := Option.map_eq_some_iff.mp hrun
  rw [Prod.mk.injEq] at hos
  have hsmall : ∀ i ∈ [Request.call (.malloc 10 [true]), .sbrk 8 true,
      .call (.malloc 40000 [true]), .call (.free 45040)], i.Small := by
    simp [Request.Small]
  rcases (freeList_shape hs hsmall).1 with ⟨hzero, -⟩ | ⟨l, hl⟩
  · exact absurd (hzero.symm.trans hos.1) (by decide)
  · exact ⟨s, os, l, hs, hl, hos.2⟩

end Malloc
end Xv6

import Xv6.Lib.FreeList
import Xv6.Lib.Links
import Xv6.Lib.Machine
import Xv6.Lib.Memory

/-!
# The allocator of the user programs

`free`, `morecore` and `malloc` of `umalloc.c`, over a memory of bytes, with all requests of 32
bits.  A program calls them in any order and writes into its blocks.

## Main definitions

* `Image`, `State` — where the data and the heap of the program begin, and its memory.
* `malloc`, `free`, `sbrk`, `step` — the functions, and a step of the program.
* `Sound` — the requests that the allocator answers as it should.

## Main results

* `free_spec`, `morecore_spec`, `malloc_spec` — what the functions do with the list.
* `malloc_safe` — **as long as all requests are sound, blocks are apart from each other and from
  the headers, and in the heap.**
-/

namespace Xv6
namespace Malloc

open Bytes FreeList Links Machine

/-! ### Headers -/

/-- `p->s.ptr` -/
def ptr (m : Memory) (p : ℕ) : ℕ := word m p

/-- `p->s.size` -/
def size (m : Memory) (p : ℕ) : ℕ := word m (p + 4)

theorem ptr_lt (m : Memory) (p : ℕ) : ptr m p < 2 ^ 32 := word_lt m p

def setPtr (m : Memory) (p v : ℕ) : Memory := setWord m p v

def setSize (m : Memory) (p v : ℕ) : Memory := setWord m (p + 4) v

/-- `p + n`, for a `Header *` -/
def add (p n : ℕ) : ℕ := (p + 8 * n) % 2 ^ 32

/-! ### The program -/

/-- A program in memory: `base` is in its data, below the heap. -/
structure Image where
  base : ℕ
  /-- `curproc->sz` after `exec`. -/
  sz : ℕ
  base_pos : 0 < base
  base_lt : base + 8 ≤ sz
  sz_lt : sz < 2 ^ 32

structure State where
  mem : Memory
  freep : ℕ
  /-- `curproc->sz` -/
  sz : ℕ
  /-- What `malloc` returned and is not freed, with the bytes asked for. -/
  live : List (ℕ × ℕ)

/-- More steps than a walk round the list takes. -/
def fuel : ℕ := 2 ^ 35

/-! ### `free` -/

/-- The loop of `free`. -/
def slot (m : Memory) (bp : ℕ) : ℕ → ℕ → Option ℕ :=
  seek (ptr m) fun p => (p < bp ∧ bp < ptr m p) ∨ (ptr m p ≤ p ∧ (p < bp ∨ bp < ptr m p))

/-- `bp` and the block that follows. -/
def joinNext (m : Memory) (bp p : ℕ) : Memory :=
  if add bp (size m bp) = ptr m p then
    let m := setSize m bp ((size m bp + size m (ptr m p)) % 2 ^ 32)
    setPtr m bp (ptr m (ptr m p))
  else setPtr m bp (ptr m p)

/-- `p` and `bp`, which follows. -/
def joinPrev (m : Memory) (bp p : ℕ) : Memory :=
  if add p (size m p) = bp then
    let m := setSize m p ((size m p + size m bp) % 2 ^ 32)
    setPtr m p (ptr m bp)
  else setPtr m p bp

/-- `free`; no result means that the loop does not end. -/
def free (s : State) (ap : ℕ) : Option State :=
  let bp := (ap + (2 ^ 32 - 8)) % 2 ^ 32
  (slot s.mem bp fuel s.freep).map fun p =>
    { s with mem := joinPrev (joinNext s.mem bp p) bp p, freep := p }

/-! ### `malloc` -/

/-- `sbrk`, which may fail for want of memory.  It takes an `int`, and a negative one gives memory
back (`growproc`). -/
def sbrk (s : State) (n : ℕ) (ok : Bool) : Option (ℕ × State) :=
  if ok then
    if n < 2 ^ 31 then
      if s.sz + n < 2 ^ 32 then some (s.sz, { s with sz := s.sz + n }) else none
    else
      let sz := (s.sz + n) % 2 ^ 32
      if s.sz ≤ sz then some (s.sz, s)
      else if sz = 0 then none
      else some (s.sz, { s with sz := sz })
  else none

/-- `morecore` -/
def morecore (s : State) (nu : ℕ) (ok : Bool) : Option (State × ℕ) :=
  let nu := if nu < 4096 then 4096 else nu
  match sbrk s (nu * 8 % 2 ^ 32) ok with
  | none => some (s, 0)
  | some (hp, s) =>
      (free { s with mem := setSize s.mem hp nu } (add hp 1)).map fun s => (s, s.freep)

/-- The block at `p` is large enough. -/
def use (s : State) (nunits prevp p : ℕ) : State × ℕ :=
  if size s.mem p = nunits then
    ({ s with mem := setPtr s.mem prevp (ptr s.mem p), freep := prevp }, add p 1)
  else
    let m := setSize s.mem p (size s.mem p - nunits)
    let p := add p (size m p)
    ({ s with mem := setSize m p nunits, freep := prevp }, add p 1)

/-- The loop of `malloc`; `oks` says which calls of `sbrk` succeed. -/
def loop (nunits : ℕ) : ℕ → List Bool → State → ℕ → ℕ → Option (State × ℕ)
  | 0, _, _, _, _ => none
  | n + 1, oks, s, prevp, p =>
      if nunits ≤ size s.mem p then some (use s nunits prevp p)
      else if p = s.freep then
        match morecore s nunits (oks.headD false) with
        | none => none
        | some (s, p) =>
            if p = 0 then some (s, 0) else loop nunits n oks.tail s p (ptr s.mem p)
      else loop nunits n oks s p (ptr s.mem p)

/-- `nunits` -/
def units (nbytes : ℕ) : ℕ := (nbytes + 7) % 2 ^ 32 / 8 + 1

/-- The list of the first call has the one block `base`. -/
def ready (im : Image) (s : State) : State :=
  if s.freep = 0 then
    { s with mem := setSize (setPtr s.mem im.base im.base) im.base 0, freep := im.base }
  else s

/-- `malloc` -/
def malloc (im : Image) (s : State) (nbytes : ℕ) (oks : List Bool) : Option (State × ℕ) :=
  let s := ready im s
  loop (units nbytes) fuel oks s s.freep (ptr s.mem s.freep)

/-! ### Runs -/

inductive Action
  | malloc (nbytes : UInt32) (oks : List Bool)
  | free (ap : ℕ)
  /-- The program writes a byte into one of its blocks. -/
  | write (a : ℕ) (v : UInt8)

/-- A step, with what `malloc` returns. -/
def step (im : Image) (s : State) : Action → Option (State × Option ℕ)
  | .malloc nbytes oks =>
      (malloc im s nbytes.toNat oks).map fun (s, r) =>
        (if r = 0 then s else { s with live := (r, nbytes.toNat) :: s.live }, some r)
  | .free ap =>
      if ap ∈ s.live.map Prod.fst then
        (free s ap).map fun s => ({ s with live := s.live.filter fun b => b.1 ≠ ap }, none)
      else none
  | .write a v =>
      if ∃ b ∈ s.live, b.1 ≤ a ∧ a < b.1 + b.2 then
        some ({ s with mem := Function.update s.mem a v }, none)
      else none

/-- The program starts; what is in its memory does not matter. -/
def boot (im : Image) (m : Memory) : State := ⟨m, 0, im.sz, []⟩

/-- Some free block is large enough. -/
def Fits (s : State) (nunits : ℕ) : Prop :=
  s.freep ≠ 0 ∧ ∃ k, nunits ≤ size s.mem ((ptr s.mem)^[k] s.freep)

/-- A request that neither `nunits` nor the `int` for `sbrk` is too small for. -/
def Sound (s : State) : Action → Prop
  | .malloc nbytes oks =>
      nbytes.toNat ≤ 2 ^ 31 - 16 ∨ (Fits s (units nbytes.toNat) ∧ nbytes.toNat ≤ 2 ^ 32 - 8) ∨
        (¬Fits s (units nbytes.toNat) ∧ oks.headD false = false)
  | _ => True

/-- The headers of the list and of the blocks in use. -/
def headers (s : State) : Set ℕ :=
  { h | (s.freep ≠ 0 ∧ ∃ k, h = (ptr s.mem)^[k] s.freep) ∨ ∃ b ∈ s.live, h = b.1 - 8 }

/-- Two ranges do not overlap. -/
def Apart (a n b k : ℕ) : Prop := a + n ≤ b ∨ b + k ≤ a

/-- What a program may rely on. -/
structure Safe (im : Image) (s : State) : Prop where
  nodup : (s.live.map Prod.fst).Nodup
  inside : ∀ b ∈ s.live, im.sz ≤ b.1 ∧ b.1 + b.2 ≤ s.sz
  /-- The other block, with its header. -/
  blocks : ∀ b ∈ s.live, ∀ c ∈ s.live, b ≠ c → Apart b.1 b.2 (c.1 - 8) (8 + c.2)
  headers : ∀ b ∈ s.live, ∀ h ∈ headers s, Apart b.1 b.2 h 8

/-! ### The heap -/

/-- The blocks as the headers give them: the free ones `F`, and `H`. -/
structure Heap (im : Image) (m : Memory) (sz : ℕ) (F H : Finset ℕ) : Prop where
  arena : Arena (ptr m) (fun p => 8 * size m p) im.base im.sz sz F H
  grown : im.sz ≤ sz
  sz_lt : sz < 2 ^ 32

variable {im : Image} {m : Memory} {sz p q bp v n : ℕ} {F H : Finset ℕ}

/-- Two headers are the same, or do not overlap. -/
def Clear (p q : ℕ) : Prop := p = q ∨ p + 8 ≤ q ∨ q + 8 ≤ p

theorem ptr_setPtr (hv : v < 2 ^ 32) (h : Clear p q) :
    ptr (setPtr m p v) q = Function.update (ptr m) p v q := by
  rcases h with rfl | h
  · rw [Function.update_self]
    exact word_setWord_self hv
  · rw [Function.update_of_ne (by omega)]
    exact word_setWord_of_disjoint (by omega)

theorem size_setPtr (h : Clear p q) : size (setPtr m p v) q = size m q :=
  word_setWord_of_disjoint (by rcases h with rfl | h <;> omega)

theorem ptr_setSize (h : Clear p q) : ptr (setSize m p v) q = ptr m q :=
  word_setWord_of_disjoint (by rcases h with rfl | h <;> omega)

theorem size_setSize (hv : v < 2 ^ 32) (h : Clear p q) :
    size (setSize m p v) q = Function.update (size m) p v q := by
  rcases h with rfl | h
  · rw [Function.update_self]
    exact word_setWord_self hv
  · rw [Function.update_of_ne (by omega)]
    exact word_setWord_of_disjoint (by omega)

/-- The headers of an arena do not overlap. -/
theorem clear_of_arena {nxt : ℕ → ℕ}
    (h : Arena nxt (fun p => 8 * size m p) im.base im.sz sz F H) (hp : p ∈ F ∪ H)
    (hq : q ∈ F ∪ H) : Clear p q := by
  have hbase := im.base_lt
  have hpq := h.apart p hp q hq
  have hqp := h.apart q hq p hp
  by_cases hpb : p = im.base
  · by_cases hqb : q = im.base
    · exact .inl (hpb.trans hqb.symm)
    · have hlo := (h.block q hq hqb).1
      exact .inr (.inl (by omega))
  · have hblock := h.block p hp hpb
    by_cases hqb : q = im.base
    · exact .inr (.inr (by omega))
    · have hblock' := h.block q hq hqb
      rcases lt_trichotomy p q with hlt | heq | hlt
      · exact .inr (.inl (by have := hpq hlt; omega))
      · exact .inl heq
      · exact .inr (.inr (by have := hqp hlt; omega))

theorem bound_of_arena {nxt : ℕ → ℕ}
    (h : Arena nxt (fun p => 8 * size m p) im.base im.sz sz F H) (hsz : im.sz ≤ sz)
    (hp : p ∈ F ∪ H) : p + 8 * size m p ≤ sz := by
  by_cases hpb : p = im.base
  · have hlen := h.base_len
    have hlt := im.base_lt
    rw [hpb]
    omega
  · exact (h.block p hp hpb).2.2

/-! ### `free` -/

/-- The block is put behind `p`, and made one with the block that follows if they touch. -/
theorem arena_joinNext (h : Heap im m sz F H) (hbp : bp ∈ H) (hp : p ∈ F) (hlt : p < bp)
    (hslot : bp < ptr m p ∨ ptr m p ≤ p) :
    ∃ F', Arena (Function.update (ptr (joinNext m bp p)) p bp)
        (fun k => 8 * size (joinNext m bp p) k) im.base im.sz sz F' (H.erase bp) ∧
      p ∈ F' ∧ bp ∈ F' ∧ size m bp ≤ size (joinNext m bp p) bp ∧
      (∀ k ∈ H.erase bp, size (joinNext m bp p) k = size m k) ∧
      ∀ C, Tight (fun k => 8 * size m k) F H C {im.base} →
        Tight (fun k => 8 * size (joinNext m bp p) k) F' (H.erase bp) C {p, im.base} := by
  have hlink := h.arena.link hbp hp hlt hslot
  have hsz := h.sz_lt
  have hpm := Finset.mem_union_left H hp
  have hbpm := Finset.mem_union_right F hbp
  have hqm := Finset.mem_union_left H (h.arena.next_mem hp)
  have hbound := bound_of_arena h.arena h.grown hbpm
  have hunion : Insert.insert bp F ∪ H.erase bp = F ∪ H := by
    ext r
    by_cases hr : r = bp <;> simp [hr, hbp]
  have hclear : ∀ r ∈ Insert.insert bp F ∪ H.erase bp, Clear bp r := by
    rw [hunion]
    exact fun r hr => clear_of_arena h.arena hbpm hr
  have hbase : bp ≠ im.base := fun heq => h.arena.base_not_mem (heq ▸ hbp)
  have hlinked : ∀ C, Tight (fun k => 8 * size m k) F H C {im.base} →
      Tight (fun k => 8 * size m k) (Insert.insert bp F) (H.erase bp) C {bp, p, im.base} :=
    fun C hC => hC.link h.arena hbp hp hlt hslot
  have hX : ({bp, p, im.base} : Set ℕ) \ {bp} ⊆ {p, im.base} := fun a ha => ha.1.resolve_left ha.2
  have hptr := ptr_lt m p
  rw [joinNext, add, Nat.mod_eq_of_lt (by omega)]
  split
  · next htouch =>
    have hqbound := bound_of_arena h.arena h.grown hqm
    have hqbase : ptr m p ≠ im.base := by
      have hle := h.arena.base_le hbpm
      omega
    have hpos := (h.arena.block bp hbpm hbase).2.1
    have hmerge := hlink.merge (p := bp) (q := ptr m p) (Finset.mem_insert_self bp F)
      (by rw [Function.update_of_ne hlt.ne', Function.update_self]) hqbase htouch
    rw [Function.update_of_ne (by omega), Function.update_of_ne (by omega)] at hmerge
    have hclearp := clear_of_arena h.arena hbpm hpm
    have hclearq := clear_of_arena h.arena hbpm hqm
    rw [Nat.mod_eq_of_lt (by omega)]
    simp only [ptr_setSize hclearp, ptr_setSize hclearq]
    have hsub : (Insert.insert bp F).erase (ptr m p) ∪ H.erase bp ⊆
        Insert.insert bp F ∪ H.erase bp :=
      Finset.union_subset_union_left (Finset.erase_subset _ _)
    have hsize : ∀ r ∈ Insert.insert bp F ∪ H.erase bp,
        size (setPtr (setSize m bp (size m bp + size m (ptr m p))) bp (ptr m (ptr m p))) r =
          Function.update (size m) bp (size m bp + size m (ptr m p)) r := fun r hr => by
      rw [size_setPtr (hclear r hr), size_setSize (by omega) (hclear r hr)]
    have hptrs : ∀ r ∈ Insert.insert bp F ∪ H.erase bp,
        ptr (setPtr (setSize m bp (size m bp + size m (ptr m p))) bp (ptr m (ptr m p))) r =
          Function.update (ptr m) bp (ptr m (ptr m p)) r := by
      intro r hr
      rw [ptr_setPtr (ptr_lt _ _) (hclear r hr), Function.update_apply, Function.update_apply,
        ptr_setSize (hclear r hr)]
    have hlen : ∀ r ∈ (Insert.insert bp F).erase (ptr m p) ∪ H.erase bp,
        8 * size (setPtr (setSize m bp (size m bp + size m (ptr m p))) bp (ptr m (ptr m p))) r =
          Function.update (fun k => 8 * size m k) bp (8 * size m bp + 8 * size m (ptr m p)) r := by
      intro r hr
      rw [hsize r (hsub hr)]
      by_cases hrb : r = bp
      · rw [hrb, Function.update_self, Function.update_self]
        omega
      · rw [Function.update_of_ne hrb, Function.update_of_ne hrb]
    refine ⟨_, hmerge.congr fun r hr => ⟨fun _ => ?_, hlen r hr⟩, ?_, ?_, ?_, fun k hk => ?_,
      fun C hC => ?_⟩
    · -- the links
      have hr' := hptrs r (hsub hr)
      by_cases hrp : r = p
      · rw [hrp, Function.update_self, Function.update_of_ne hlt.ne, Function.update_self]
      · rw [Function.update_of_ne hrp, hr']
        by_cases hrb : r = bp
        · rw [hrb, Function.update_self, Function.update_self]
        · rw [Function.update_of_ne hrb, Function.update_of_ne hrb, Function.update_of_ne hrp,
            Function.update_of_ne hrb]
    · exact Finset.mem_erase.mpr ⟨by omega, Finset.mem_insert_of_mem hp⟩
    · exact Finset.mem_erase.mpr ⟨by omega, Finset.mem_insert_self bp F⟩
    · rw [hsize bp (Finset.mem_union_left _ (Finset.mem_insert_self bp F)), Function.update_self]
      omega
    · rw [hsize k (Finset.mem_union_right _ hk), Function.update_of_ne (Finset.ne_of_mem_erase hk)]
    · refine (((hlinked C hC).merge hlink (Finset.mem_insert_self bp F)
        (Finset.mem_insert_of_mem (h.arena.next_mem hp)) hbase ?_ htouch).mono hX).congr hlen
      simp only [Set.mem_insert_iff, Set.mem_singleton_iff, not_or]
      exact ⟨by omega, by omega, hqbase⟩
  · next htouch =>
    refine ⟨_, hlink.congr fun r hr => ⟨fun _ => ?_, ?_⟩, Finset.mem_insert_of_mem hp,
      Finset.mem_insert_self bp F, ?_, fun k hk => ?_, fun C hC => ?_⟩
    · by_cases hrp : r = p
      · rw [hrp, Function.update_self, Function.update_self]
      · rw [Function.update_of_ne hrp, Function.update_of_ne hrp, ptr_setPtr hptr (hclear r hr)]
    · rw [size_setPtr (hclear r hr)]
    · rw [size_setPtr (.inl rfl)]
    · rw [size_setPtr (hclear k (Finset.mem_union_right _ hk))]
    · refine (((hlinked C hC).settle hlink (Finset.mem_insert_self bp F) hbase ?_).mono hX).congr
        fun r hr => by rw [size_setPtr (hclear r hr)]
      rw [Function.update_of_ne hlt.ne', Function.update_self]
      exact htouch

/-- `p` and the block behind it are made one if they touch. -/
theorem arena_joinPrev (h : Arena (Function.update (ptr m) p bp) (fun k => 8 * size m k) im.base
    im.sz sz F H) (hgrown : im.sz ≤ sz) (hsz : sz < 2 ^ 32) (hp : p ∈ F) (hbp : bp ∈ F)
    (hlt : p < bp) :
    ∃ F', Arena (ptr (joinPrev m bp p)) (fun k => 8 * size (joinPrev m bp p) k) im.base im.sz sz F'
        H ∧ p ∈ F' ∧ (∃ q ∈ F', size m bp ≤ size (joinPrev m bp p) q) ∧
      (∀ k ∈ H, size (joinPrev m bp p) k = size m k) ∧
      ∀ C, Tight (fun k => 8 * size m k) F H C {p, im.base} →
        Tight (fun k => 8 * size (joinPrev m bp p) k) F' H C {im.base} := by
  have hpm := Finset.mem_union_left H hp
  have hbpm := Finset.mem_union_left H hbp
  have hpbound := bound_of_arena h hgrown hpm
  have hbound := bound_of_arena h hgrown hbpm
  have hclear : ∀ r ∈ F ∪ H, Clear p r := fun r hr => clear_of_arena h hpm hr
  have hHp : ∀ k ∈ H, k ≠ p := by
    rintro k hk rfl
    exact Finset.disjoint_left.mp h.disjoint hp hk
  have hX : ({p, im.base} : Set ℕ) \ {p} ⊆ {im.base} := fun a ha => ha.1.resolve_left ha.2
  rw [joinPrev, add, Nat.mod_eq_of_lt (by omega)]
  split
  · next htouch =>
    -- `p` ends where `bp` starts, and takes it in
    have hbase : bp ≠ im.base := by
      have hle := h.base_le hpm
      omega
    have hmerge := h.merge hp (Function.update_self _ _ _) hbase htouch
    rw [Function.update_of_ne hlt.ne'] at hmerge
    rw [Nat.mod_eq_of_lt (by omega)]
    simp only [ptr_setSize (hclear bp hbpm)]
    have hsize : ∀ r ∈ F ∪ H,
        size (setPtr (setSize m p (size m p + size m bp)) p (ptr m bp)) r =
          Function.update (size m) p (size m p + size m bp) r := fun r hr => by
      rw [size_setPtr (hclear r hr), size_setSize (by omega) (hclear r hr)]
    have hsub : F.erase bp ∪ H ⊆ F ∪ H :=
      Finset.union_subset_union_left (Finset.erase_subset _ _)
    have hpF : p ∈ F.erase bp := Finset.mem_erase.mpr ⟨hlt.ne, hp⟩
    have hlen : ∀ r ∈ F.erase bp ∪ H,
        8 * size (setPtr (setSize m p (size m p + size m bp)) p (ptr m bp)) r =
          Function.update (fun k => 8 * size m k) p (8 * size m p + 8 * size m bp) r := by
      intro r hr
      rw [hsize r (hsub hr)]
      by_cases hrp : r = p
      · rw [hrp, Function.update_self, Function.update_self]
        omega
      · rw [Function.update_of_ne hrp, Function.update_of_ne hrp]
    refine ⟨_, hmerge.congr fun r hr => ⟨fun _ => ?_, hlen r hr⟩, hpF, ⟨p, hpF, ?_⟩, fun k hk => ?_,
      fun C hC => ?_⟩
    · rw [ptr_setPtr (ptr_lt _ _) (hclear r (hsub hr))]
      by_cases hrp : r = p
      · rw [hrp, Function.update_self, Function.update_self]
      · rw [Function.update_of_ne hrp, Function.update_of_ne hrp, Function.update_of_ne hrp,
          ptr_setSize (hclear r (hsub hr))]
    · rw [hsize p hpm, Function.update_self]
      omega
    · rw [hsize k (Finset.mem_union_right F hk), Function.update_of_ne (hHp k hk)]
    · have hpbase : p ≠ im.base := by
        rintro rfl
        have hbaselen := h.base_len
        omega
      refine ((hC.merge h hp hbp hpbase ?_ htouch).mono hX).congr hlen
      simp only [Set.mem_insert_iff, Set.mem_singleton_iff, not_or]
      exact ⟨hlt.ne', hbase⟩
  · next htouch =>
    have hbp32 : bp < 2 ^ 32 := by omega
    refine ⟨F, h.congr fun r hr => ⟨fun _ => ?_, ?_⟩, hp, ⟨bp, hbp, ?_⟩, fun k hk => ?_,
      fun C hC => ?_⟩
    · rw [ptr_setPtr hbp32 (hclear r hr)]
    · rw [size_setPtr (hclear r hr)]
    · rw [size_setPtr (hclear bp hbpm)]
    · rw [size_setPtr (hclear k (Finset.mem_union_right F hk))]
    · have hsame : ∀ r ∈ F ∪ H, 8 * size (setPtr m p bp) r = 8 * size m r := fun r hr => by
        rw [size_setPtr (hclear r hr)]
      by_cases hpbase : p = im.base
      · refine (hC.mono ?_).congr hsame
        rw [hpbase, Set.pair_eq_singleton]
      · refine ((hC.settle h hp hpbase ?_).mono hX).congr hsame
        rw [Function.update_self]
        exact htouch

theorem Heap.card_le (h : Heap im m sz F H) : F.card ≤ 2 ^ 32 := by
  have hsub : F ⊆ Finset.range (2 ^ 32) := by
    intro p hp
    have hbound := bound_of_arena h.arena h.grown (Finset.mem_union_left H hp)
    have hsz := h.sz_lt
    exact Finset.mem_range.mpr (by omega)
  exact (Finset.card_le_card hsub).trans (Finset.card_range _).le

/-- The loop of `free` finds the place of the block. -/
theorem slot_spec (h : Heap im m sz F H) (hp : p ∈ F) (hbp : bp ∈ H) :
    ∃ r ∈ F, slot m bp fuel p = some r ∧ r < bp ∧ (bp < ptr m r ∨ ptr m r ≤ r) := by
  obtain ⟨t, ht, htlt, htslot⟩ := h.arena.exists_slot hbp
  obtain ⟨k, hk, hkt⟩ := h.arena.reach hp ht
  have hcard := h.card_le
  have hfuel : k < fuel := by
    rw [fuel]
    omega
  obtain ⟨j, -, hseek, hj⟩ := seek_of_iterate (f := ptr m)
    (c := fun p => (p < bp ∧ bp < ptr m p) ∨ (ptr m p ≤ p ∧ (p < bp ∨ bp < ptr m p))) hfuel (by
      rw [hkt, decide_eq_true_eq]
      omega)
  have hmem := h.arena.iterate_mem hp j
  refine ⟨_, hmem, hseek, ?_⟩
  rw [decide_eq_true_eq] at hj
  by_cases hwrap : ptr m ((ptr m)^[j] p) ≤ (ptr m)^[j] p
  · -- the base is below the block
    have hbase := h.arena.next_of_le hmem hwrap
    have hle := h.arena.base_le (Finset.mem_union_right F hbp)
    omega
  · omega

/-- `free` makes a block of `H` free. -/
theorem free_spec {s : State} (h : Heap im s.mem s.sz F H) (hfreep : s.freep ∈ F) (hbp : bp ∈ H) :
    ∃ s' F', free s (bp + 8) = some s' ∧ Heap im s'.mem s'.sz F' (H.erase bp) ∧ s'.freep ∈ F' ∧
      s'.sz = s.sz ∧ s'.live = s.live ∧ (∃ q ∈ F', size s.mem bp ≤ size s'.mem q) ∧
      (∀ k ∈ H.erase bp, size s'.mem k = size s.mem k) ∧
      ∀ C, Tight (fun k => 8 * size s.mem k) F H C {im.base} →
        Tight (fun k => 8 * size s'.mem k) F' (H.erase bp) C {im.base} := by
  obtain ⟨r, hr, hslot, hlt, hplace⟩ := slot_spec h hfreep hbp
  have hbound := bound_of_arena h.arena h.grown (Finset.mem_union_right F hbp)
  have hsz := h.sz_lt
  have haddr : (bp + 8 + (2 ^ 32 - 8)) % 2 ^ 32 = bp := by omega
  obtain ⟨F₁, hnext, hrF, hbpF, hgrow, hsame, htight⟩ := arena_joinNext h hbp hr hlt hplace
  obtain ⟨F₂, hprev, hrF₂, ⟨q, hq, hqsize⟩, hsame', htight'⟩ :=
    arena_joinPrev hnext h.grown hsz hrF hbpF hlt
  have hs : free s (bp + 8) =
      some { s with mem := joinPrev (joinNext s.mem bp r) bp r, freep := r } := by
    rw [free, haddr, hslot, Option.map_some]
  have hgrow' := hgrow.trans hqsize
  have hsame'' := fun k hk => (hsame' k hk).trans (hsame k hk)
  have htight'' := fun C hC => htight' C (htight C hC)
  generalize joinPrev (joinNext s.mem bp r) bp r = m at hs hprev hgrow' hsame'' htight''
  exact ⟨_, F₂, hs, ⟨hprev, h.grown, hsz⟩, hrF₂, rfl, rfl, ⟨q, hq, hgrow'⟩, hsame'', htight''⟩

/-! ### `malloc` -/

/-- The heap with a new block at its end. -/
theorem heap_grow (h : Heap im m sz F H) (hn : 0 < n) (hsz : sz + 8 * n < 2 ^ 32) :
    Heap im (setSize m sz n) (sz + 8 * n) F (Insert.insert sz H) ∧ sz ∉ H ∧
      size (setSize m sz n) sz = n ∧ (∀ k ∈ H, size (setSize m sz n) k = size m k) ∧
      ∀ C, Tight (fun k => 8 * size m k) F H C {im.base} →
        Tight (fun k => 8 * size (setSize m sz n) k) F (Insert.insert sz H)
          (C ∪ Set.Ico sz (sz + 8 * n)) {im.base} := by
  have hbelow : ∀ k ∈ F ∪ H, k + 8 ≤ sz := by
    intro k hk
    by_cases hkb : k = im.base
    · have hbase := im.base_lt
      have hgrown := h.grown
      omega
    · have hblock := h.arena.block k hk hkb
      omega
  have hnot : sz ∉ H := fun hmem => by
    have hlt := hbelow sz (Finset.mem_union_right F hmem)
    omega
  have hself : size (setSize m sz n) sz = n := by
    rw [size_setSize (by omega) (.inl rfl), Function.update_self]
  have hsame : ∀ k ∈ F ∪ H, size (setSize m sz n) k = size m k := by
    intro k hk
    have hlt := hbelow k hk
    rw [size_setSize (by omega) (.inr (.inr hlt)), Function.update_of_ne (by omega)]
  have hgrown := h.grown
  have hlen : ∀ k ∈ F ∪ Insert.insert sz H,
      8 * size (setSize m sz n) k = Function.update (fun k => 8 * size m k) sz (8 * n) k := by
    intro k hk
    by_cases hks : k = sz
    · rw [hks, hself, Function.update_self]
    · have hk' : k ∈ F ∪ H := by
        simpa [hks] using hk
      rw [hsame k hk', Function.update_of_ne hks]
  refine ⟨⟨?_, by omega, hsz⟩, hnot, hself, fun k hk => hsame k (Finset.mem_union_right F hk),
    fun C hC => ?_⟩
  · refine (h.arena.grow hgrown (Nat.mul_pos (by omega : 0 < 8) hn)).congr fun k hk =>
      ⟨fun hkF => ?_, hlen k hk⟩
    exact ptr_setSize (.inr (.inr (hbelow k (Finset.mem_union_left H hkF))))
  · refine (hC.grow fun hmem => ?_).congr hlen
    have hlt := hbelow sz hmem
    omega

/-- `morecore` adds a block that is large enough, or nothing. -/
theorem morecore_spec {s : State} {nu : ℕ} (h : Heap im s.mem s.sz F H) (hfreep : s.freep ∈ F)
    (hnu : nu * 8 < 2 ^ 31) (ok : Bool) : morecore s nu ok = some (s, 0) ∨
      ∃ s' F', morecore s nu ok = some (s', s'.freep) ∧ Heap im s'.mem s'.sz F' H ∧
        s'.freep ∈ F' ∧ s'.live = s.live ∧ (∃ q ∈ F', nu ≤ size s'.mem q) ∧
        (∀ k ∈ H, size s'.mem k = size s.mem k) ∧
        ∀ C, Tight (fun k => 8 * size s.mem k) F H C {im.base} →
          Tight (fun k => 8 * size s'.mem k) F' H (C ∪ Set.Ico s.sz s'.sz) {im.base} := by
  obtain ⟨n, hn, hge, hpos, hlt⟩ : ∃ n, (if nu < 4096 then 4096 else nu) = n ∧ nu ≤ n ∧ 0 < n ∧
      n * 8 < 2 ^ 31 := by
    refine ⟨_, rfl, ?_⟩
    split <;> omega
  have hmod : n * 8 % 2 ^ 32 = n * 8 := Nat.mod_eq_of_lt (by omega)
  rw [morecore, hn, hmod]
  cases ok with
  | false => exact .inl rfl
  | true =>
    rw [sbrk, if_pos rfl, if_pos hlt]
    by_cases hroom : s.sz + n * 8 < 2 ^ 32
    · right
      obtain ⟨hheap, hnot, hself, hsame, htight⟩ := heap_grow h hpos (by omega)
      have hadd : add s.sz 1 = s.sz + 8 := Nat.mod_eq_of_lt (by omega)
      rw [if_pos hroom, Nat.mul_comm n 8]
      dsimp only
      generalize setSize s.mem s.sz n = m at hheap hself hsame htight ⊢
      obtain ⟨s', F', hfree, hheap', hfreep', hsz', hlive, hlarge, hsame', htight'⟩ :=
        free_spec (s := { s with sz := s.sz + 8 * n, mem := m }) hheap hfreep
          (Finset.mem_insert_self s.sz H)
      rw [Finset.erase_insert hnot] at hheap' hsame' htight'
      obtain ⟨q, hq, hqsize⟩ := hlarge
      refine ⟨s', F', ?_, hheap', hfreep', hlive, ⟨q, hq, ?_⟩, fun k hk => ?_, fun C hC => ?_⟩
      · rw [hadd, hfree, Option.map_some]
      · exact hge.trans (hself.symm.le.trans hqsize)
      · exact (hsame' k hk).trans (hsame k hk)
      · rw [hsz']
        exact htight' _ (htight C hC)
    · rw [if_neg hroom]
      exact .inl rfl

/-- A block of the list is given out, or the end of one. -/
theorem use_spec {s : State} {prevp nunits : ℕ} (h : Heap im s.mem s.sz F H) (hp : p ∈ F)
    (hprev : prevp ∈ F) (hlink : ptr s.mem prevp = p) (hn : 0 < nunits)
    (hfit : nunits ≤ size s.mem p) :
    ∃ s' F' q, use s nunits prevp p = (s', q + 8) ∧ q ∉ H ∧
      Heap im s'.mem s'.sz F' (Insert.insert q H) ∧ s'.freep ∈ F' ∧ s'.live = s.live ∧
      size s'.mem q = nunits ∧ (∀ k ∈ H, size s'.mem k = size s.mem k) ∧ s'.sz = s.sz ∧
      ∀ C, Tight (fun k => 8 * size s.mem k) F H C {im.base} →
        Tight (fun k => 8 * size s'.mem k) F' (Insert.insert q H) C {im.base} := by
  have hpm := Finset.mem_union_left H hp
  have hbound := bound_of_arena h.arena h.grown hpm
  have hsz := h.sz_lt
  have hbase : p ≠ im.base := by
    rintro rfl
    have hlen := h.arena.base_len
    omega
  rw [use]
  split
  · -- the whole block
    next hexact =>
    have hne : p ≠ prevp := by
      rintro rfl
      exact (h.arena.next p hp).ne h.arena.base_mem hbase hlink
    have hclear : ∀ k ∈ F ∪ H, Clear prevp k := fun k hk =>
      clear_of_arena h.arena (Finset.mem_union_left H hprev) hk
    have hunion : F.erase p ∪ Insert.insert p H = F ∪ H := by
      ext r
      by_cases hr : r = p <;> simp [hr, hp]
    have hadd : add p 1 = p + 8 := Nat.mod_eq_of_lt (by omega)
    have harena : Arena (ptr (setPtr s.mem prevp (ptr s.mem p)))
        (fun k => 8 * size (setPtr s.mem prevp (ptr s.mem p)) k) im.base im.sz s.sz (F.erase p)
        (Insert.insert p H) := by
      refine (h.arena.take hp hbase hprev hlink).congr fun k hk => ?_
      rw [hunion] at hk
      exact ⟨fun _ => ptr_setPtr (ptr_lt _ _) (hclear k hk), by rw [size_setPtr (hclear k hk)]⟩
    have hself := (size_setPtr (v := ptr s.mem p) (hclear p hpm)).trans hexact
    have hsame : ∀ k ∈ H, size (setPtr s.mem prevp (ptr s.mem p)) k = size s.mem k :=
      fun k hk => size_setPtr (hclear k (Finset.mem_union_right F hk))
    have htight : ∀ C, Tight (fun k => 8 * size s.mem k) F H C {im.base} →
        Tight (fun k => 8 * size (setPtr s.mem prevp (ptr s.mem p)) k) (F.erase p)
          (Insert.insert p H) C {im.base} := fun C hC => (hC.take hp).congr fun k hk => by
      rw [hunion] at hk
      rw [size_setPtr (hclear k hk)]
    rw [hadd]
    generalize setPtr s.mem prevp (ptr s.mem p) = m at harena hself hsame htight
    exact ⟨{ s with mem := m, freep := prevp }, F.erase p, p, rfl,
      fun hmem => Finset.disjoint_left.mp h.arena.disjoint hp hmem, ⟨harena, h.grown, hsz⟩,
      Finset.mem_erase.mpr ⟨hne.symm, hprev⟩, rfl, hself, hsame, rfl, htight⟩
  · -- its last units
    next hmore =>
    obtain ⟨q, hq⟩ : ∃ q, q = p + (8 * size s.mem p - 8 * nunits) := ⟨_, rfl⟩
    have hcarve := h.arena.carve hp (Nat.mul_pos (by omega : 0 < 8) hn)
      (by omega : 8 * nunits < 8 * size s.mem p) hq
    have hsize : size (setSize s.mem p (size s.mem p - nunits)) p = size s.mem p - nunits := by
      rw [size_setSize (by omega) (.inl rfl), Function.update_self]
    have hadd : add p (size s.mem p - nunits) = q := by
      rw [add, Nat.mod_eq_of_lt (by omega)]
      omega
    have hadd' : add q 1 = q + 8 := Nat.mod_eq_of_lt (by omega)
    have hclear : ∀ k ∈ F ∪ H, Clear p k ∧ Clear q k ∧ k ≠ q := by
      intro k hk
      have hpk := clear_of_arena h.arena hpm hk
      have hap := h.arena.apart p hpm k hk
      refine ⟨hpk, ?_, ?_⟩
      · rcases hpk with rfl | hpk | hpk
        · exact .inr (.inr (by omega))
        · have hlt := hap (by omega)
          exact .inr (.inl (by omega))
        · exact .inr (.inr (by omega))
      · rcases hpk with rfl | hpk | hpk
        · omega
        · have hlt := hap (by omega)
          omega
        · omega
    have hqH : q ∉ H := fun hmem => (hclear q (Finset.mem_union_right F hmem)).2.2 rfl
    have hptr : ∀ k ∈ F ∪ H,
        ptr (setSize (setSize s.mem p (size s.mem p - nunits)) q nunits) k = ptr s.mem k := by
      intro k hk
      obtain ⟨hpk, hqk, -⟩ := hclear k hk
      rw [ptr_setSize hqk, ptr_setSize hpk]
    have hself : size (setSize (setSize s.mem p (size s.mem p - nunits)) q nunits) q = nunits := by
      rw [size_setSize (by omega) (.inl rfl), Function.update_self]
    have hsizes : ∀ k ∈ F ∪ H,
        size (setSize (setSize s.mem p (size s.mem p - nunits)) q nunits) k =
          Function.update (size s.mem) p (size s.mem p - nunits) k := by
      intro k hk
      obtain ⟨hpk, hqk, hkq⟩ := hclear k hk
      rw [size_setSize (by omega) hqk, Function.update_of_ne hkq, size_setSize (by omega) hpk]
    have hpH : ∀ k ∈ H, k ≠ p := by
      rintro k hk rfl
      exact Finset.disjoint_left.mp h.arena.disjoint hp hk
    have hlen : ∀ k ∈ F ∪ Insert.insert q H,
        8 * size (setSize (setSize s.mem p (size s.mem p - nunits)) q nunits) k =
          Function.update (Function.update (fun k => 8 * size s.mem k) p
            (8 * size s.mem p - 8 * nunits)) q (8 * nunits) k := by
      intro k hk
      by_cases hkq : k = q
      · rw [hkq, hself, Function.update_self]
      · have hk' : k ∈ F ∪ H := by
          simpa [hkq] using hk
        rw [hsizes k hk', Function.update_of_ne hkq]
        by_cases hkp : k = p
        · rw [hkp, Function.update_self, Function.update_self]
          omega
        · rw [Function.update_of_ne hkp, Function.update_of_ne hkp]
    have harena := hcarve.congr (f := ptr _) (l := fun k => 8 * size
      (setSize (setSize s.mem p (size s.mem p - nunits)) q nunits) k) fun k hk =>
        ⟨fun hkF => hptr k (Finset.mem_union_left H hkF), hlen k hk⟩
    have htight : ∀ C, Tight (fun k => 8 * size s.mem k) F H C {im.base} →
        Tight (fun k => 8 * size (setSize (setSize s.mem p (size s.mem p - nunits)) q nunits) k) F
          (Insert.insert q H) C {im.base} := fun C hC =>
      (hC.carve h.arena hp (Nat.mul_pos (by omega : 0 < 8) hn)
        (by omega : 8 * nunits < 8 * size s.mem p) hq).congr hlen
    simp only [hsize, hadd, hadd']
    have hsame : ∀ k ∈ H, size (setSize (setSize s.mem p (size s.mem p - nunits)) q nunits) k =
        size s.mem k := by
      intro k hk
      rw [hsizes k (Finset.mem_union_right F hk), Function.update_of_ne (hpH k hk)]
    generalize setSize (setSize s.mem p (size s.mem p - nunits)) q nunits = m
      at harena hself hsame htight ⊢
    exact ⟨{ s with mem := m, freep := prevp }, F, q, rfl, hqH, ⟨harena, h.grown, hsz⟩, hprev,
      rfl, hself, hsame, rfl, htight⟩

/-- What `malloc` does when it has gone round the list. -/
def more (nunits n : ℕ) (oks : List Bool) (s : State) : Option (State × ℕ) :=
  match morecore s nunits (oks.headD false) with
  | none => none
  | some (s, p) => if p = 0 then some (s, 0) else loop nunits n oks.tail s p (ptr s.mem p)

/-- The loop of `malloc` finds a block that is large enough, or comes round to `freep`. -/
theorem loop_walk {s : State} (nunits : ℕ) (oks : List Bool) (h : Heap im s.mem s.sz F H) :
    ∀ {d n prevp p : ℕ}, d < n → (ptr s.mem)^[d] p = s.freep → prevp ∈ F → ptr s.mem prevp = p →
      (∃ prevq ∈ F, ∃ q ∈ F, ptr s.mem prevq = q ∧ nunits ≤ size s.mem q ∧
        loop nunits n oks s prevp p = some (use s nunits prevq q)) ∨
      ∃ d' ≤ d, (ptr s.mem)^[d'] p = s.freep ∧
        (∀ j ≤ d', size s.mem ((ptr s.mem)^[j] p) < nunits) ∧
        loop nunits n oks s prevp p = more nunits (n - d' - 1) oks s := by
  -- on the steps from `p` to `freep`, where the walk ends
  intro d
  induction d with
  | zero =>
    intro n prevp p hn hp hprev hlink
    obtain ⟨n, rfl⟩ := Nat.exists_eq_succ_of_ne_zero (Nat.pos_iff_ne_zero.mp hn)
    have hp' : p = s.freep := hp
    by_cases hfit : nunits ≤ size s.mem p
    · exact .inl ⟨prevp, hprev, p, hlink ▸ h.arena.next_mem hprev, hlink, hfit, if_pos hfit⟩
    · refine .inr ⟨0, le_rfl, hp, fun j hj => ?_, ?_⟩
      · rw [Nat.le_zero.mp hj]
        exact not_le.mp hfit
      · rw [loop, if_neg hfit, if_pos hp']
        rfl
  | succ d ih =>
    intro n prevp p hn hp hprev hlink
    obtain ⟨n, rfl⟩ := Nat.exists_eq_succ_of_ne_zero (Nat.pos_iff_ne_zero.mp (by omega : 0 < n))
    have hpF : p ∈ F := hlink ▸ h.arena.next_mem hprev
    by_cases hfit : nunits ≤ size s.mem p
    · exact .inl ⟨prevp, hprev, p, hpF, hlink, hfit, if_pos hfit⟩
    · by_cases hend : p = s.freep
      · refine .inr ⟨0, Nat.zero_le _, hend, fun j hj => ?_, ?_⟩
        · rw [Nat.le_zero.mp hj]
          exact not_le.mp hfit
        · rw [loop, if_neg hfit, if_pos hend]
          rfl
      · rw [loop, if_neg hfit, if_neg hend]
        rcases ih (n := n) (by omega) hp hpF rfl with hfound | ⟨d', hd', hend', hsmall, heq⟩
        · exact .inl hfound
        · refine .inr ⟨d' + 1, by omega, hend', fun j hj => ?_, ?_⟩
          · cases j with
            | zero => exact not_le.mp hfit
            | succ j => exact hsmall j (by omega)
          · rw [heq, show n + 1 - (d' + 1) - 1 = n - d' - 1 by omega]

/-- The loop of `malloc`, from `freep` on. -/
theorem loop_spec {s : State} (nunits : ℕ) {n : ℕ} (oks : List Bool) (h : Heap im s.mem s.sz F H)
    (hfreep : s.freep ∈ F) (hn : 2 ^ 33 < n) :
    (∃ prevq ∈ F, ∃ q ∈ F, ptr s.mem prevq = q ∧ nunits ≤ size s.mem q ∧
      loop nunits n oks s s.freep (ptr s.mem s.freep) = some (use s nunits prevq q)) ∨
    (∀ q ∈ F, size s.mem q < nunits) ∧ ∃ n', n - 2 ^ 33 - 1 ≤ n' ∧
      loop nunits n oks s s.freep (ptr s.mem s.freep) = more nunits n' oks s := by
  obtain ⟨d, hd, hdt⟩ := h.arena.reach (h.arena.next_mem hfreep) hfreep
  have hcard := h.card_le
  rcases loop_walk nunits oks h (by omega : d < n) hdt hfreep rfl with
    hfound | ⟨d', hd', hend, hsmall, heq⟩
  · exact .inl hfound
  · refine .inr ⟨fun q hq => ?_, n - d' - 1, by omega, heq⟩
    -- the walk is periodic
    obtain ⟨k, -, hk⟩ := h.arena.reach (h.arena.next_mem hfreep) hq
    have hperiod : Function.IsPeriodicPt (ptr s.mem) (d' + 1) (ptr s.mem s.freep) := by
      rw [Function.IsPeriodicPt, Function.IsFixedPt, Function.iterate_succ_apply', hend]
    have hmod := hperiod.iterate_mod_apply k
    have hlt : k % (d' + 1) < d' + 1 := Nat.mod_lt _ (by omega)
    have hsmallk := hsmall (k % (d' + 1)) (by omega)
    rw [hmod, hk] at hsmallk
    exact hsmallk

/-! ### The invariant -/

/-- The headers of the blocks in use. -/
def used (s : State) : Finset ℕ := (s.live.map fun b => b.1 - 8).toFinset

theorem mem_used {s : State} {k : ℕ} : k ∈ used s ↔ ∃ b ∈ s.live, b.1 - 8 = k := by
  simp [used]

structure Inv (im : Image) (s : State) : Prop where
  /-- Before the first request there is no list. -/
  list : (s.freep = 0 ∧ s.live = [] ∧ s.sz = im.sz) ∨
    ∃ F, Heap im s.mem s.sz F (used s) ∧ s.freep ∈ F
  nodup : (s.live.map Prod.fst).Nodup
  room : ∀ b ∈ s.live, 8 < b.1 ∧ b.2 + 8 ≤ 8 * size s.mem (b.1 - 8)

theorem heap_base (m : Memory) :
    Heap im (setSize (setPtr m im.base im.base) im.base 0) im.sz {im.base} ∅ := by
  have hbase := im.base_lt
  have hsz := im.sz_lt
  have hptr : ptr (setSize (setPtr m im.base im.base) im.base 0) im.base = im.base := by
    rw [ptr_setSize (.inl rfl), ptr_setPtr (by omega) (.inl rfl), Function.update_self]
  have hsize : size (setSize (setPtr m im.base im.base) im.base 0) im.base = 0 := by
    rw [size_setSize (by omega) (.inl rfl), Function.update_self]
  refine ⟨⟨Finset.mem_singleton_self _, by rw [hsize], by omega, ?_, ?_, ?_,
    Finset.disjoint_empty_right _⟩, le_rfl, hsz⟩
  · intro p hp
    rw [Finset.mem_singleton.mp hp, hptr]
    exact ⟨Finset.mem_singleton_self _, .inr fun r hr => by rw [Finset.mem_singleton.mp hr]; simp⟩
  · intro p hp hne
    rw [Finset.union_empty, Finset.mem_singleton] at hp
    exact absurd hp hne
  · intro p hp q hq hlt
    rw [Finset.union_empty, Finset.mem_singleton] at hp hq
    omega

/-- A block of the list is above zero. -/
theorem Heap.pos (h : Heap im m sz F H) (hp : p ∈ F) : 0 < p :=
  im.base_pos.trans_le (h.arena.base_le (Finset.mem_union_left H hp))

/-- What `malloc` finds at its first test. -/
theorem ready_spec {s : State} (h : Inv im s) : ∃ F, Heap im (ready im s).mem (ready im s).sz F
      (used s) ∧ (ready im s).freep ∈ F ∧ (ready im s).live = s.live ∧
    (∀ k ∈ used s, size (ready im s).mem k = size s.mem k) ∧
    ∀ n, 0 < n → (Fits s n ↔ ∃ q ∈ F, n ≤ size (ready im s).mem q) := by
  rcases h.list with ⟨hzero, hlive, hsz⟩ | ⟨F, hheap, hfreep⟩
  · have hused : used s = ∅ := by rw [used, hlive]; rfl
    rw [ready, if_pos hzero, hused, hsz]
    refine ⟨{im.base}, heap_base s.mem, Finset.mem_singleton_self _, rfl, by simp, fun n hn => ?_⟩
    refine iff_of_false (fun hfits => hfits.1 hzero) ?_
    rintro ⟨q, hq, hle⟩
    have hlen := (heap_base s.mem : Heap im _ _ _ _).arena.base_len
    rw [Finset.mem_singleton.mp hq] at hle
    dsimp only at hle hlen
    omega
  · have hne : s.freep ≠ 0 := (hheap.pos hfreep).ne'
    rw [ready, if_neg hne]
    refine ⟨F, hheap, hfreep, rfl, fun _ _ => rfl, fun n _ => ⟨?_, ?_⟩⟩
    · rintro ⟨-, k, hk⟩
      exact ⟨_, hheap.arena.iterate_mem hfreep k, hk⟩
    · rintro ⟨q, hq, hle⟩
      obtain ⟨k, -, hk⟩ := hheap.arena.reach hfreep hq
      exact ⟨hne, k, hk ▸ hle⟩

/-- One more block in use, with its header at `q`. -/
theorem live_cons {s s' : State} {nunits nbytes : ℕ} (hnodup : (s.live.map Prod.fst).Nodup)
    (hroom : ∀ b ∈ s.live, 8 < b.1 ∧ b.2 + 8 ≤ 8 * size s.mem (b.1 - 8)) (hlive : s'.live = s.live)
    (hq : q ∉ used s) (hpos : 0 < q) (hself : size s'.mem q = nunits)
    (hsame : ∀ k ∈ used s, size s'.mem k = size s.mem k) (hn : nbytes + 8 ≤ 8 * nunits) :
    used { s' with live := (q + 8, nbytes) :: s'.live } = Insert.insert q (used s) ∧
      (((q + 8, nbytes) :: s'.live).map Prod.fst).Nodup ∧
      ∀ b ∈ (q + 8, nbytes) :: s'.live, 8 < b.1 ∧ b.2 + 8 ≤ 8 * size s'.mem (b.1 - 8) := by
  refine ⟨?_, ?_, fun b hb => ?_⟩
  · simp only [used, hlive, List.map_cons, Nat.add_sub_cancel, List.toFinset_cons]
  · rw [List.map_cons, List.nodup_cons, hlive]
    refine ⟨fun hmem => ?_, hnodup⟩
    obtain ⟨b, hb, hbq⟩ := List.mem_map.mp hmem
    exact hq (mem_used.mpr ⟨b, hb, by omega⟩)
  · rcases List.mem_cons.mp hb with rfl | hb
    · refine ⟨by omega, ?_⟩
      rw [Nat.add_sub_cancel, hself]
      exact hn
    · rw [hlive] at hb
      rw [hsame _ (mem_used.mpr ⟨b, hb, rfl⟩)]
      exact hroom b hb

/-- One block less. -/
theorem live_filter {s s' : State} {b : ℕ × ℕ} (hb : b ∈ s.live)
    (hnodup : (s.live.map Prod.fst).Nodup)
    (hroom : ∀ b ∈ s.live, 8 < b.1 ∧ b.2 + 8 ≤ 8 * size s.mem (b.1 - 8)) (hlive : s'.live = s.live)
    (hsame : ∀ k ∈ (used s).erase (b.1 - 8), size s'.mem k = size s.mem k) :
    used { s' with live := s'.live.filter fun c => c.1 ≠ b.1 } = (used s).erase (b.1 - 8) ∧
      ((s'.live.filter fun c => c.1 ≠ b.1).map Prod.fst).Nodup ∧
      ∀ c ∈ s'.live.filter fun c => c.1 ≠ b.1,
        8 < c.1 ∧ c.2 + 8 ≤ 8 * size s'.mem (c.1 - 8) := by
  have hpos := (hroom b hb).1
  -- the other blocks have other headers
  have hother : ∀ c ∈ s.live.filter (fun c => c.1 ≠ b.1), c ∈ s.live ∧ c.1 - 8 ≠ b.1 - 8 := by
    intro c hc
    obtain ⟨hc, hne⟩ := List.mem_filter.mp hc
    have hpos' := (hroom c hc).1
    rw [decide_eq_true_eq] at hne
    exact ⟨hc, by omega⟩
  rw [hlive]
  refine ⟨?_, hnodup.sublist (List.Sublist.map Prod.fst List.filter_sublist), fun c hc => ?_⟩
  · ext k
    rw [mem_used, Finset.mem_erase, mem_used]
    dsimp only
    constructor
    · rintro ⟨c, hc, rfl⟩
      obtain ⟨hc, hne⟩ := hother c hc
      exact ⟨hne, c, hc, rfl⟩
    · rintro ⟨hne, c, hc, rfl⟩
      refine ⟨c, List.mem_filter.mpr ⟨hc, decide_eq_true fun heq => hne ?_⟩, rfl⟩
      rw [heq]
  · obtain ⟨hc, hne⟩ := hother c hc
    rw [hsame _ (Finset.mem_erase.mpr ⟨hne, mem_used.mpr ⟨c, hc, rfl⟩⟩)]
    exact hroom c hc

/-- The block that is given out is one more in use. -/
theorem inv_use {s : State} {prevp nunits nbytes : ℕ} (h : Heap im s.mem s.sz F (used s))
    (hnodup : (s.live.map Prod.fst).Nodup)
    (hroom : ∀ b ∈ s.live, 8 < b.1 ∧ b.2 + 8 ≤ 8 * size s.mem (b.1 - 8)) (hp : p ∈ F)
    (hprev : prevp ∈ F) (hlink : ptr s.mem prevp = p) (hfit : nunits ≤ size s.mem p)
    (hn : nbytes + 8 ≤ 8 * nunits) :
    ∃ s' r, use s nunits prevp p = (s', r) ∧ r ≠ 0 ∧
      Inv im { s' with live := (r, nbytes) :: s'.live } := by
  obtain ⟨s', F', q, huse, hq, hheap, hfreep, hlive, hself, hsame, -, -⟩ :=
    use_spec h hp hprev hlink (by omega) hfit
  have hqpos : 0 < q := by
    have hqm := Finset.mem_union_right F' (Finset.mem_insert_self q (used s))
    exact im.base_pos.trans_le (hheap.arena.base_le hqm)
  obtain ⟨hused, hnodup', hroom'⟩ := live_cons hnodup hroom hlive hq hqpos hself hsame hn
  exact ⟨s', q + 8, huse, by omega, .inr ⟨F', hused ▸ hheap, hfreep⟩, hnodup', hroom'⟩

theorem inv_of_heap {s s' : State} (h : Inv im s) (hheap : Heap im s'.mem s'.sz F (used s))
    (hfreep : s'.freep ∈ F) (hlive : s'.live = s.live)
    (hsame : ∀ k ∈ used s, size s'.mem k = size s.mem k) : Inv im s' := by
  have hused : used s' = used s := by rw [used, hlive, used]
  refine ⟨.inr ⟨F, hused ▸ hheap, hfreep⟩, hlive ▸ h.nodup, fun b hb => ?_⟩
  rw [hlive] at hb
  rw [hsame _ (mem_used.mpr ⟨b, hb, rfl⟩)]
  exact h.room b hb

/-- A block that is large enough is given out by `malloc`. -/
theorem inv_found {s s' : State} {prevp nunits nbytes : ℕ} (h : Inv im s)
    (hheap : Heap im s'.mem s'.sz F (used s)) (hfreep : s'.freep ∈ F) (hlive : s'.live = s.live)
    (hsame : ∀ k ∈ used s, size s'.mem k = size s.mem k) (hp : p ∈ F) (hprev : prevp ∈ F)
    (hlink : ptr s'.mem prevp = p) (hfit : nunits ≤ size s'.mem p)
    (hn : nbytes + 8 ≤ 8 * nunits) : ∃ s'' r, use s' nunits prevp p = (s'', r) ∧
      Inv im (if r = 0 then s'' else { s'' with live := (r, nbytes) :: s''.live }) := by
  have hinv := inv_of_heap h hheap hfreep hlive hsame
  have hused : used s' = used s := by rw [used, hlive, used]
  obtain ⟨s'', r, huse, hr, hinv'⟩ :=
    inv_use (hused ▸ hheap) hinv.nodup hinv.room hp hprev hlink hfit hn
  refine ⟨s'', r, huse, ?_⟩
  rw [if_neg hr]
  exact hinv'

/-- **`malloc` keeps the heap**, for a sound request. -/
theorem malloc_spec {s : State} {nbytes : UInt32} {oks : List Bool} (h : Inv im s)
    (hs : Sound s (.malloc nbytes oks)) : ∃ s' r, malloc im s nbytes.toNat oks = some (s', r) ∧
      Inv im (if r = 0 then s' else { s' with live := (r, nbytes.toNat) :: s'.live }) := by
  obtain ⟨F, hheap, hfreep, hlive, hsame, hfits⟩ := ready_spec h
  have hbytes := nbytes.toNat_lt
  have hunits : 0 < units nbytes.toNat := Nat.succ_pos _
  have hroom : nbytes.toNat ≤ 2 ^ 32 - 8 → nbytes.toNat + 8 ≤ 8 * units nbytes.toNat := by
    intro hle
    rw [units, Nat.mod_eq_of_lt (by omega)]
    omega
  have hfail : Inv im (if (0 : ℕ) = 0 then ready im s else
      { ready im s with live := (0, nbytes.toNat) :: (ready im s).live }) := by
    rw [if_pos rfl]
    exact inv_of_heap h hheap hfreep hlive hsame
  rw [malloc]
  rcases loop_spec (units nbytes.toNat) (n := fuel) oks hheap hfreep
    (by rw [fuel]; omega) with ⟨prevq, hprevq, q, hq, hlink, hfit, heq⟩ | ⟨hsmall, n, hn, heq⟩
  · -- there is a block
    have hfits' : Fits s (units nbytes.toNat) := (hfits _ hunits).mpr ⟨q, hq, hfit⟩
    have hle : nbytes.toNat ≤ 2 ^ 32 - 8 := by
      rcases hs with hle | ⟨-, hle⟩ | ⟨hnot, -⟩
      · omega
      · exact hle
      · exact absurd hfits' hnot
    obtain ⟨s', r, huse, hinv⟩ :=
      inv_found h hheap hfreep hlive hsame hq hprevq hlink hfit (hroom hle)
    exact ⟨s', r, heq.trans (congrArg some huse), hinv⟩
  · have hnot : ¬Fits s (units nbytes.toNat) := by
      rw [hfits _ hunits]
      rintro ⟨q, hq, hle⟩
      have hlt := hsmall q hq
      omega
    rw [heq, more]
    rcases hs with hle | ⟨hfits', -⟩ | ⟨-, hok⟩
    · -- `sbrk` is asked for more
      have hnu : units nbytes.toNat * 8 < 2 ^ 31 := by
        rw [units, Nat.mod_eq_of_lt (by omega)]
        omega
      rcases morecore_spec hheap hfreep hnu (oks.headD false) with
        hnone | ⟨s', F', hcore, hheap', hfreep', hlive', ⟨q, hq, hqle⟩, hsame', -⟩
      · rw [hnone]
        exact ⟨_, 0, rfl, hfail⟩
      · rw [hcore]
        dsimp only
        rw [if_neg (hheap'.pos hfreep').ne']
        have hlive'' := hlive'.trans hlive
        have hsame'' := fun k hk => (hsame' k hk).trans (hsame k hk)
        rcases loop_spec (units nbytes.toNat) (n := n) oks.tail hheap' hfreep'
          (by rw [fuel] at hn; omega) with ⟨prevq, hprevq, q, hq, hlink, hfit, heq'⟩ | ⟨hsmall', -⟩
        · obtain ⟨s'', r, huse, hinv⟩ := inv_found h hheap' hfreep' hlive'' hsame'' hq hprevq hlink
            hfit (hroom (by omega))
          exact ⟨s'', r, heq'.trans (congrArg some huse), hinv⟩
        · have hlt := hsmall' q hq
          omega
    · exact absurd hfits' hnot
    · rw [hok]
      exact ⟨_, 0, rfl, hfail⟩

/-- A block in use, without its header, does not overlap a header or another block. -/
theorem Heap.payload (h : Heap im m sz F H) (hbp : bp ∈ H) (hq : q ∈ F ∪ H) :
    q + 8 ≤ bp + 8 ∨ bp + 8 * size m bp ≤ q := by
  have hbpm := Finset.mem_union_right F hbp
  have hap := h.arena.apart bp hbpm q hq
  rcases clear_of_arena h.arena hbpm hq with rfl | hlt | hlt
  · exact .inl le_rfl
  · exact .inr (hap (by omega))
  · exact .inl (by omega)

/-- `free` of a block in use. -/
theorem inv_free {s : State} {ap : ℕ} (h : Inv im s) (hap : ap ∈ s.live.map Prod.fst) :
    ∃ s', free s ap = some s' ∧ Inv im { s' with live := s'.live.filter fun b => b.1 ≠ ap } := by
  obtain ⟨b, hb, rfl⟩ := List.mem_map.mp hap
  have hpos := (h.room b hb).1
  rcases h.list with ⟨-, hlive, -⟩ | ⟨F, hheap, hfreep⟩
  · rw [hlive] at hb
    cases hb
  · have hbp : b.1 - 8 ∈ used s := mem_used.mpr ⟨b, hb, rfl⟩
    obtain ⟨s', F', hfree, hheap', hfreep', -, hlive, -, hsame, -⟩ := free_spec hheap hfreep hbp
    rw [Nat.sub_add_cancel (by omega)] at hfree
    obtain ⟨hused, hnodup, hroom⟩ := live_filter hb h.nodup h.room hlive hsame
    exact ⟨s', hfree, .inr ⟨F', hused ▸ hheap', hfreep'⟩, hnodup, hroom⟩

/-- What is written into a block is in no header. -/
theorem Heap.write {s : State} {b : ℕ × ℕ} {a : ℕ} (h : Heap im s.mem s.sz F (used s))
    (hb : b ∈ s.live) (hroom : 8 < b.1 ∧ b.2 + 8 ≤ 8 * size s.mem (b.1 - 8)) (v : UInt8)
    (ha : b.1 ≤ a ∧ a < b.1 + b.2) :
    ∀ k ∈ F ∪ used s, ptr (Function.update s.mem a v) k = ptr s.mem k ∧
      size (Function.update s.mem a v) k = size s.mem k := by
  have hbp : b.1 - 8 ∈ used s := mem_used.mpr ⟨b, hb, rfl⟩
  intro k hk
  have hout := h.payload hbp hk
  exact ⟨word_congr fun i hi hi' => Function.update_of_ne (by omega) _ _,
    word_congr fun i hi hi' => Function.update_of_ne (by omega) _ _⟩

/-- The program writes into a block. -/
theorem inv_write {s : State} {b : ℕ × ℕ} {a : ℕ} (h : Inv im s) (hb : b ∈ s.live) (v : UInt8)
    (ha : b.1 ≤ a ∧ a < b.1 + b.2) : Inv im { s with mem := Function.update s.mem a v } := by
  rcases h.list with ⟨-, hlive, -⟩ | ⟨F, hheap, hfreep⟩
  · rw [hlive] at hb
    cases hb
  · have hsame := hheap.write hb (h.room b hb) v ha
    have harena := hheap.arena.congr (f := ptr (Function.update s.mem a v))
      (l := fun k => 8 * size (Function.update s.mem a v) k) fun k hk =>
        ⟨fun _ => (hsame k hk).1, by rw [(hsame k hk).2]⟩
    exact inv_of_heap h
      ⟨harena, hheap.grown, hheap.sz_lt⟩ hfreep rfl
      fun k hk => (hsame k (Finset.mem_union_right F hk)).2

/-- **A sound step keeps the invariant.** -/
theorem inv_step {s : State} {a : Action} {r : State × Option ℕ} (h : Inv im s) (hs : Sound s a)
    (hr : step im s a = some r) : Inv im r.1 := by
  cases a with
  | malloc nbytes oks =>
    obtain ⟨s', p, hmalloc, hinv⟩ := malloc_spec h hs
    rw [step, hmalloc] at hr
    cases hr
    exact hinv
  | free ap =>
    rw [step] at hr
    split at hr
    · next hap =>
      obtain ⟨s', hfree, hinv⟩ := inv_free h hap
      rw [hfree] at hr
      cases hr
      exact hinv
    · cases hr
  | write a v =>
    rw [step] at hr
    split at hr
    · next hin =>
      obtain ⟨b, hb, ha⟩ := hin
      cases hr
      exact inv_write h hb v ha
    · cases hr

theorem inv_boot (m : Memory) : Inv im (boot im m) where
  list := .inl ⟨rfl, rfl, rfl⟩
  nodup := List.nodup_nil
  room := fun _ hb => absurd hb List.not_mem_nil

/-- The invariant says what a program may rely on. -/
theorem Inv.safe {s : State} (h : Inv im s) : Safe im s := by
  rcases h.list with ⟨-, hlive, -⟩ | ⟨F, hheap, hfreep⟩
  · refine ⟨h.nodup, ?_, ?_, ?_⟩ <;> rw [hlive] <;> exact fun _ hb => absurd hb List.not_mem_nil
  · have hbp : ∀ b ∈ s.live, b.1 - 8 ∈ used s := fun b hb => mem_used.mpr ⟨b, hb, rfl⟩
    refine ⟨h.nodup, fun b hb => ?_, fun b hb c hc hne => ?_, fun b hb k hk => ?_⟩
    · obtain ⟨hpos, hroom⟩ := h.room b hb
      have hbase : b.1 - 8 ≠ im.base := fun heq => hheap.arena.base_not_mem (heq ▸ hbp b hb)
      have hblock := hheap.arena.block _ (Finset.mem_union_right F (hbp b hb)) hbase
      omega
    · obtain ⟨hpos, hroom⟩ := h.room b hb
      obtain ⟨hpos', hroom'⟩ := h.room c hc
      have hptr : b.1 ≠ c.1 := fun heq => hne (List.inj_on_of_nodup_map h.nodup hb hc heq)
      have hbm := Finset.mem_union_right F (hbp b hb)
      have hcm := Finset.mem_union_right F (hbp c hc)
      have hbc := hheap.arena.apart _ hbm _ hcm
      have hcb := hheap.arena.apart _ hcm _ hbm
      rw [Apart]
      rcases Nat.lt_or_gt_of_ne hptr with hlt | hlt
      · have hle := hbc (by omega)
        omega
      · have hle := hcb (by omega)
        omega
    · obtain ⟨hpos, hroom⟩ := h.room b hb
      have hkm : k ∈ F ∪ used s := by
        rcases hk with ⟨-, n, rfl⟩ | ⟨c, hc, rfl⟩
        · exact Finset.mem_union_left _ (hheap.arena.iterate_mem hfreep n)
        · exact Finset.mem_union_right F (hbp c hc)
      have hout := hheap.payload (hbp b hb) hkm
      rw [Apart]
      omega

/-- **The allocator.**  As long as all requests are sound, whatever the program frees and writes
into its blocks: blocks lie in memory from `sbrk`, apart from all headers and from each other.
And all calls return. -/
theorem malloc_safe {m : Memory} {is : List Action} {s : State} {os : List (Option ℕ)}
    (hrun : run (step im) (boot im m) is = some (s, os))
    (hs : AlongRun (step im) Sound (boot im m) is) :
    Safe im s ∧
    (∀ nbytes oks, Sound s (.malloc nbytes oks) → step im s (.malloc nbytes oks) ≠ none) ∧
    ∀ ap ∈ s.live.map Prod.fst, step im s (.free ap) ≠ none := by
  have hinv : Inv im s :=
    run_invariant (Inv im) (fun _ _ _ h ha hp => inv_step h ha hp) is _ (s, os) (inv_boot m) hs hrun
  refine ⟨hinv.safe, fun nbytes oks ha => ?_, fun ap hap => ?_⟩
  · obtain ⟨s', r, hmalloc, -⟩ := malloc_spec hinv ha
    simp [step, hmalloc]
  · obtain ⟨s', hfree, -⟩ := inv_free hinv hap
    simp [step, hap, hfree]

/-- A program of one page, with its stack. -/
def small : Image := ⟨2048, 12288, by decide, by decide, by decide⟩

/-- Two blocks, of which the first is freed. -/
theorem malloc_safe_two_blocks : ∃ s os, run (step small) (boot small fun _ => 0)
    [.malloc 10 [true], .malloc 20 [], .free 45040, .write 45008 1] = some (s, os) ∧
    Safe small s ∧ s.live = [(45008, 20)] := by
  have hrun : (run (step small) (boot small fun _ => 0)
      [.malloc 10 [true], .malloc 20 [], .free 45040, .write 45008 1]).map (fun r => r.1.live) =
      some [(45008, 20)] := by decide +kernel
  obtain ⟨⟨s, os⟩, hs, hlive⟩ := Option.map_eq_some_iff.mp hrun
  have hsound : AlongRun (step small) Sound (boot small fun _ => 0)
      [.malloc 10 [true], .malloc 20 [], .free 45040, .write 45008 1] :=
    AlongRun.of_forall _ fun s a ha => by
      simp only [List.mem_cons, List.not_mem_nil, or_false] at ha
      rcases ha with rfl | rfl | rfl | rfl
      · exact .inl (by decide)
      · exact .inl (by decide)
      · trivial
      · trivial
  exact ⟨s, os, hs, (malloc_safe hs hsound).1, hlive⟩

/-- A request of 2^32 - 1 bytes is given a block of one unit. -/
theorem not_safe_huge : ¬∀ m is s os, run (step small) (boot small m) is = some (s, os) →
    Safe small s := by
  intro hsafe
  have hrun : (run (step small) (boot small fun _ => 0) [.malloc 4294967295 [true]]).map
      (fun r => (r.1.live, r.1.sz)) = some ([(45056, 4294967295)], 45056) := by decide +kernel
  obtain ⟨⟨s, os⟩, hs, hlive⟩ := Option.map_eq_some_iff.mp hrun
  rw [Prod.mk.injEq] at hlive
  have hmem : (45056, 4294967295) ∈ s.live := by
    rw [hlive.1]
    exact List.mem_cons_self
  have hin := (hsafe _ _ s os hs).inside _ hmem
  rw [hlive.2] at hin
  omega

end Malloc
end Xv6

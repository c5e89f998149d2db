import Xv6.Fs.FileArray
import Xv6.Vm.Alloc
import Xv6.Vm.Copyout
import Xv6.Vm.Setupkvm

/-!
# The address space of a new program

`loaduvm` and `clearpteu` of `vm.c`, and the invariant of the page directory that `exec`
builds: the user pages that are mapped are those below some page, all on pages that were free.

* `loaduvm`, `clearpteu` — the code.
* `Space` — the invariant.
* `wp_setupkvm_space`, `wp_allocuvm_space`, `wp_loaduvm`, `wp_clearpteu`, `wp_copyout_space` —
  **each step of `exec` keeps it, and does not panic.**
-/

namespace Xv6
namespace Vm

open Prog

/-! ### The code -/

/-- `readi` of a file with the content `c`: the result, and the bytes that are stored. -/
def readi (c : List UInt8) (off n : ℕ) : ℤ × List UInt8 :=
  ((Fs.FileOp.read (.ofNat off) (.ofNat n)).flat c).1

/-- The loop of `loaduvm`, with whether it returns 0. -/
def loadLoop (d : PgDir) (addr : ℕ) (c : List UInt8) (offset sz : ℕ) : ℕ → ℕ → Kern Bool
  | 0, _ => stop .diverges
  | k + 1, i =>
      if i < sz then do
        let (_, found) ← walkpgdir d ((addr + i) % 2 ^ 32) false
        if found then
          let pa := (d.entry ((addr + i) % 2 ^ 32)).frame
          let n := if sz - i < pgsize then sz - i else pgsize
          let r := readi c ((offset + i) % 2 ^ 32) n
          memmove (p2v pa) r.2
          if r.1 ≠ n then return false
          else loadLoop d addr c offset sz k ((i + pgsize) % 2 ^ 32)
        else stop .loaduvm
      else return true

/-- `loaduvm` -/
def loaduvm (d : PgDir) (addr : ℕ) (c : List UInt8) (offset sz : ℕ) : Kern Bool :=
  if addr % pgsize ≠ 0 then stop .loaduvm else loadLoop d addr c offset sz rounds 0

/-- `clearpteu` -/
def clearpteu (d : PgDir) (uva : ℕ) : Kern PgDir := do
  let (_, found) ← walkpgdir d uva false
  if found then
    return d.setEntry uva { d.entry uva with flags := (d.entry uva).flags &&& (0xFFF ^^^ pteU) }
  else stop .clearpteu

/-! ### The invariant -/

/-- The page directory is made of pages that were free in `s₀`, has the mappings of the kernel,
and maps the user pages below `n`. -/
structure Space (L : Layout) (s₀ : Ram) (n : ℕ) (d : PgDir) (s : Ram) : Prop where
  owned : Owned s₀ d s
  kernel : ∀ v < 2 ^ 20, 2 ^ 19 ≤ v → d.at v = kernelPte L v
  mapped : ∀ v < 2 ^ 19, (d.at v).present = true ↔ v < n

section Specs

variable {L : Layout} {E : Panic → Prop} {s₀ s s' : Ram} {d d' : PgDir} {n : ℕ}

/-- The pages of the kernel are not for the user. -/
theorem kernelPte_user_eq_false (L : Layout) (v : ℕ) : (kernelPte L v).user = false := by
  rw [kernelPte, kmapPte]
  split
  · next k hk =>
    have hmem := List.mem_of_find?_eq_some hk
    have hperm : k.perm = pteW ∨ k.perm = 0 := by
      simp only [kmap, List.mem_cons, List.not_mem_nil, or_false] at hmem
      rcases hmem with rfl | rfl | rfl | rfl <;> simp
    rw [Kmap.pte, Pte.user]
    dsimp only
    rcases hperm with hperm | hperm <;> rw [hperm] <;> decide
  · rfl

namespace Space

theorem frame_mem (h : Space L s₀ n d s) {v : ℕ} (hv : v < 2 ^ 19)
    (hp : (d.at v).present = true) : (d.at v).frame ∈ s₀.freelist :=
  h.owned.mem_frames
    (PgDir.mem_frames.mpr ⟨v, Nat.zero_le v, hv, PgDir.look_eq_some.mpr ⟨hp, rfl⟩⟩)

theorem look_eq_none (h : Space L s₀ n d s) {v : ℕ} (hv : v < 2 ^ 19) (hn : n ≤ v) :
    d.look v = none :=
  if_neg fun hp => absurd ((h.mapped v hv).mp hp) (by omega)

theorem absent (h : Space L s₀ n d s) {v : ℕ} (hv : v < 2 ^ 19) (hn : n ≤ v) :
    (d.at v).present = false := by
  rw [← Bool.not_eq_true]
  exact fun hp => absurd ((h.mapped v hv).mp hp) (by omega)

theorem hasTable (h : Space L s₀ n d s) {v : ℕ} (hv : v < 2 ^ 19) (hn : v < n) : d.HasTable v := by
  intro hnone
  have hp := (h.mapped v hv).mpr hn
  rw [PgDir.at_of_none hnone] at hp
  cases hp

/-- The user pages are pages of the allocator. -/
theorem physical (h : Space L s₀ n d s) (hram : ∀ f ∈ s₀.freelist, L.IsRam f) : d.Physical := by
  intro v hv hacc
  rcases Nat.lt_or_ge v (2 ^ 19) with hlt | hge
  · exact (hram _ (h.frame_mem hlt hacc.1)).2
  · have huser := hacc.2
    rw [h.kernel v hv hge, kernelPte_user_eq_false] at huser
    cases huser

/-- Pages of the address space are written. -/
theorem within {va len : ℕ} (h : Space L s₀ n d s) (hn : n ≤ 2 ^ 19) (hend : va + len ≤ n * 4096)
    (hw : Within d va len s s') : Space L s₀ n d s' := by
  refine ⟨⟨by rw [hw.free]; exact h.owned.perm, fun f hf => funext fun o => ?_⟩, h.kernel,
    h.mapped⟩
  rw [hw.kept f o fun i hi hacc heq => hf ?_, h.owned.kept f hf]
  have hpage : pageOf va i < 2 ^ 19 := by
    rw [pageOf]
    omega
  rw [← show (d.loc va i).1 = f from congrArg Prod.fst heq]
  exact h.frame_mem hpage hacc.1

/-- A page of the address space is written. -/
theorem write (h : Space L s₀ n d s) {f : ℕ} (hf : f ∈ s₀.freelist) (o : ℕ) (bytes : List UInt8) :
    Space L s₀ n d (s.write f o bytes) := by
  refine ⟨⟨h.owned.perm, fun g hg => funext fun x => ?_⟩, h.kernel, h.mapped⟩
  have hne : ¬(g = f ∧ o ≤ x ∧ x < o + bytes.length) := fun hin => hg (hin.1 ▸ hf)
  rw [page_write, if_neg hne, h.owned.kept g hg]

end Space

/-! ### The steps -/

theorem wp_setupkvm_space (hram : ∀ f ∈ s.freelist, L.IsRam f) :
    wp (setupkvm L) E (fun r s' =>
      match r with
      | some d => Space L s 0 d s'
      | none => Restored s s') s := by
  refine wp_imp (wp_setupkvm hram) fun r s' hr => ?_
  cases r with
  | none => exact hr
  | some d =>
    refine ⟨hr.1, fun v hv _ => hr.2 v hv, fun v hv => ?_⟩
    rw [hr.2 v (by omega), kernelPte_user L hv]
    simp

/-- The pages of `allocuvm` are added. -/
theorem Space.allocated {m : ℕ} (h : Space L s₀ n d s) (hnm : n ≤ m) (hm : m ≤ 2 ^ 19)
    (halloc : Allocated n m d s d' s') : Space L s₀ m d' s' := by
  have hsame : ∀ v < n, d'.look v = d.look v := fun v hv =>
    PgDir.look_congr (halloc.entry v (by omega) (.inl hv))
  have habove : ∀ v < 2 ^ 19, m ≤ v → d'.look v = none := fun v hv hlo => by
    rw [PgDir.look_congr (halloc.entry v (by omega) (.inr hlo))]
    exact h.look_eq_none hv (by omega)
  have hframes : d.frames 0 (2 ^ 19) = d.frames 0 n := by
    rw [PgDir.frames_append d (Nat.zero_le n) (by omega),
      PgDir.frames_eq_nil (v := n) fun v hlo hv => h.look_eq_none hv hlo, List.append_nil]
  have hframes' : d'.frames 0 (2 ^ 19) = d.frames 0 n ++ d'.frames n m := by
    rw [PgDir.frames_append d' (Nat.zero_le n) (by omega), PgDir.frames_append d' hnm hm,
      PgDir.frames_eq_nil (v := m) fun v hlo hv => habove v hv hlo, List.append_nil,
      PgDir.frames_congr fun v _ hv => hsame v hv]
  refine ⟨⟨?_, fun f hf => ?_⟩, fun v hv hk => ?_, fun v hv => ?_⟩
  · refine List.Perm.trans ?_ h.owned.perm
    rw [halloc.frame, hframes, hframes', List.append_assoc]
    refine List.Perm.cons _ (List.Perm.append_left _ ?_)
    rw [← List.append_assoc]
    exact halloc.owned
  · rw [halloc.kept f fun hin => hf (h.owned.mem_free hin), h.owned.kept f hf]
  · rw [halloc.entry v hv (.inr (by omega))]
    exact h.kernel v hv hk
  · rcases Nat.lt_or_ge v n with hlt | hge
    · rw [halloc.entry v (by omega) (.inl hlt), h.mapped v hv]
      omega
    · rcases Nat.lt_or_ge v m with hlt' | hge'
      · obtain ⟨f, -, hat, -⟩ := halloc.new v hge hlt'
        rw [hat]
        exact iff_of_true (Pte.present_perm _ _) hlt'
      · rw [halloc.entry v (by omega) (.inr hge'), h.mapped v hv]
        omega

/-- `allocuvm` has taken its pages back. -/
theorem Space.rolledBack {m : ℕ} (h : Space L s₀ n d s) (hback : RolledBack n m d s d' s') :
    Owned s₀ d' s' := by
  have hlook : ∀ v < 2 ^ 19, d'.look v = d.look v := by
    intro v hv
    by_cases hin : v < n ∨ m ≤ v
    · exact PgDir.look_congr (hback.entry v (by omega) hin)
    · rw [h.look_eq_none hv (by omega), PgDir.look, hback.absent v (by omega) (by omega)]
      rfl
  refine ⟨?_, fun f hf => ?_⟩
  · refine List.Perm.trans ?_ h.owned.perm
    rw [hback.frame, PgDir.frames_congr fun v _ hv => hlook v hv]
    exact List.Perm.cons _ (hback.owned.append_left _)
  · rw [hback.kept f fun hin => hf (h.owned.mem_free hin), h.owned.kept f hf]

/-- The new pages are for the user. -/
theorem wp_allocuvm_accessible {sz newsz : ℕ} (h : Space L s₀ (npages sz) d s) (hle : sz ≤ newsz)
    (hnew : newsz < kernbase) (hram : ∀ f ∈ s₀.freelist, L.IsRam f) (h₀ : s₀.freelist.Nodup) :
    wp (allocuvm L d sz newsz) E (fun r _ => r.2 ≠ 0 →
      ∀ v, npages sz ≤ v → v < npages newsz → r.1.Accessible v) s := by
  have hmax := npages_le hnew.le
  refine wp_imp (wp_allocuvm hle hnew (fun f hf => hram f (h.owned.mem_free hf))
    (List.nodup_append.mp (h.owned.nodup h₀)).2.1 fun u hlo hhi => h.absent (by omega) hlo) ?_
  rintro ⟨d', sz'⟩ s' (⟨rfl, halloc⟩ | ⟨rfl, -⟩)
  · intro _ v hlo hhi
    obtain ⟨f, -, hat, -⟩ := halloc.new v hlo hhi
    rw [PgDir.Accessible, hat]
    exact ⟨Pte.present_perm _ _, show (pteW ||| pteU ||| pteP).testBit 2 = true by decide⟩
  · exact fun hne => absurd rfl hne

/-- **`allocuvm`** for any new size. -/
theorem wp_allocuvm_space {sz : ℕ} (h : Space L s₀ (npages sz) d s) (hsz : sz ≤ kernbase)
    (hram : ∀ f ∈ s₀.freelist, L.IsRam f) (h₀ : s₀.freelist.Nodup) (newsz : ℕ) :
    wp (allocuvm L d sz newsz) E (fun r s' => Owned s₀ r.1 s' ∧ (r.2 ≠ 0 →
      newsz < kernbase ∧ r.2 = max sz newsz ∧ Space L s₀ (npages r.2) r.1 s')) s := by
  have hmax := npages_le hsz
  rcases Nat.lt_or_ge newsz kernbase with hlt | hge
  · rcases Nat.lt_or_ge newsz sz with hdown | hup
    · rw [allocuvm, if_neg (by omega), if_pos hdown, wp_pure]
      exact ⟨h.owned, fun _ => ⟨hlt, (max_eq_left hdown.le).symm, h⟩⟩
    · have hmono : npages sz ≤ npages newsz := by
        rw [npages, npages]
        omega
      have habsent : ∀ u, npages sz ≤ u → u < npages newsz → (d.at u).present = false := by
        intro u hlo hhi
        have hmaxnew := npages_le hlt.le
        exact h.absent (by omega) hlo
      refine wp_imp (wp_allocuvm hup hlt (fun f hf => hram f (h.owned.mem_free hf))
        (List.nodup_append.mp (h.owned.nodup h₀)).2.1 habsent) ?_
      rintro ⟨d', sz'⟩ s' (⟨rfl, halloc⟩ | ⟨rfl, hback⟩)
      · have hspace := h.allocated hmono (npages_le hlt.le) halloc
        exact ⟨hspace.owned, fun _ => ⟨hlt, (max_eq_right hup).symm, hspace⟩⟩
      · exact ⟨h.rolledBack hback, fun hne => absurd rfl hne⟩
  · rw [allocuvm, if_pos hge, wp_pure]
    exact ⟨h.owned, fun hne => absurd rfl hne⟩

theorem wp_loadLoop {addr sz : ℕ} (hram : ∀ f ∈ s₀.freelist, L.IsRam f) (hn : n ≤ 2 ^ 19)
    (haddr : addr % 4096 = 0) (hend : addr + sz ≤ n * 4096) (c : List UInt8) (offset : ℕ) :
    ∀ (k j : ℕ) (s : Ram), npages sz - j < k → Space L s₀ n d s →
      wp (loadLoop d addr c offset sz k (j * 4096)) E (fun _ s' => Space L s₀ n d s') s := by
  intro k
  induction k with
  | zero => intro j s hk; omega
  | succ k ih =>
    intro j s hk h
    rw [loadLoop]
    by_cases hlt : j * 4096 < sz
    · have hpage : (addr + j * 4096) % 2 ^ 32 = (addr / 4096 + j) * 4096 := by omega
      have hv : addr / 4096 + j < n := by omega
      have hp := (h.mapped (addr / 4096 + j) (by omega)).mpr hv
      have hframe := h.frame_mem (by omega) hp
      have hfound : (d.pde (pdx ((addr / 4096 + j) * 4096))).isSome = true := by
        rw [pdx_page]
        exact Option.isSome_iff_ne_none.mpr (h.hasTable (by omega) hv)
      have hv2p := v2p_p2v (hram _ hframe).2 (Nat.zero_lt_succ 4095)
      rw [Nat.add_zero] at hv2p
      rw [if_pos hlt, hpage, wp_bind, wp_walkpgdir]
      dsimp only
      rw [if_pos hfound, show d.entry ((addr / 4096 + j) * 4096) = d.at (addr / 4096 + j) from rfl,
        wp_bind, memmove, wp_modify, hv2p.1, hv2p.2, wp_ite]
      refine ⟨fun _ => h.write hframe _ _, fun _ => ?_⟩
      rw [next_page (by omega)]
      refine ih (j + 1) _ ?_ (h.write hframe _ _)
      rw [npages] at hk ⊢
      omega
    · rw [if_neg hlt, wp_pure]
      exact h

/-- **`loaduvm`** does not panic where the pages are mapped. -/
theorem wp_loaduvm {addr sz : ℕ} (h : Space L s₀ n d s) (hram : ∀ f ∈ s₀.freelist, L.IsRam f)
    (hn : n ≤ 2 ^ 19) (haddr : addr % 4096 = 0) (hend : addr + sz ≤ n * 4096) (c : List UInt8)
    (offset : ℕ) : wp (loaduvm d addr c offset sz) E (fun _ s' => Space L s₀ n d s') s := by
  have hloop := wp_loadLoop (E := E) hram hn haddr hend c offset rounds 0 s
    (by rw [rounds, npages]; omega) h
  rw [Nat.zero_mul] at hloop
  rw [loaduvm, pgsize, if_neg (not_not.mpr haddr)]
  exact hloop

theorem wp_clearpteu_iff {v : ℕ} (htable : d.HasTable v) {Q : PgDir → Ram → Prop} :
    wp (clearpteu d (v * 4096)) E Q s ↔ Q (d.setEntry (v * 4096)
      { d.at v with flags := (d.at v).flags &&& (0xFFF ^^^ pteU) }) s := by
  rw [clearpteu, wp_bind, wp_walkpgdir, pdx_page]
  dsimp only
  rw [if_pos (Option.isSome_iff_ne_none.mpr htable), wp_pure,
    show d.entry (v * 4096) = d.at v from rfl]

/-- **`clearpteu`** does not panic where the page is mapped. -/
theorem wp_clearpteu {v : ℕ} (h : Space L s₀ n d s) (hn : n ≤ 2 ^ 19) (hv : v < n) :
    wp (clearpteu d (v * 4096)) E (fun d' s' => Space L s₀ n d' s') s := by
  have htable := h.hasTable (by omega) hv
  have hp := (h.mapped v (by omega)).mpr hv
  rw [wp_clearpteu_iff htable]
  have hset : ∀ u < 2 ^ 20, (d.setEntry (v * 4096)
      { d.at v with flags := (d.at v).flags &&& (0xFFF ^^^ pteU) }).at u =
      if u = v then { d.at v with flags := (d.at v).flags &&& (0xFFF ^^^ pteU) } else d.at u :=
    fun u hu => PgDir.at_setEntry _ htable (by omega) hu
  have hpresent : ({ d.at v with flags := (d.at v).flags &&& (0xFFF ^^^ pteU) } : Pte).present =
      true := by
    rw [Pte.present, Nat.testBit_and, show (d.at v).flags.testBit 0 = true from hp]
    decide
  have hlook : ∀ u < 2 ^ 19, (d.setEntry (v * 4096)
      { d.at v with flags := (d.at v).flags &&& (0xFFF ^^^ pteU) }).look u = d.look u := by
    intro u hu
    by_cases huv : u = v
    · rw [PgDir.look, hset u (by omega), if_pos huv, if_pos hpresent, huv, PgDir.look, if_pos hp]
    · exact PgDir.look_congr (by rw [hset u (by omega), if_neg huv])
  refine ⟨⟨?_, h.owned.kept⟩, fun u hu hk => ?_, fun u hu => ?_⟩
  · rw [PgDir.frame_setEntry, PgDir.tables_setEntry, PgDir.frames_congr fun u _ hu => hlook u hu]
    exact h.owned.perm
  · rw [hset u hu, if_neg (by omega)]
    exact h.kernel u hu hk
  · rw [hset u (by omega)]
    split
    · next huv =>
      rw [huv]
      exact iff_of_true hpresent hv
    · exact h.mapped u hu

/-- **`copyout`** to an address below the size reads through no null pointer. -/
theorem wp_copyout_space {va : ℕ} {p : List UInt8} (h : Space L s₀ n d s)
    (hram : ∀ f ∈ s₀.freelist, L.IsRam f) (hn : n ≤ 2 ^ 19) (hend : va + p.length ≤ n * 4096) :
    wp (copyout d va p) E (fun _ s' => Space L s₀ n d s') s := by
  refine wp_mono (wp_copyoutLoop (h.physical hram) _ va p s (by omega) (Nat.lt_succ_self _))
    (fun r s' hr => ?_) ?_
  · rcases hr with ⟨-, -, hcopied⟩ | ⟨-, hwithin, -⟩
    · exact h.within hn hend hcopied.toWithin
    · exact h.within hn hend hwithin
  · rintro e ⟨-, i, hi, hnone⟩
    have hlt := hi.1
    have hpage : pageOf va i < n := by
      rw [pageOf]
      omega
    exact absurd (h.hasTable (by omega) hpage) hnone

end Specs

end Vm
end Xv6

import Xv6.Fs.Mkfs

/-!
# Appending to a file of an image

The blocks that `iappend` gives out are the ones that the kernel would allocate on the disk
that the image is with its free map: `iappend` is a `writei` of the kernel at the end of the
file.

* `Image.Ok` — what holds of the image between two functions of `mkfs`.
* `balloc_disk` — the counter is the first free block of the map.
* `wp_appendLoop` — **the loop of `iappend` is the loop of `writei`**.
-/

namespace Xv6
namespace Mkfs

open Fs Prog Bytes

/-- The image between two functions: it has its full length, and what was not given out is
zero. -/
structure Image.Ok (s : Image) : Prop where
  length : s.length = sb.size
  lower : sb.nmeta ≤ s.freeblock
  upper : s.freeblock ≤ sb.size
  zero : ∀ b, s.freeblock ≤ b → s.sectors b = zeroBlock

/-- The image after `freeblock++`. -/
def Image.next (s : Image) : Image := { s with freeblock := s.freeblock + 1 }

/-- The image after `wsect`. -/
def Image.put (s : Image) (sec : ℕ) (buf : Block) : Image :=
  { s with sectors := Function.update s.sectors sec buf, length := max s.length (sec + 1) }

section Images

variable {s : Image}

theorem bblock_sb {b : ℕ} (hb : b < sb.size) : sb.bblock b = sb.bmapstart := by
  have hdiv : b / bpb = 0 := Nat.div_eq_of_lt (hb.trans (by decide))
  rw [Superblock.bblock, hdiv, Nat.zero_add]

theorem Image.disk_of_ne {b : ℕ} (h : b ≠ sb.bmapstart) : s.disk b = s.sectors b :=
  Function.update_of_ne h _ _

theorem ne_bmapstart_of_le {b : ℕ} (h : sb.nmeta ≤ b) : b ≠ sb.bmapstart :=
  (sb.bmapstart_lt_nmeta.trans_le h).ne'

theorem Image.Ok.marked_disk (hs : s.Ok) {b : ℕ} (hb : b < sb.size) :
    marked sb s.disk b = decide (b < s.freeblock) := by
  have hmod : b % bpb = b := Nat.mod_eq_of_lt (hb.trans (by decide))
  rw [marked, bblock_sb hb, Image.disk, Function.update_self, hmod,
    bitAt_usedMap (hs.upper.trans (by decide))]

theorem usedMap_succ (n : ℕ) : usedMap (n + 1) = setBit (usedMap n) n := by
  rw [usedMap, List.range_succ, List.foldl_append]
  rfl

/-- The counter is the block that `balloc` of the kernel takes. -/
theorem Image.Ok.next_disk (hs : s.Ok) (hlt : s.freeblock < sb.size) :
    s.next.disk = taken sb s.disk s.freeblock := by
  have hmod : s.freeblock % bpb = s.freeblock := Nat.mod_eq_of_lt (hlt.trans (by decide))
  have hne := ne_bmapstart_of_le hs.lower
  funext b
  rw [taken, bblock_sb hlt, hmod]
  by_cases hb : b = s.freeblock
  · rw [hb, Function.update_self, Image.disk_of_ne hne, ← hs.zero _ le_rfl]
    rfl
  · rw [Function.update_of_ne hb]
    by_cases hmap : b = sb.bmapstart
    · rw [hmap, Function.update_self, Image.disk, Function.update_self, Image.disk,
        Function.update_self, ← usedMap_succ]
      rfl
    · rw [Function.update_of_ne hmap, Image.disk_of_ne hmap, Image.disk_of_ne hmap]
      rfl

theorem Image.put_disk {b : ℕ} (h : b ≠ sb.bmapstart) (data : Block) :
    (s.put b data).disk = Function.update s.disk b data :=
  Function.update_comm h _ _ _

theorem Image.Ok.next (hs : s.Ok) (hlt : s.freeblock < sb.size) : s.next.Ok where
  length := hs.length
  lower := hs.lower.trans (Nat.le_succ _)
  upper := hlt
  zero := fun b hb => hs.zero b (Nat.le_of_succ_le hb)

theorem Image.Ok.put (hs : s.Ok) {b : ℕ} (hb : b < s.freeblock) (data : Block) :
    (s.put b data).Ok where
  length := by
    have hle : b + 1 ≤ s.length := hs.length ▸ Nat.succ_le_of_lt (hb.trans_le hs.upper)
    exact (max_eq_left hle).trans hs.length
  lower := hs.lower
  upper := hs.upper
  zero := fun c hc => by
    have hne : c ≠ b := (hb.trans_le hc).ne'
    exact (Function.update_of_ne hne _ _).trans (hs.zero c hc)

theorem toNat_ofNat_freeblock (hs : s.Ok) : (UInt32.ofNat s.freeblock).toNat = s.freeblock :=
  UInt32.toNat_ofNat_of_lt' (hs.upper.trans_lt (by decide))

/-- **The counter is the first free block of the map.** -/
theorem balloc_disk (hs : s.Ok) (hlt : s.freeblock < sb.size) :
    Fs.balloc sb s.disk = .ok (UInt32.ofNat s.freeblock, s.next.disk) := by
  have hfind : freeBlock sb s.disk = some s.freeblock := by
    rw [freeBlock, List.find?_range_eq_some]
    refine ⟨?_, List.mem_range.mpr hlt, fun j hj => ?_⟩
    · simp [hs.marked_disk hlt]
    · simp [hs.marked_disk (hj.trans hlt), hj]
  rw [balloc_some hfind, hs.next_disk hlt]

theorem balloc_disk_full (hs : s.Ok) (hge : sb.size ≤ s.freeblock) :
    Fs.balloc sb s.disk = .error noBlocks := by
  refine balloc_none (List.find?_eq_none.mpr fun b hb => ?_)
  have hb := List.mem_range.mp hb
  simp [hs.marked_disk hb, hb.trans_le hge]

end Images

/-! ### The blocks of a file -/

section Rules

variable {E : Stop → Prop} {s : Image} {din : Dinode}

theorem wp_rsect {sec : ℕ} {Q : Block → Image → Prop} (hok : sec < s.length → Q (s.sectors sec) s)
    (hend : s.length ≤ sec → E (.exit 1)) : wp (rsect sec) E Q s := by
  rw [rsect, wp_bind, wp_get, wp_ite]
  exact ⟨hok, fun h => hend (not_lt.mp h)⟩

@[simp] theorem wp_wsect (sec : ℕ) (buf : Block) (Q : Unit → Image → Prop) :
    wp (wsect sec buf) E Q s ↔ Q () (s.put sec buf) := Iff.rfl

@[simp] theorem wp_nextBlock (Q : UInt32 → Image → Prop) :
    wp nextBlock E Q s ↔ Q (UInt32.ofNat s.freeblock) s.next := Iff.rfl

theorem Image.Ok.slot_lt (hs : s.Ok) (ho : Owns sb s.disk din) {i : ℕ}
    (hi : slot s.disk din i ≠ 0) : (slot s.disk din i).toNat < s.freeblock := by
  have hm := ho.slot_marked i hi
  rwa [hs.marked_disk (ho.range i hi).2, decide_eq_true_iff] at hm

theorem addr_setAddr_self {i : ℕ} (hi : i ≤ ndirect) (x : UInt32) :
    (din.setAddr i x).addr i = x := by
  rw [Dinode.addr_setAddr (by rw [ndirect] at hi; omega), if_pos rfl]

/-- The next block is one of the image, or it lies behind the end. -/
theorem freeblock_cases (hs : s.Ok) : s.freeblock < sb.size ∨ s.freeblock = sb.size :=
  lt_or_eq_of_le hs.upper

/-- The indirect block is the one that the kernel would load or allocate; where there is no
block left, its address lies behind the end of the image. -/
theorem wp_indirectOf {Q : Dinode → Image → Prop} (hs : s.Ok) (ho : Owns sb s.disk din)
    (hok : ∀ din' s', loadIndirect sb din s.disk = .ok (din', s'.disk) → s'.Ok →
      s'.freeinode = s.freeinode → din'.addr ndirect ≠ 0 →
      sb.nmeta ≤ (din'.addr ndirect).toNat → (din'.addr ndirect).toNat < s'.freeblock → Q din' s')
    (hout : loadIndirect sb din s.disk = .error noBlocks → ∀ din' s',
      sb.size ≤ (din'.addr ndirect).toNat → s'.length = sb.size → Q din' s') :
    wp (indirectOf din) E Q s := by
  rw [loadIndirect] at hok hout
  rw [indirectOf]
  by_cases h0 : din.addr ndirect = 0
  · rw [if_pos h0] at hok hout ⊢
    rw [wp_bind, wp_nextBlock, wp_pure]
    rcases freeblock_cases hs with hlt | hfull
    · rw [bind_of_ok (balloc_disk hs hlt)] at hok
      refine hok _ _ rfl (hs.next hlt) rfl ?_ ?_ ?_
      · rw [addr_setAddr_self le_rfl]
        have hge : sb.nmeta ≤ (UInt32.ofNat s.freeblock).toNat := by
          rw [toNat_ofNat_freeblock hs]
          exact hs.lower
        exact ne_zero_of_nmeta_le hge
      · rw [addr_setAddr_self le_rfl, toNat_ofNat_freeblock hs]
        exact hs.lower
      · rw [addr_setAddr_self le_rfl, toNat_ofNat_freeblock hs]
        exact Nat.lt_succ_self _
    · refine hout (bind_of_error (balloc_disk_full hs hfull.ge) _) _ _ ?_ hs.length
      rw [addr_setAddr_self le_rfl, toNat_ofNat_freeblock hs, hfull]
  · rw [if_neg h0] at hok hout ⊢
    have hslot : slot s.disk din ndirect ≠ 0 := by rwa [slot_direct le_rfl]
    have hlt := hs.slot_lt ho hslot
    have hge := (ho.range _ hslot).1
    rw [slot_direct le_rfl] at hlt hge
    exact hok din s rfl hs rfl h0 hge hlt

/-- The address is the one that `bmap` of the kernel finds; where there is no block left, it
lies behind the end of the image. -/
theorem wp_blockOf {fbn : ℕ} {Q : UInt32 × Dinode → Image → Prop} (hs : s.Ok)
    (ho : Owns sb s.disk din) (hfbn : fbn < maxfile)
    (hok : ∀ x din' s', bmap sb din fbn s.disk = .ok ((x, din'), s'.disk) → s'.Ok →
      s'.freeinode = s.freeinode → Q (x, din') s')
    (hout : bmap sb din fbn s.disk = .error noBlocks → E (.exit 1) ∧
      ∀ x din' s', sb.size ≤ x.toNat → s'.length = sb.size → Q (x, din') s') :
    wp (blockOf din fbn) E Q s := by
  rw [bmap] at hok hout
  rw [blockOf]
  by_cases hdir : fbn < ndirect
  · -- a direct block
    rw [if_pos hdir] at hok hout ⊢
    by_cases h0 : din.addr fbn = 0
    · rw [if_pos h0] at hok hout ⊢
      rw [wp_bind, wp_nextBlock, wp_pure]
      rcases freeblock_cases hs with hlt | hfull
      · rw [bind_of_ok (balloc_disk hs hlt)] at hok
        exact hok _ _ _ rfl (hs.next hlt) rfl
      · refine (hout (bind_of_error (balloc_disk_full hs hfull.ge) _)).2 _ _ _ ?_ hs.length
        rw [toNat_ofNat_freeblock hs, hfull]
    · rw [if_neg h0] at hok ⊢
      exact hok _ _ s rfl hs rfl
  · have hj : fbn - ndirect < nindirect := by
      rw [maxfile] at hfbn
      rw [ndirect, nindirect]
      omega
    -- a block behind the indirect one, which may have to be allocated first
    rw [if_neg hdir, if_pos hj] at hok hout
    rw [if_neg hdir, wp_bind]
    refine wp_indirectOf hs ho (fun din₁ s₁ hload hs₁ hfi hind hge hlt => ?_)
      fun hload din₁ s₁ hbig hlen => ?_
    · have hne := ne_bmapstart_of_le hge
      have hread : s₁.sectors (din₁.addr ndirect).toNat = s₁.disk (din₁.addr ndirect).toNat :=
        (Image.disk_of_ne hne).symm
      rw [bind_of_ok hload, bind_of_ok (x := bread _) rfl] at hok hout
      rw [wp_bind]
      refine wp_rsect (fun _ => ?_) fun hend => ?_
      · rw [hread]
        by_cases h0 : entry (s₁.disk (din₁.addr ndirect).toNat) (fbn - ndirect) = 0
        · rw [if_pos h0] at hok hout ⊢
          rw [wp_bind, wp_nextBlock, wp_bind, wp_wsect, wp_pure]
          rcases freeblock_cases hs₁ with hlt₁ | hfull
          · rw [bind_of_ok (balloc_disk hs₁ hlt₁)] at hok
            refine hok _ _ _ ?_ ((hs₁.next hlt₁).put (Nat.lt_succ_of_lt hlt) _) hfi
            rw [Image.put_disk hne]
            rfl
          · refine (hout (bind_of_error (balloc_disk_full hs₁ hfull.ge) _)).2 _ _ _ ?_ ?_
            · rw [toNat_ofNat_freeblock hs₁, hfull]
            · refine (max_eq_left ?_).trans hs₁.length
              rw [Image.next, hs₁.length]
              exact hlt.trans_le hs₁.upper
        · rw [if_neg h0] at hok ⊢
          exact hok _ _ s₁ rfl hs₁ hfi
      · rw [hs₁.length] at hend
        exact absurd (hlt.trans_le hs₁.upper) (not_lt.mpr hend)
    · -- the indirect block lies behind the end, and cannot be read
      have hexit := (hout (bind_of_error hload _)).1
      rw [wp_bind]
      exact wp_rsect (fun hlt => absurd hlt (by rw [hlen]; exact not_lt.mpr hbig)) fun _ => hexit

/-- What `bmap` leaves. -/
theorem bmap_spec {d d' : Disk} {fbn : ℕ} {x : UInt32} {din' : Dinode} (ho : Owns sb d din)
    (hfbn : fbn < maxfile) (h : bmap sb din fbn d = .ok ((x, din'), d')) :
    x ≠ 0 ∧ slot d' din' (slotOf fbn) = x ∧ Owns sb d' din' := by
  have hwp : wp (bmap sb din fbn) (fun _ => True)
      (fun r d' => r.1 ≠ 0 ∧ slot d' r.2 (slotOf fbn) = r.1 ∧ Owns sb d' r.2) d :=
    wp_bmap (S := {slotOf fbn, ndirect}) sb_layout ⟨ho, Or.inl trivial⟩ hfbn
      (Finset.mem_insert_self _ _)
      (fun _ => Finset.mem_insert_of_mem (Finset.mem_singleton_self _))
      fun a d' ip' ha hslot _ hg _ _ _ => ⟨ha, hslot, hg.owns⟩
  exact wp_ok hwp h

/-- The source of a write, behind its first piece. -/
theorem getD_drop_src (p : List UInt8) (m : ℕ) :
    (fun k => (p.drop m).getD k 0) = fun k => p.getD (m + k) 0 := by
  funext k
  rw [List.getD_eq_getElem?_getD, List.getElem?_drop, List.getD_eq_getElem?_getD]

theorem take_eq_map_src {p : List UInt8} {m : ℕ} (hm : m ≤ p.length) :
    p.take m = (List.range m).map fun k => p.getD k 0 := by
  refine List.ext_getElem (by simp [hm]) fun k hk hk' => ?_
  rw [List.length_map, List.length_range] at hk'
  rw [List.getElem_take, List.getElem_map, List.getElem_range,
    List.getD_eq_getElem _ _ (hk'.trans_le hm)]

/-- **The loop of `iappend` is the loop of `writei`**: it gives out the same blocks and writes
the same bytes; where the kernel has no block left it reads behind the end of the image. -/
theorem wp_appendLoop (n : ℕ) : ∀ {s : Image} {din : Dinode} {off : ℕ} {p : List UInt8}
    {Q : Dinode × ℕ → Image → Prop}, p.length = n → s.Ok → Owns sb s.disk din →
      off ≤ maxfile * bsize →
      (∀ din' s', writeLoop sb din (fun k => p.getD k 0) off n s.disk = .ok (din', s'.disk) →
        s'.Ok → s'.freeinode = s.freeinode → off + n ≤ maxfile * bsize → Q (din', off + n) s') →
      (writeLoop sb din (fun k => p.getD k 0) off n s.disk = .error noBlocks → E (.exit 1)) →
      (maxfile * bsize < off + n → E .abort) →
      wp (appendLoop din off p) E Q s := by
  -- on the bytes that remain: each round writes what fits into one block
  induction n using Nat.strong_induction_on with
  | _ n ih =>
    intro s din off p Q hn hs ho hoff hok hout hbig
    rw [writeLoop] at hok hout
    rw [appendLoop, hn]
    by_cases h0 : n = 0
    · rw [if_pos h0] at hok ⊢
      have hQ := hok din s rfl hs rfl (by omega)
      rwa [h0] at hQ
    rw [if_neg h0] at hok hout ⊢
    by_cases hfbn : off / bsize < maxfile
    · have hmod : off % bsize < bsize := Nat.mod_lt _ (by decide)
      have hpiece : (off / bsize + 1) * bsize - off = bsize - off % bsize := by
        rw [bsize]
        omega
      have hrest : off - off / bsize * bsize = off % bsize := by
        rw [bsize]
        omega
      rw [if_pos hfbn, hpiece, hrest, wp_bind]
      generalize hm : min n (bsize - off % bsize) = m at hok hout ⊢
      have hnext : off + m ≤ maxfile * bsize := by
        rw [maxfile, bsize] at *
        omega
      refine wp_blockOf hs ho hfbn (fun x din₁ s₁ hb hs₁ hfi₁ => ?_) fun hb => ?_
      · obtain ⟨hx, hslot, ho₁⟩ := bmap_spec ho hfbn hb
        have hslot0 : slot s₁.disk din₁ (slotOf (off / bsize)) ≠ 0 := by rwa [hslot]
        have hlt := hs₁.slot_lt ho₁ hslot0
        have hne := ne_bmapstart_of_le (ho₁.range _ hslot0).1
        rw [hslot] at hlt hne
        rw [bind_of_ok hb] at hok hout
        dsimp only at hok hout ⊢
        rw [bind_of_ok (x := bread _) rfl, bind_of_ok (x := logWrite _ _) rfl] at hok hout
        rw [wp_bind]
        refine wp_rsect (fun _ => ?_) fun hend => ?_
        · rw [wp_bind, wp_wsect, ← Image.disk_of_ne hne, take_eq_map_src (by omega)]
          generalize patch (s₁.disk x.toNat) (off % bsize)
            ((List.range m).map fun k => p.getD k 0) = data at hok hout ⊢
          have hput : (s₁.put x.toNat data).disk = Function.update s₁.disk x.toNat data :=
            Image.put_disk hne data
          have ho₂ : Owns sb (s₁.put x.toNat data).disk din₁ := by
            rw [hput, ← hslot]
            exact ho₁.congr sb_layout (slot_update_block ho₁ (slotOf_ne _) hslot0 data)
              fun b hb => marked_update_block ho₁ hslot0 data hb
          refine ih (n - m) (by omega) (by rw [List.length_drop, hn]) (hs₁.put hlt data) ho₂
            hnext (fun din' s' hw hs' hfi' hle => ?_) (fun hw => hout ?_)
            fun hbig' => hbig (by omega)
          · rw [hput, getD_drop_src] at hw
            have hsum : off + m + (n - m) = off + n := by omega
            rw [hsum] at hle ⊢
            exact hok din' s' hw hs' (hfi'.trans hfi₁) hle
          · rwa [hput, getD_drop_src] at hw
        · rw [hs₁.length] at hend
          exact absurd (hlt.trans_le hs₁.upper) (not_lt.mpr hend)
      · -- there is no block left
        rw [bind_of_error hb] at hout
        refine ⟨hout rfl, fun x din₁ s₁ hx hlen => ?_⟩
        dsimp only
        rw [wp_bind]
        exact wp_rsect (fun hlt => absurd hlt (by rw [hlen]; exact not_lt.mpr hx)) fun _ => hout rfl
    · rw [if_neg hfbn]
      refine hbig ?_
      rw [bsize, maxfile] at *
      omega

end Rules

end Mkfs
end Xv6

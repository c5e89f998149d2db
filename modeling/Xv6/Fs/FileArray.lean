import Xv6.Fs.FileData

/-!
# A file is an array of bytes

What a file is for, and that `readi` and `writei` provide it: any sequence of reads and
writes of a file has the results that it has on a list of bytes, and no other file is
changed.

* `FileOp` — the calls; `FileOp.flat`, `flatRun` — what they do to a list of bytes.
* `Apart` — an inode has no block in common with the one that is written.
* `FileOk` — what is assumed of the file.
* `wp_fileOp` — one call.
* `file_refines_array` — **a file is an array of bytes**.
-/

namespace Xv6
namespace Fs

open Prog

/-! ### The array -/

/-- A call on a file; `src` is the memory that is written from. -/
inductive FileOp
  | read (off n : UInt32)
  | write (src : ℕ → UInt8) (off n : UInt32)

namespace FileOp

/-- The write is one that changes the array. -/
def Writes (c : List UInt8) : FileOp → Prop
  | read _ _ => False
  | write _ off n => off.toNat ≤ c.length ∧ off.toNat + n.toNat < 2 ^ 32 ∧
      off.toNat + n.toNat ≤ maxfile * bsize

instance (c : List UInt8) : (op : FileOp) → Decidable (op.Writes c)
  | read _ _ => inferInstanceAs (Decidable False)
  | write _ _ _ => inferInstanceAs (Decidable (_ ∧ _ ∧ _))

/-- The result of a call on an array, the bytes read, and the array after it. -/
def flat (c : List UInt8) : FileOp → (ℤ × List UInt8) × List UInt8
  | read off n =>
      if off.toNat ≤ c.length ∧ off.toNat + n.toNat < 2 ^ 32 then
        ((((c.drop off.toNat).take n.toNat).length, (c.drop off.toNat).take n.toNat), c)
      else
        ((-1, []), c)
  | write src off n =>
      if (write src off n).Writes c then
        ((n.toNat, []), c.take off.toNat ++ (List.range n.toNat).map src ++
          c.drop (off.toNat + n.toNat))
      else
        ((-1, []), c)

/-- The call on an inode. -/
def exec (sb : Superblock) (dev : Devsw) (inum : ℕ) (ip : Dinode) :
    FileOp → DiskProg ((ℤ × List UInt8) × Dinode)
  | read off n => do
      let (r, bs, ip) ← readi sb dev ip off n
      return ((r, bs), ip)
  | write src off n => do
      let (r, ip) ← writei sb dev inum ip src off n
      return ((r, []), ip)

end FileOp

/-- The results of some calls on an array, and the array after them. -/
def flatRun : List FileOp → List UInt8 → List (ℤ × List UInt8) × List UInt8
  | [], c => ([], c)
  | op :: ops, c =>
      let (r, c) := op.flat c
      let (rs, c) := flatRun ops c
      (r :: rs, c)

/-- The results of some calls on an inode, and the inode after them. -/
def execRun (sb : Superblock) (dev : Devsw) (inum : ℕ) :
    List FileOp → Dinode → DiskProg (List (ℤ × List UInt8) × Dinode)
  | [], ip => return ([], ip)
  | op :: ops, ip => do
      let (r, ip) ← op.exec sb dev inum ip
      let (rs, ip) ← execRun sb dev inum ops ip
      return (r :: rs, ip)

theorem FileOp.length_flat (op : FileOp) (c : List UInt8) : c.length ≤ (op.flat c).2.length := by
  cases op with
  | read off n =>
    rw [flat]
    split
    · exact le_rfl
    · exact le_rfl
  | write src off n =>
    rw [flat]
    split
    · simp only [List.length_append, List.length_take, List.length_map, List.length_range,
        List.length_drop]
      omega
    · exact le_rfl

theorem length_flatRun (ops : List FileOp) (c : List UInt8) :
    c.length ≤ (flatRun ops c).2.length := by
  induction ops generalizing c with
  | nil => exact le_rfl
  | cons op ops ih => exact (op.length_flat c).trans (ih _)

/-! ### Other files -/

/-- The blocks of `q` are in the data area, marked, and not blocks of `ip`. -/
def Apart (sb : Superblock) (d : Disk) (ip q : Dinode) : Prop :=
  ∀ i, slot d q i ≠ 0 → (sb.nmeta ≤ (slot d q i).toNat ∧ (slot d q i).toNat < sb.size) ∧
    marked sb d (slot d q i).toNat = true ∧ ∀ j, slot d ip j ≠ slot d q i

/-- The file `ip`, which is the inode `inum`, is no device, its blocks are there, pairwise
different, and not shared with any other inode. -/
structure FileOk (sb : Superblock) (inum : ℕ) (d : Disk) (ip : Dinode) : Prop where
  type : ip.type ≠ tDev
  owns : Owns sb d ip
  covered : Covered d ip 0 ip.size.toNat
  apart : ∀ j < sb.ninodes, j ≠ inum → (dinode sb d j).type ≠ 0 → Apart sb d ip (dinode sb d j)

section Frame

variable {sb : Superblock} {d d' : Disk} {ip ip' q : Dinode}

theorem Grows.block_apart (h : Grows sb d ip d' ip') (hq : Apart sb d ip q) {i : ℕ}
    (hi : slot d q i ≠ 0) : d' (slot d q i).toNat = d (slot d q i).toNat := by
  obtain ⟨hrange, hmarked, hne⟩ := hq i hi
  exact h.frame _ hrange.2 (Or.inr hrange.1) hmarked
    fun j _ heq => hne j (UInt32.toNat_inj.mp heq)

theorem Grows.slot_apart (h : Grows sb d ip d' ip') (hq : Apart sb d ip q) (i : ℕ) :
    slot d' q i = slot d q i := by
  refine slot_congr (fun hind => ?_) i
  have hslot : slot d q ndirect = q.addr ndirect := slot_direct le_rfl
  rw [← hslot]
  exact h.block_apart hq (by rwa [hslot])

theorem Layout.boot_lt (hl : Layout sb) : 0 < sb.bmapstart :=
  hl.boot.trans_le ((Nat.le_add_right _ _).trans hl.inodes)

theorem UInt32.toNat_ne_zero {a : UInt32} (h : a ≠ 0) : a.toNat ≠ 0 := fun h0 =>
  h (UInt32.toNat_inj.mp h0)

/-- **The content of another inode is not changed.** -/
theorem Grows.byte_apart (h : Grows sb d ip d' ip') (hl : Layout sb) (ho : Owns sb d ip)
    (hq : Apart sb d ip q) (i : ℕ) : byte d' q i = byte d q i := by
  rw [byte, byte, h.slot_apart hq]
  by_cases hi : slot d q (slotOf (i / bsize)) = 0
  · -- a hole is read from the boot block
    rw [hi, UInt32.toNat_zero, h.frame 0 (sb.nmeta_pos.trans_le hl.data) (Or.inl hl.boot_lt)
      (ho.meta_marked 0 sb.nmeta_pos) fun j hj => UInt32.toNat_ne_zero hj]
  · rw [h.block_apart hq hi]

theorem Grows.apart (h : Grows sb d ip d' ip') (hq : Apart sb d ip q) : Apart sb d' ip' q := by
  intro i hi
  rw [h.slot_apart hq] at hi ⊢
  obtain ⟨hrange, hmarked, hne⟩ := hq i hi
  refine ⟨hrange, (h.bits _ hrange.2).mpr (Or.inl hmarked), fun j hj => ?_⟩
  by_cases hj0 : slot d ip j = 0
  · have hfree := h.fresh j hj0 (hj ▸ hi)
    rw [hj, hmarked] at hfree
    exact Bool.noConfusion hfree
  · rw [h.keep j hj0] at hj
    exact hne j hj

/-- Two other inodes. -/
theorem Grows.apart_others {r : Dinode} (h : Grows sb d ip d' ip') (hq : Apart sb d ip q)
    (hr : Apart sb d ip r) (hqr : Apart sb d q r) : Apart sb d' q r := fun i hi => by
  obtain ⟨hrange, hmarked, -⟩ := h.apart hr i hi
  refine ⟨hrange, hmarked, fun j => ?_⟩
  rw [h.slot_apart hr] at hi ⊢
  rw [h.slot_apart hq]
  exact (hqr i hi).2.2 j

theorem Apart.symm (h : Apart sb d ip q) (ho : Owns sb d ip) : Apart sb d q ip :=
  fun i hi => ⟨ho.range i hi, ho.slot_marked i hi, fun j hj => by
    have hj0 : slot d q j ≠ 0 := by rwa [hj]
    exact (h j hj0).2.2 i hj.symm⟩

/-- The inodes on the disk are not changed. -/
theorem Grows.dinode (h : Grows sb d ip d' ip') (hl : Layout sb) (ho : Owns sb d ip) {j : ℕ}
    (hj : j < sb.ninodes) : dinode sb d' j = dinode sb d j := by
  have hlt := hl.iblock_lt hj
  have hmeta : sb.iblock j < sb.nmeta := hlt.trans sb.bmapstart_lt_nmeta
  rw [Fs.dinode, h.frame _ (hmeta.trans_le hl.data) (Or.inl hlt) (ho.meta_marked _ hmeta),
    Fs.dinode]
  exact fun i hi heq => absurd (ho.range i hi).1 (by omega)

/-- An inode whose blocks are not inode blocks, when an inode is written. -/
theorem slot_putDinode (hl : Layout sb) {inum : ℕ} (hinum : inum < sb.ninodes) (x : Dinode)
    (hq : slot d q ndirect ≠ 0 → sb.nmeta ≤ (slot d q ndirect).toNat) (i : ℕ) :
    slot (putDinode sb d inum x) q i = slot d q i := by
  refine slot_congr (fun hind => putDinode_of_ne ?_ x) i
  rw [slot_direct le_rfl] at hq
  exact ((hl.iblock_lt hinum).trans (sb.bmapstart_lt_nmeta.trans_le (hq hind))).ne'

theorem byte_putDinode (hl : Layout sb) {inum : ℕ} (hinum : inum < sb.ninodes) (x : Dinode)
    (hq : ∀ i, slot d q i ≠ 0 → sb.nmeta ≤ (slot d q i).toNat) (i : ℕ) :
    byte (putDinode sb d inum x) q i = byte d q i := by
  rw [byte, byte, slot_putDinode hl hinum x (hq _), putDinode_of_ne]
  by_cases hi : slot d q (slotOf (i / bsize)) = 0
  · rw [hi]
    exact (hl.iblock_pos inum).ne
  · exact ((hl.iblock_lt hinum).trans (sb.bmapstart_lt_nmeta.trans_le (hq _ hi))).ne'

/-- The inode of a file is written with a new size: the blocks of the file stay as they are. -/
theorem Owns.resized {ip x : Dinode} (ho : Owns sb d ip) (hl : Layout sb) {inum : ℕ}
    (hinum : inum < sb.ninodes) (hx : x.addrs = ip.addrs) :
    (∀ i, slot (putDinode sb d inum x) x i = slot d ip i) ∧
      (∀ b < sb.size, marked sb (putDinode sb d inum x) b = marked sb d b) ∧
      ∀ i, byte (putDinode sb d inum x) x i = byte d ip i := by
  have hrange := fun i hi => (ho.range i hi).1
  refine ⟨fun i => ?_, fun b hb => marked_putDinode hl hinum hb x, fun i => ?_⟩
  · rw [slot_addrs_congr hx]
    exact slot_putDinode hl hinum x (hrange _) i
  · rw [← byte_putDinode hl hinum x hrange, byte, byte, slot_addrs_congr hx]

end Frame

/-! ### One call -/

/-- The other inodes are the same, and so are their contents. -/
def Kept (sb : Superblock) (inum : ℕ) (d d' : Disk) : Prop :=
  ∀ j < sb.ninodes, j ≠ inum → dinode sb d' j = dinode sb d j ∧
    ((dinode sb d j).type ≠ 0 → contents d' (dinode sb d j) = contents d (dinode sb d j))

section Calls

variable {E : Stop → Prop} {S : Finset ℕ} {sb : Superblock} {dev : Devsw} {d d' : Disk}
  {ip ip' : Dinode} {inum : ℕ}

theorem Kept.refl (sb : Superblock) (inum : ℕ) (d : Disk) : Kept sb inum d d :=
  fun _ _ _ => ⟨rfl, fun _ => rfl⟩

theorem Kept.trans {d'' : Disk} (h : Kept sb inum d d') (h' : Kept sb inum d' d'') :
    Kept sb inum d d'' := fun j hj hne => by
  obtain ⟨h₁, h₂⟩ := h j hj hne
  have h' := h' j hj hne
  rw [h₁] at h'
  exact ⟨h'.1, fun htype => (h'.2 htype).trans (h₂ htype)⟩

theorem FileOk.grows_kept (hl : Layout sb) (hok : FileOk sb inum d ip) (h : Grows sb d ip d' ip') :
    Kept sb inum d d' := fun j hj hne => by
  refine ⟨h.dinode hl hok.owns hj, fun htype => List.map_congr_left fun i _ => ?_⟩
  exact h.byte_apart hl hok.owns (hok.apart j hj hne htype) i

theorem FileOk.putDinode_kept (hl : Layout sb) (hinum : inum < sb.ninodes)
    (hok : FileOk sb inum d ip) (x : Dinode) : Kept sb inum d (putDinode sb d inum x) :=
  fun j hj hne => by
    refine ⟨by rw [dinode_putDinode, if_neg hne], fun htype => ?_⟩
    exact List.map_congr_left fun i _ => byte_putDinode hl hinum x
      (fun k hk => (hok.apart j hj hne htype k hk).1.1) i

/-- The file after blocks of it were allocated and written. -/
theorem FileOk.grows (hl : Layout sb) (hok : FileOk sb inum d ip) (h : Grows sb d ip d' ip')
    (ho' : Owns sb d' ip') (hcov : Covered d' ip' 0 ip'.size.toNat) : FileOk sb inum d' ip' where
  type := by
    rw [h.fields]
    exact hok.type
  owns := ho'
  covered := hcov
  apart := fun j hj hne htype => by
    rw [h.dinode hl hok.owns hj] at htype ⊢
    exact h.apart (hok.apart j hj hne htype)

/-- The file after its inode is written, with another size. -/
theorem FileOk.putDinode (hl : Layout sb) (hinum : inum < sb.ninodes) (hok : FileOk sb inum d ip)
    {size : UInt32} (hcov : Covered d ip 0 size.toNat) (x : Dinode) :
    FileOk sb inum (putDinode sb d inum x) { ip with size := size } := by
  have hbits := fun b hb => marked_putDinode (d := d) hl hinum (b := b) hb x
  have hslot : ∀ i, slot (Fs.putDinode sb d inum x) { ip with size := size } i = slot d ip i :=
    fun i => (slot_addrs_congr (by rfl) i).trans
      (slot_putDinode hl hinum x (fun h0 => (hok.owns.range _ h0).1) i)
  refine ⟨hok.type, hok.owns.congr hl hslot hbits, fun i hi hi' => ?_, fun j hj hne htype => ?_⟩
  · rw [hslot]
    exact hcov i hi hi'
  · rw [dinode_putDinode, if_neg hne] at htype ⊢
    have hq := hok.apart j hj hne htype
    intro i hi
    have hslotq := slot_putDinode hl hinum x (fun h0 => (hq _ h0).1.1) (d := d)
    rw [hslotq] at hi ⊢
    obtain ⟨hrange, hmarked, hdiff⟩ := hq i hi
    refine ⟨hrange, by rw [hbits _ hrange.2, hmarked], fun k => ?_⟩
    rw [hslot]
    exact hdiff k

/-- The bytes after a write are those of the array after it. -/
theorem contents_of_patched {src : ℕ → UInt8} {off n : ℕ} (hoff : off ≤ ip.size.toNat)
    (hsize : ip'.size.toNat = max ip.size.toNat (off + n))
    (h : Patched d ip src off n d' ip') :
    contents d' ip' = (contents d ip).take off ++ (List.range n).map src ++
      (contents d ip).drop (off + n) := by
  refine List.ext_getElem ?_ fun i hi hi' => ?_
  · simp only [List.length_append, List.length_take, List.length_map, List.length_range,
      List.length_drop, length_contents, hsize]
    omega
  · rw [length_contents] at hi
    rw [getElem_contents, h i (by omega)]
    rcases Nat.lt_or_ge i off with hio | hio
    · rw [if_neg (by omega), List.getElem_append_left (by simp; omega),
        List.getElem_append_left (by simp; omega), List.getElem_take, getElem_contents]
    · rcases Nat.lt_or_ge i (off + n) with hin | hin
      · rw [if_pos ⟨hio, hin⟩, List.getElem_append_left (by simp; omega),
          List.getElem_append_right (by simp; omega), List.getElem_map, List.getElem_range]
        congr 1
        simp only [List.length_take, length_contents]
        omega
      · rw [if_neg (by omega), List.getElem_append_right (by simp; omega), List.getElem_drop,
          getElem_contents]
        congr 1
        simp only [List.length_append, List.length_take, length_contents, List.length_map,
          List.length_range]
        omega

/-- The file `ip'` on `d'` holds `c'` after calls on the file `ip` on `d`. -/
structure Refines (sb : Superblock) (inum : ℕ) (d d' : Disk) (ip' : Dinode) (c' : List UInt8) :
    Prop where
  contents : contents d' ip' = c'
  ok : FileOk sb inum d' ip'
  kept : Kept sb inum d d'

theorem accepts_iff_contents {off n : UInt32} : Accepts ip off n ↔
    off.toNat ≤ (contents d ip).length ∧ off.toNat + n.toNat < 2 ^ 32 := by
  rw [length_contents, Accepts]

theorem writes_iff_acceptsWrite {src : ℕ → UInt8} {off n : UInt32} :
    (FileOp.write src off n).Writes (contents d ip) ↔ AcceptsWrite ip off n := by
  rw [FileOp.Writes, length_contents, AcceptsWrite]
  refine and_congr Iff.rfl ⟨fun h => h.2, fun h => ⟨h.trans_lt ?_, h⟩⟩
  rw [maxfile, bsize]
  omega

/-- **One call** has the result that it has on the array of bytes; one that does not write
changes nothing. -/
theorem wp_fileOp (dev : Devsw) (hl : Layout sb) (hinum : inum < sb.ninodes)
    (hok : FileOk sb inum d ip) {len : ℕ} (he : Enough (E noBlocks) sb d ip (needed len))
    (op : FileOp) (hlen : (op.flat (contents d ip)).2.length ≤ len) :
    wp (op.exec sb dev inum ip) E (fun r d' => r.1 = (op.flat (contents d ip)).1 ∧
      Refines sb inum d d' r.2 (op.flat (contents d ip)).2 ∧
      Enough (E noBlocks) sb d' r.2 (needed len) ∧
      (¬op.Writes (contents d ip) → r.2 = ip ∧ d' = d)) d := by
  have hstay : Refines sb inum d d ip (contents d ip) := ⟨rfl, hok, Kept.refl sb inum d⟩
  cases op with
  | read off n =>
    rw [FileOp.exec, wp_bind]
    refine wp_readi hok.type hok.covered (fun hbad => ?_) fun hacc => ?_
    · rw [FileOp.flat, if_neg (fun h => hbad (accepts_iff_contents.mpr h))]
      exact ⟨rfl, hstay, he, fun _ => ⟨rfl, rfl⟩⟩
    · rw [FileOp.flat, if_pos (accepts_iff_contents.mp hacc)]
      exact ⟨rfl, hstay, he, fun _ => ⟨rfl, rfl⟩⟩
  | write src off n =>
    rw [FileOp.flat] at hlen ⊢
    rw [FileOp.exec, wp_bind]
    refine wp_writei hl hok.type ⟨hok.owns, he⟩ hok.covered (fun hacc => needed_mono ?_)
      (fun hbad => ?_) (fun hacc hle d' hgr hg' hpatched => ?_)
      fun hacc hsum hlt d' ip' hgr hg' hcov' hpatched => ?_
    · rw [if_pos (writes_iff_acceptsWrite.mpr hacc)] at hlen
      simp only [List.length_append, List.length_take, List.length_map, List.length_range,
        List.length_drop, length_contents] at hlen
      have := hacc.1
      omega
    · rw [if_neg (fun h => hbad (writes_iff_acceptsWrite.mp h))]
      exact ⟨rfl, hstay, he, fun _ => ⟨rfl, rfl⟩⟩
    · -- the write ends within the file
      have hw : (FileOp.write src off n).Writes (contents d ip) :=
        writes_iff_acceptsWrite.mpr hacc
      rw [if_pos hw]
      have hcov' : Covered d' ip 0 ip.size.toNat := fun i hi hi' => by
        have h0 := hok.covered i hi hi'
        rwa [hgr.keep _ h0]
      exact ⟨rfl, ⟨contents_of_patched hacc.1 (max_eq_left hle).symm hpatched,
        hok.grows hl hgr hg'.owns hcov', hok.grows_kept hl hgr⟩, hg'.enough, absurd hw⟩
    · -- the file grows, and its inode is written with the new size
      have hw : (FileOp.write src off n).Writes (contents d ip) :=
        writes_iff_acceptsWrite.mpr hacc
      rw [if_pos hw]
      have hsize : ip'.size = ip.size := by rw [hgr.fields]
      have hok' : FileOk sb inum d' ip' := hok.grows hl hgr hg'.owns fun i hi hi' =>
        hcov' i hi (by rw [hsize] at hi'; omega)
      set x : Dinode := { ip' with size := off + n } with hx
      obtain ⟨hslot, hbits, hbyte⟩ := hg'.owns.resized (x := x) hl hinum rfl
      refine ⟨rfl, ⟨contents_of_patched hacc.1
        (hsum.trans (max_eq_right hlt.le).symm) fun i hi => ?_,
        hok'.putDinode hl hinum hcov' x, (hok.grows_kept hl hgr).trans
          (hok'.putDinode_kept hl hinum x)⟩, hg'.enough.congr hslot hbits, absurd hw⟩
      rw [hbyte, hpatched i hi]

/-- The type of an inode is not written. -/
theorem wp_writei_type (hl : Layout sb) (hok : FileOk sb inum d ip) {len : ℕ}
    (he : Enough (E noBlocks) sb d ip (needed len)) {src : ℕ → UInt8} {off n : UInt32}
    (hlen : max ip.size.toNat (off.toNat + n.toNat) ≤ len) :
    wp (writei sb dev inum ip src off n) E (fun r _ => r.2.type = ip.type) d := by
  refine wp_writei hl hok.type ⟨hok.owns, he⟩ hok.covered (fun _ => needed_mono hlen) (fun _ => rfl)
    (fun _ _ _ _ _ _ => rfl) fun _ _ _ d' ip' hgr _ _ _ => ?_
  have hfields := congrArg Dinode.type hgr.fields
  exact hfields

/-- A sequence of calls has the results that it has on the array. -/
theorem wp_execRun (hl : Layout sb) (hinum : inum < sb.ninodes) {len : ℕ} :
    ∀ (ops : List FileOp) {d : Disk} {ip : Dinode}, FileOk sb inum d ip →
      Enough (E noBlocks) sb d ip (needed len) → (flatRun ops (contents d ip)).2.length ≤ len →
      wp (execRun sb dev inum ops ip) E (fun r d' => r.1 = (flatRun ops (contents d ip)).1 ∧
        Refines sb inum d d' r.2 (flatRun ops (contents d ip)).2 ∧
        ((∀ op ∈ ops, ¬op.Writes (contents d ip)) → r.2 = ip ∧ d' = d)) d := by
  intro ops
  induction ops with
  | nil =>
    intro d ip hok he _
    exact ⟨rfl, ⟨rfl, hok, Kept.refl sb inum d⟩, fun _ => ⟨rfl, rfl⟩⟩
  | cons op ops ih =>
    intro d ip hok he hlen
    rw [execRun, wp_bind]
    have hlen₁ : (op.flat (contents d ip)).2.length ≤ len :=
      (length_flatRun ops _).trans hlen
    refine wp_imp (wp_fileOp dev hl hinum hok he op hlen₁) ?_
    rintro ⟨r, ip₁⟩ d₁ ⟨hr, href, he₁, hnone⟩
    have hc : contents d₁ ip₁ = (op.flat (contents d ip)).2 := href.contents
    rw [wp_bind]
    refine wp_imp (ih href.ok he₁ (by rw [hc]; exact hlen)) ?_
    rintro ⟨rs, ip'⟩ d' ⟨hrs, href', hnone'⟩
    rw [hc] at hrs href'
    refine ⟨?_, ⟨href'.contents, href'.ok, href.kept.trans href'.kept⟩, fun hall => ?_⟩
    · rw [flatRun]
      exact congrArg₂ List.cons hr hrs
    · obtain ⟨hip₁, hd₁⟩ := hnone (hall op List.mem_cons_self)
      dsimp only at hip₁ hnone'
      rw [hip₁, hd₁] at hnone'
      exact hnone' fun op' hop' => hall op' (List.mem_cons_of_mem _ hop')

end Calls

/-- A disk of ten blocks, of which five are data blocks. -/
def tinySb : Superblock := ⟨10, 5, 8, 0, 2, 2, 4⟩

/-- The disk on which all data blocks are free. -/
def tinyDisk : Disk := fun b => if b = 4 then Bytes.patch zeroBlock 0 [0x1f] else zeroBlock

theorem tinySb_layout : Layout tinySb := ⟨by decide, by decide, by decide, by decide, by decide⟩

/-- An empty file on this disk. -/
theorem fileOk_tinyDisk : FileOk tinySb 1 tinyDisk (Dinode.blank tFile 0) := by
  have hslot : ∀ i, slot tinyDisk (Dinode.blank tFile 0) i = 0 := slot_blank _ _
  refine ⟨by decide, ⟨by decide +kernel, fun i h => absurd (hslot i) h,
    fun i h => absurd (hslot i) h, fun i _ h => absurd (hslot i) h⟩,
    fun i _ hi => absurd hi (by simp [Dinode.blank]), ?_⟩
  have hzero : ∀ j < tinySb.ninodes, (dinode tinySb tinyDisk j).type = 0 := by
    decide +kernel
  exact fun j hj _ h => absurd (hzero j hj) h

end Fs
end Xv6

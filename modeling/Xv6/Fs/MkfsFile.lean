import Xv6.Fs.MkfsAppend

/-!
# Files that mkfs writes are read by the kernel

A file that `iappend` of `mkfs` writes in pieces of any length is the file that `readi` of
the kernel reads.

* `FileIs` — an inode of the disk holds a file.
* `wp_iappend` — one call of `iappend`.
* `readi_of_iappend` — **the kernel reads what mkfs has written**.
-/

namespace Xv6
namespace Mkfs

open Fs Prog Bytes

/-- The inode `inum` on the disk holds the bytes `c`; behind them its last block is zero, and
it has no other blocks. -/
structure FileIs (d : Disk) (inum : ℕ) (c : List UInt8) : Prop where
  owns : Owns sb d (dinode sb d inum)
  covered : Covered d (dinode sb d inum) 0 (dinode sb d inum).size.toNat
  contents : contents d (dinode sb d inum) = c
  tail : ∀ i, (dinode sb d inum).size.toNat ≤ i →
    slot d (dinode sb d inum) (slotOf (i / bsize)) ≠ 0 → byte d (dinode sb d inum) i = 0
  exact : ∀ b, (dinode sb d inum).size.toNat ≤ b * bsize →
    slot d (dinode sb d inum) (slotOf b) = 0

section Rules

variable {E : Stop → Prop} {s : Image} {din : Dinode} {inum : ℕ}

theorem iblock_ne_bmapstart (hinum : inum < sb.ninodes) : sb.iblock inum ≠ sb.bmapstart :=
  (sb_layout.iblock_lt hinum).ne

theorem iblock_lt_nmeta (hinum : inum < sb.ninodes) : sb.iblock inum < sb.nmeta :=
  (sb_layout.iblock_lt hinum).trans sb.bmapstart_lt_nmeta

theorem iblock_lt_freeblock (hs : s.Ok) (hinum : inum < sb.ninodes) :
    sb.iblock inum < s.freeblock :=
  (iblock_lt_nmeta hinum).trans_le hs.lower

theorem iblock_lt_length (hs : s.Ok) (hinum : inum < sb.ninodes) : sb.iblock inum < s.length := by
  rw [hs.length]
  exact (iblock_lt_freeblock hs hinum).trans_le hs.upper

theorem dinode_disk (hinum : inum < sb.ninodes) :
    dinode sb s.disk inum = dinode sb s.sectors inum := by
  rw [dinode, Image.disk_of_ne (iblock_ne_bmapstart hinum), dinode]

theorem wp_rinode (hs : s.Ok) (hinum : inum < sb.ninodes) {Q : Dinode → Image → Prop}
    (hQ : Q (dinode sb s.disk inum) s) : wp (rinode inum) E Q s := by
  rw [rinode, wp_bind]
  refine wp_rsect (fun _ => ?_) fun hend => ?_
  · rw [dinode_disk hinum] at hQ
    exact hQ
  · exact absurd (iblock_lt_length hs hinum) (not_lt.mpr hend)

theorem wp_winode (hs : s.Ok) (hinum : inum < sb.ninodes) {x : Dinode} {Q : Unit → Image → Prop}
    (hQ : ∀ s', s'.disk = putDinode sb s.disk inum x → s'.Ok → s'.freeinode = s.freeinode →
      s'.freeblock = s.freeblock → Q () s') :
    wp (winode inum x) E Q s := by
  rw [winode, wp_bind]
  refine wp_rsect (fun _ => ?_) fun hend => ?_
  · rw [wp_wsect]
    refine hQ _ ?_ (hs.put (iblock_lt_freeblock hs hinum) _) rfl rfl
    rw [Image.put_disk (iblock_ne_bmapstart hinum), putDinode,
      Image.disk_of_ne (iblock_ne_bmapstart hinum)]
  · exact absurd (iblock_lt_length hs hinum) (not_lt.mpr hend)

/-- What `iappend` changes: the file grows, and its inode is written. -/
def Appends (d : Disk) (inum : ℕ) (d' : Disk) : Prop :=
  ∃ d₁ din₁, Grows sb d (dinode sb d inum) d₁ din₁ ∧ Owns sb d₁ din₁ ∧
    d' = putDinode sb d₁ inum (dinode sb d' inum) ∧ (dinode sb d' inum).addrs = din₁.addrs ∧
    (dinode sb d' inum).type = (dinode sb d inum).type

/-- What the loop of `writei` does to the inode `din` when it writes `p` at the offset `off`. -/
structure Written (d : Disk) (din : Dinode) (off : ℕ) (p : List UInt8) (d' : Disk)
    (din' : Dinode) : Prop where
  grows : Grows sb d din d' din'
  covered : Covered d' din' off p.length
  bytes : ∀ i, slot d din (slotOf (i / bsize)) ≠ 0 ∨ (off ≤ i ∧ i < off + p.length) →
    byte d' din' i = if off ≤ i ∧ i < off + p.length then p.getD (i - off) 0 else byte d din i
  zero : ∀ i, slot d din (slotOf (i / bsize)) = 0 → slot d' din' (slotOf (i / bsize)) ≠ 0 →
    ¬(off ≤ i ∧ i < off + p.length) → byte d' din' i = 0
  only : ∀ b, (∀ i, off ≤ i → i < off + p.length → i / bsize ≠ b) →
    slot d' din' (slotOf b) = slot d din (slotOf b)

/-- The loop of `writei`, for a file that has blocks enough. -/
theorem wp_written {d : Disk} {p : List UInt8} {off len : ℕ} {full : Prop}
    (hg : Good full sb (needed len) d din) (hlen : off + p.length ≤ len)
    (hmax : off + p.length ≤ maxfile * bsize) :
    wp (writeLoop sb din (fun k => p.getD k 0) off p.length) (fun _ => full)
      (fun din' d' => Written d din off p d' din' ∧ Good full sb (needed len) d' din') d :=
  wp_writeLoop sb_layout _ hg hmax
    (fun _ _ hi => ⟨needed_mono hlen (slotOf_mem_needed hi hmax),
      fun h12 => needed_mono hlen (ndirect_mem_needed hi h12)⟩)
    fun _ _ hgr hg' hcov hbytes hzero honly _ => ⟨⟨hgr, hcov, hbytes, hzero, honly⟩, hg'⟩

/-- **A file that `p` has been written behind**, once its inode is written too. -/
theorem FileIs.written {d d₁ d' : Disk} {din' x : Dinode} {c p : List UInt8}
    (hf : FileIs d inum c) (hw : Written d (dinode sb d inum) c.length p d₁ din')
    (ho : Owns sb d₁ din') (hxsize : x.size.toNat = c.length + p.length)
    (hx : dinode sb d' inum = x)
    (hslot : ∀ i, slot d' x i = slot d₁ din' i)
    (hbits : ∀ b < sb.size, marked sb d' b = marked sb d₁ b)
    (hbyte : ∀ i, byte d' x i = byte d₁ din' i) : FileIs d' inum (c ++ p) := by
  have hsize : (dinode sb d inum).size.toNat = c.length := by
    rw [← hf.contents, length_contents]
  have hold : ∀ i, i < c.length → slot d (dinode sb d inum) (slotOf (i / bsize)) ≠ 0 :=
    fun i hi => hf.covered i (Nat.zero_le _) (by omega)
  have hpatched : Patched d (dinode sb d inum) (fun k => p.getD k 0) c.length p.length d' x := by
    intro i hi
    rw [hbyte]
    apply hw.bytes
    rcases Nat.lt_or_ge i c.length with hic | hic
    · exact Or.inl (hold i hic)
    · exact Or.inr (by omega)
  have hcontents : Fs.contents d' x = c ++ p := by
    rw [contents_of_patched hsize.ge (by omega) hpatched, hf.contents, List.take_length,
      ← take_eq_map_src le_rfl, List.take_length, List.drop_eq_nil_of_le (by omega),
      List.append_nil]
  subst hx
  refine ⟨ho.congr sb_layout hslot hbits, fun i _ hi => ?_, hcontents, fun i hi h0 => ?_,
    fun b hb => ?_⟩
  · -- a byte of the old file, or one of `p`
    rw [hslot]
    rcases Nat.lt_or_ge i c.length with hic | hic
    · rw [hw.grows.keep _ (hold i hic)]
      exact hold i hic
    · exact hw.covered i hic (by omega)
  · -- behind the end, in a block of the old file or in a fresh one
    rw [hslot] at h0
    rw [hbyte]
    by_cases hempty : slot d (dinode sb d inum) (slotOf (i / bsize)) = 0
    · exact hw.zero i hempty h0 (by omega)
    · rw [hw.bytes i (Or.inl hempty), if_neg (by omega)]
      exact hf.tail i (by omega) hempty
  · rw [hxsize] at hb
    rw [hslot, hw.only b fun i _ hi hib => ?_]
    · exact hf.exact b (by omega)
    · rw [← hib, bsize] at hb
      omega

/-- **The rule of `iappend`**: the file is longer by the bytes that are appended. -/
theorem wp_iappend {c p : List UInt8} {len : ℕ} {Q : Unit → Image → Prop} (hs : s.Ok)
    (hinum : inum < sb.ninodes) (hf : FileIs s.disk inum c)
    (he : Enough (E (.exit 1)) sb s.disk (dinode sb s.disk inum) (needed len))
    (hlen : c.length + p.length ≤ len)
    (hmax : c.length + p.length ≤ maxfile * bsize ∨ ∀ e, E e)
    (hQ : ∀ s', s'.Ok → s'.freeinode = s.freeinode → FileIs s'.disk inum (c ++ p) →
      Enough (E (.exit 1)) sb s'.disk (dinode sb s'.disk inum) (needed len) →
      Appends s.disk inum s'.disk → Q () s') :
    wp (iappend inum p) E Q s := by
  have hsize : (dinode sb s.disk inum).size.toNat = c.length := by
    rw [← hf.contents, length_contents]
  have hcmax : c.length ≤ maxfile * bsize := hsize ▸ hf.covered.size_le
  have hwritten := wp_written (p := p) ⟨hf.owns, he⟩ hlen
  rw [iappend, wp_bind]
  refine wp_rinode hs hinum ?_
  rw [wp_bind, hsize]
  refine wp_appendLoop _ rfl hs hf.owns hcmax (fun din' s₁ hloop hs₁ hfi hle => ?_)
    (fun hloop => ?_) fun hbig => ?_
  · obtain ⟨hw, hg⟩ := wp_ok (hwritten hle) hloop
    dsimp only
    set x : Dinode := { din' with size := UInt32.ofNat (c.length + p.length) } with hx
    refine wp_winode hs₁ hinum fun s' hdisk hs' hfi' _ => ?_
    have hxsize : x.size.toNat = c.length + p.length := UInt32.toNat_ofNat_of_lt' <| by
      refine hle.trans_lt ?_
      decide
    have hself : dinode sb s'.disk inum = x := by rw [hdisk, dinode_putDinode, if_pos rfl]
    obtain ⟨hslot, hbits, hbyte⟩ := hg.owns.resized (x := x) sb_layout hinum rfl
    rw [← hdisk] at hslot hbits hbyte
    refine hQ s' hs' (hfi'.trans hfi)
      (hf.written hw hg.owns hxsize hself hslot hbits hbyte) ?_ ?_
    · rw [hself]
      exact hg.enough.congr hslot hbits
    · refine ⟨s₁.disk, din', hw.grows, hg.owns, by rw [hself, hdisk], by rw [hself], ?_⟩
      rw [hself, hx, hw.grows.fields]
  · rcases hmax with hle | hE
    · exact wp_error (hwritten hle) hloop
    · exact hE _
  · rcases hmax with hle | hE
    · exact absurd hbig (not_lt.mpr hle)
    · exact hE _

/-- The image while a file of `len` bytes is appended: it holds the bytes `c` by now. -/
structure Appending (full : Prop) (inum : ℕ) (type : Int16) (len : ℕ) (c : List UInt8)
    (s : Image) : Prop where
  ok : s.Ok
  file : FileIs s.disk inum c
  enough : Enough full sb s.disk (dinode sb s.disk inum) (needed len)
  type : (dinode sb s.disk inum).type = type

theorem Appending.wp_iappend {c p : List UInt8} {len : ℕ} {type : Int16} (hinum : inum < sb.ninodes)
    (h : Appending (E (.exit 1)) inum type len c s) (hlen : c.length + p.length ≤ len)
    (hmax : len ≤ maxfile * bsize ∨ ∀ e, E e) :
    wp (iappend inum p) E (fun _ s' => Appending (E (.exit 1)) inum type len (c ++ p) s') s := by
  refine Mkfs.wp_iappend h.ok hinum h.file h.enough hlen (hmax.imp_left hlen.trans) ?_
  intro s' hs' _ hf' he' happ
  obtain ⟨_, _, _, _, _, _, htype⟩ := happ
  exact ⟨hs', hf', he', htype.trans h.type⟩

/-- Appending in pieces. -/
theorem Appending.wp_forM {chunks : List (List UInt8)} {type : Int16} (hinum : inum < sb.ninodes)
    (h : Appending (E (.exit 1)) inum type chunks.flatten.length [] s)
    (hmax : chunks.flatten.length ≤ maxfile * bsize ∨ ∀ e, E e) :
    wp (chunks.forM fun p => iappend inum p) E (fun _ s' =>
      Appending (E (.exit 1)) inum type chunks.flatten.length chunks.flatten s') s := by
  refine Prog.wp_forM (fun done s' =>
    Appending (E (.exit 1)) inum type chunks.flatten.length done.flatten s') chunks h ?_
  intro done p rest hl s' hs'
  have hlen : done.flatten.length + p.length ≤ chunks.flatten.length := by
    rw [hl]
    simp only [List.flatten_append, List.flatten_cons, List.length_append]
    omega
  have hflat : (done ++ [p]).flatten = done.flatten ++ p := by simp
  simp only [hflat]
  exact hs'.wp_iappend hinum hlen hmax

/-- An inode as `ialloc` leaves it. -/
theorem fileIs_fresh {d : Disk} {type : Int16} (hm : ∀ b < sb.nmeta, marked sb d b = true)
    (h : dinode sb d inum = Dinode.blank type 1) :
    FileIs d inum [] := by
  have hslot : ∀ i, slot d (dinode sb d inum) i = 0 := fun i => by
    rw [h]
    exact slot_blank _ _ i
  have hsize : (dinode sb d inum).size.toNat = 0 := by rw [h]; rfl
  refine ⟨⟨hm, fun i h => absurd (hslot i) h, fun i h => absurd (hslot i) h,
    fun i _ h => absurd (hslot i) h⟩, fun i _ hi => ?_, ?_, fun i _ h => absurd (hslot _) h,
    fun b _ => hslot _⟩
  · rw [hsize] at hi
    exact absurd hi (Nat.not_lt_zero _)
  · rw [Fs.contents, hsize]
    rfl

theorem Image.Ok.meta_marked (hs : s.Ok) : ∀ b < sb.nmeta, marked sb s.disk b = true :=
  fun b hb => by
    rw [hs.marked_disk (hb.trans_le sb_layout.data), decide_eq_true_iff]
    exact hb.trans_le hs.lower

/-- The free blocks of the map are those from the counter on. -/
theorem Image.Ok.card_free (hs : s.Ok) : (free sb s.disk).card = sb.size - s.freeblock := by
  have hfree : free sb s.disk = Finset.Ico s.freeblock sb.size := by
    ext b
    rw [free, Finset.mem_filter, Finset.mem_range, Finset.mem_Ico, and_comm]
    refine and_congr_left fun hb => ?_
    rw [hs.marked_disk hb, decide_eq_false_iff_not, not_lt]
  rw [hfree, Nat.card_Ico]

/-- A file of the image is read from any disk that is the image outside its free map. -/
theorem FileIs.readi {c : List UInt8} (hf : FileIs s.disk inum c) (hinum : inum < sb.ninodes)
    (htype : (dinode sb s.disk inum).type ≠ tDev) {d : Disk}
    (hd : ∀ b, b ≠ sb.bmapstart → d b = s.sectors b) (dev : Devsw) (off n : UInt32) :
    readi sb dev (dinode sb d inum) off n d =
      .ok ((((FileOp.read off n).flat c).1.1, ((FileOp.read off n).flat c).1.2, dinode sb d inum),
        d) := by
  have hblock : ∀ b, b ≠ sb.bmapstart → d b = s.disk b := fun b hb => by
    rw [hd b hb, Image.disk_of_ne hb]
  have hdin : dinode sb d inum = dinode sb s.disk inum := by
    rw [dinode, hblock _ (iblock_ne_bmapstart hinum), dinode]
  have hslot : ∀ i, slot d (dinode sb s.disk inum) i = slot s.disk (dinode sb s.disk inum) i := by
    refine slot_congr fun hind => hblock _ (ne_bmapstart_of_le ?_)
    have hr := hf.owns.range ndirect
    rw [slot_direct le_rfl] at hr
    exact (hr hind).1
  have hcov : Covered d (dinode sb s.disk inum) 0 (dinode sb s.disk inum).size.toNat :=
    fun i hi hi' => by
      rw [hslot]
      exact hf.covered i hi hi'
  have hcont : Fs.contents d (dinode sb s.disk inum) = c := by
    rw [← hf.contents]
    refine List.map_congr_left fun i hi => ?_
    have h0 := hf.covered i (Nat.zero_le _) (by simpa using hi)
    rw [byte, hslot, hblock _ (ne_bmapstart_of_le (hf.owns.range _ h0).1), byte]
  rw [hdin]
  refine eq_ok_of_wp (wp_readi htype hcov (fun hbad => ?_) fun hacc => ?_)
  · rw [accepts_iff_contents (d := d), hcont] at hbad
    rw [FileOp.flat, if_neg hbad]
    exact ⟨rfl, rfl⟩
  · rw [accepts_iff_contents (d := d), hcont] at hacc
    rw [FileOp.flat, if_pos hacc, hcont]
    exact ⟨rfl, rfl⟩

end Rules

/-- **The kernel reads what mkfs has written.**  A file that fits is appended to a new inode in
pieces of any length, and then every `readi` of the kernel on the image gives the bytes of the
file, up to its end, and changes nothing. -/
theorem readi_of_iappend {s : Image} {inum : ℕ} {type : Int16} (hs : s.Ok)
    (hinum : inum < sb.ninodes)
    (hnew : dinode sb s.sectors inum = Dinode.blank type 1)
    (htype : type ≠ tDev) (chunks : List (List UInt8))
    (hmax : chunks.flatten.length ≤ maxfile * bsize)
    (hfits : (needed chunks.flatten.length).card ≤ sb.size - s.freeblock) :
    ∃ s', (chunks.forM fun p => iappend inum p) s = .ok ((), s') ∧
      ∀ (dev : Devsw) (off n : UInt32), readi sb dev (dinode sb s'.sectors inum) off n s'.sectors =
        .ok ((((FileOp.read off n).flat chunks.flatten).1.1,
          ((FileOp.read off n).flat chunks.flatten).1.2, dinode sb s'.sectors inum), s'.sectors) := by
  have hnew' := (dinode_disk hinum).trans hnew
  have hf := fileIs_fresh hs.meta_marked hnew'
  have he : Enough False sb s.disk (dinode sb s.disk inum) (needed chunks.flatten.length) := by
    refine Or.inr ((Finset.card_filter_le _ _).trans ?_)
    rw [hs.card_free]
    exact hfits
  have happ : Appending False inum (dinode sb s.disk inum).type chunks.flatten.length [] s :=
    ⟨hs, hf, he, rfl⟩
  obtain ⟨⟨⟩, s', hrun, h'⟩ := exists_of_wp
    (Appending.wp_forM (E := fun _ => False) hinum happ (Or.inl hmax))
  refine ⟨s', hrun, fun dev off n => h'.file.readi hinum ?_ (fun _ _ => rfl) dev off n⟩
  rw [h'.type, hnew']
  exact htype

/-- The image with one new inode. -/
def newImage : Image where
  sectors := putDinode sb (fun _ => zeroBlock) 1 (Dinode.blank tFile 1)
  length := 1000
  freeinode := 2
  freeblock := 59

/-- A file in two pieces. -/
theorem readi_of_iappend_hello : ∃ s',
    ([[0x68, 0x65], [0x6c, 0x6c, 0x6f]].forM fun p => iappend 1 p) newImage = .ok ((), s') ∧
      readi sb ⟨fun _ => none, fun _ => none⟩ (dinode sb s'.sectors 1) 1 9 s'.sectors =
        .ok ((4, [0x65, 0x6c, 0x6c, 0x6f], dinode sb s'.sectors 1), s'.sectors) := by
  have hnew : dinode sb newImage.sectors 1 = Dinode.blank tFile 1 := by
    rw [newImage, dinode_putDinode, if_pos rfl]
  have hok : newImage.Ok := by
    refine ⟨rfl, by decide, by decide, fun b hb => ?_⟩
    have hlt : sb.iblock 1 < b := lt_of_lt_of_le (by decide) hb
    change putDinode sb (fun _ => zeroBlock) 1 (Dinode.blank tFile 1) b = zeroBlock
    rw [putDinode_of_ne hlt.ne']
  obtain ⟨s', hrun, hread⟩ := readi_of_iappend hok (by decide) hnew (by decide)
    [[0x68, 0x65], [0x6c, 0x6c, 0x6f]] (by decide) (by decide)
  exact ⟨s', hrun, hread ⟨fun _ => none, fun _ => none⟩ 1 9⟩

end Mkfs
end Xv6

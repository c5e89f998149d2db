import Xv6.Fs.MkfsFile

/-!
# The image that mkfs leaves

The inodes of the image hold files that have no block in common, from the root directory on.

* `main_freeinode` — the inodes that are used, for any arguments.
* `Inodes`, `Holds`, `Building` — the inodes of an image that is being built.
* `wp_main` — **what `main` leaves**.
-/

namespace Xv6
namespace Mkfs

open Fs Prog Bytes

/-! ### The inodes that are used -/

section Freeinode

variable {n : ℕ} {s : Image}

theorem wp_rsect_any {sec : ℕ} {Q : Block → Image → Prop} (h : ∀ b, Q b s) :
    wp (rsect sec) (fun _ => True) Q s := wp_rsect (fun _ => h _) fun _ => trivial

theorem winode_freeinode (inum : ℕ) (x : Dinode) (h : s.freeinode = n) :
    wp (winode inum x) (fun _ => True) (fun _ s' => s'.freeinode = n) s := by
  rw [winode, wp_bind]
  exact wp_rsect_any fun _ => h

theorem blockOf_freeinode (din : Dinode) (fbn : ℕ) (h : s.freeinode = n) :
    wp (blockOf din fbn) (fun _ => True) (fun _ s' => s'.freeinode = n) s := by
  have hind : wp (indirectOf din) (fun _ => True) (fun _ s' => s'.freeinode = n) s := by
    rw [indirectOf, wp_ite]
    exact ⟨fun _ => h, fun _ => h⟩
  rw [blockOf, wp_ite]
  refine ⟨fun _ => ?_, fun _ => ?_⟩
  · rw [wp_ite]
    exact ⟨fun _ => h, fun _ => h⟩
  · rw [wp_bind]
    refine wp_imp hind fun din' s' hs' => ?_
    rw [wp_bind]
    refine wp_rsect_any fun b => ?_
    rw [wp_ite]
    exact ⟨fun _ => hs', fun _ => hs'⟩

theorem appendLoop_freeinode (k : ℕ) : ∀ {s : Image} (din : Dinode) (off : ℕ) {p : List UInt8},
    p.length = k → s.freeinode = n →
      wp (appendLoop din off p) (fun _ => True) (fun _ s' => s'.freeinode = n) s := by
  induction k using Nat.strong_induction_on with
  | _ k ih =>
    intro s din off p hk h
    rw [appendLoop, hk]
    by_cases h0 : k = 0
    · rw [if_pos h0]
      exact h
    rw [if_neg h0, wp_ite]
    refine ⟨fun _ => ?_, fun _ => trivial⟩
    rw [wp_bind]
    refine wp_imp (blockOf_freeinode din _ h) ?_
    rintro ⟨x, din'⟩ s' hs'
    dsimp only
    rw [wp_bind]
    refine wp_rsect_any fun b => ?_
    rw [wp_bind, wp_wsect]
    refine ih _ ?_ din' _ (List.length_drop) hs'
    rw [bsize]
    omega

theorem iappend_freeinode (inum : ℕ) (p : List UInt8) (h : s.freeinode = n) :
    wp (iappend inum p) (fun _ => True) (fun _ s' => s'.freeinode = n) s := by
  rw [iappend, wp_bind, rinode, wp_bind]
  refine wp_rsect_any fun b => ?_
  rw [wp_pure, wp_bind]
  refine wp_imp (appendLoop_freeinode _ _ _ rfl h) ?_
  rintro ⟨din, off⟩ s' hs'
  exact winode_freeinode _ _ hs'

theorem ialloc_freeinode (type : Int16) (h : s.freeinode = n) :
    wp (ialloc type) (fun _ => True) (fun _ s' => s'.freeinode = n + 1) s := by
  rw [ialloc, wp_bind, wp_modifyGet, wp_bind]
  refine wp_imp (winode_freeinode _ _ (n := n + 1) (by rw [← h])) fun _ s' hs' => hs'

theorem addFile_freeinode (rootino : ℕ) (f : Input) (h : s.freeinode = n) :
    wp (addFile rootino f) (fun _ => True) (fun _ s' => s'.freeinode = n + 1) s := by
  rw [addFile, wp_ite]
  refine ⟨fun _ => trivial, fun _ => ?_⟩
  cases f.reads with
  | none => trivial
  | some reads =>
    simp only [wp_bind]
    refine wp_imp (ialloc_freeinode tFile h) fun inum s₁ h₁ => ?_
    refine wp_imp (iappend_freeinode _ _ h₁) fun _ s₂ h₂ => ?_
    exact wp_forM (fun _ (s' : Image) => s'.freeinode = n + 1) reads h₂
      fun _ p _ _ s' hs' => iappend_freeinode inum p hs'

theorem zeroes_freeinode (k : ℕ) (h : s.freeinode = n) :
    wp (zeroes k) (fun _ => True) (fun _ s' => s'.freeinode = n) s := by
  rw [zeroes]
  exact wp_forM (fun _ (s' : Image) => s'.freeinode = n) _ h fun _ _ _ _ _ hs' => hs'

/-- **The inodes that are used**: one for the root directory and one for each file. -/
theorem main_freeinode (files : List Input) :
    wp (main files) (fun _ => True) (fun _ s' => s'.freeinode = files.length + 2) Image.empty := by
  rw [main, wp_bind, wp_modify, wp_bind]
  have h₀ : ({ Image.empty with freeblock := sb.nmeta } : Image).freeinode = 1 := rfl
  refine wp_imp (zeroes_freeinode sb.size h₀) fun _ s₁ h₁ => ?_
  rw [wp_bind, wp_wsect, wp_bind]
  refine wp_imp (ialloc_freeinode (n := 1) tDir h₁) fun rootino s₂ h₂ => ?_
  rw [wp_ite]
  refine ⟨fun _ => ?_, fun _ => trivial⟩
  simp only [wp_bind]
  refine wp_imp (iappend_freeinode _ _ h₂) fun _ s₃ h₃ => ?_
  refine wp_imp (iappend_freeinode _ _ h₃) fun _ s₄ h₄ => ?_
  refine wp_imp (wp_forM (fun done (s' : Image) => s'.freeinode = done.length + 2) files h₄
    fun done f _ _ s' hs' => ?_) fun _ s₅ h₅ => ?_
  · rw [List.length_append, List.length_singleton]
    refine wp_imp (addFile_freeinode rootino f hs') fun _ s'' hs'' => ?_
    rw [hs'']
  · rw [rinode, wp_bind]
    refine wp_rsect_any fun b => ?_
    rw [wp_pure]
    refine wp_imp (winode_freeinode _ _ h₅) fun _ s₆ h₆ => ?_
    rw [wp_get, balloc, wp_ite]
    exact ⟨fun _ => h₆, fun _ => trivial⟩

end Freeinode

/-! ### The inodes of the image -/

/-- The inodes from 1 to `n` hold files, and have no block in common. -/
structure Inodes (d : Disk) (n : ℕ) (c : ℕ → List UInt8) : Prop where
  file : ∀ i, 1 ≤ i → i < n → FileIs d i (c i)
  apart : ∀ i j, 1 ≤ i → i < n → 1 ≤ j → j < n → i ≠ j →
    Apart sb d (dinode sb d i) (dinode sb d j)

section Inodes

variable {d d' : Disk} {n inum : ℕ} {c : ℕ → List UInt8}

/-- A file on a disk where its inode, its slots and its bytes are the same. -/
theorem FileIs.congr {c : List UInt8} {i : ℕ} (hf : FileIs d i c)
    (hdin : dinode sb d' i = dinode sb d i) (ho : Owns sb d' (dinode sb d i))
    (hslot : ∀ k, slot d' (dinode sb d i) k = slot d (dinode sb d i) k)
    (hbyte : ∀ k, byte d' (dinode sb d i) k = byte d (dinode sb d i) k) : FileIs d' i c where
  owns := by rwa [hdin]
  covered := fun k hk hk' => by
    rw [hdin] at hk' ⊢
    rw [hslot]
    exact hf.covered k hk hk'
  contents := by
    rw [hdin, ← hf.contents]
    exact List.map_congr_left fun k _ => hbyte k
  tail := fun k hk h0 => by
    rw [hdin] at hk h0 ⊢
    rw [hslot] at h0
    rw [hbyte]
    exact hf.tail k hk h0
  exact := fun b hb => by
    rw [hdin] at hb ⊢
    rw [hslot]
    exact hf.exact b hb

/-- The slots of an inode whose blocks are data blocks, when an inode is written. -/
theorem FileIs.slot_putDinode {c : List UInt8} {i : ℕ} (hf : FileIs d i c)
    (hinum : inum < sb.ninodes) (x : Dinode) (k : ℕ) :
    slot (putDinode sb d inum x) (dinode sb d i) k = slot d (dinode sb d i) k :=
  Fs.slot_putDinode sb_layout hinum x (fun h0 => (hf.owns.range _ h0).1) k

/-- Another inode is written. -/
theorem FileIs.putDinode {c : List UInt8} {i : ℕ} (hf : FileIs d i c) (hinum : inum < sb.ninodes)
    (hne : i ≠ inum) (x : Dinode) : FileIs (putDinode sb d inum x) i c := by
  refine hf.congr (by rw [dinode_putDinode, if_neg hne]) ?_ (hf.slot_putDinode hinum x)
    fun k => byte_putDinode sb_layout hinum x (fun a h0 => (hf.owns.range a h0).1) k
  exact hf.owns.congr sb_layout (hf.slot_putDinode hinum x)
    fun b hb => marked_putDinode sb_layout hinum hb x

theorem apart_putDinode {i j : ℕ} {ci cj : List UInt8} (hi : FileIs d i ci) (hj : FileIs d j cj)
    (hinum : inum < sb.ninodes) (x : Dinode) (h : Apart sb d (dinode sb d i) (dinode sb d j)) :
    Apart sb (putDinode sb d inum x) (dinode sb d i) (dinode sb d j) := by
  intro a ha
  rw [hj.slot_putDinode hinum] at ha ⊢
  obtain ⟨hrange, hmarked, hne⟩ := h a ha
  refine ⟨hrange, by rw [marked_putDinode sb_layout hinum hrange.2, hmarked], fun b => ?_⟩
  rw [hi.slot_putDinode hinum]
  exact hne b

/-- A file grows: another one is the same. -/
theorem FileIs.grows {i : ℕ} {c : List UInt8} {din din' : Dinode} (hf : FileIs d i c)
    (hinum : i < sb.ninodes) (ho : Owns sb d din) (ho' : Owns sb d' din')
    (hgr : Grows sb d din d' din') (hap : Apart sb d din (dinode sb d i)) : FileIs d' i c := by
  refine hf.congr (hgr.dinode sb_layout ho hinum) ?_ (hgr.slot_apart hap)
    (hgr.byte_apart sb_layout ho hap)
  have hap' := hgr.apart hap
  have hslot := hgr.slot_apart hap
  refine ⟨ho'.meta_marked, fun k hk => (hap' k hk).1, fun k hk => (hap' k hk).2.1,
    fun k l hk hkl => ?_⟩
  rw [hslot] at hk hkl
  rw [hslot] at hkl
  exact hf.owns.inj k l hk hkl

/-- **One file grows**: the inodes still hold files and have no block in common. -/
theorem Inodes.appends (h : Inodes d n c) (hn : n ≤ sb.ninodes) (h1 : 1 ≤ inum) (hlt : inum < n)
    (happ : Appends d inum d') {c' : List UInt8} (hf' : FileIs d' inum c') :
    Inodes d' n (Function.update c inum c') := by
  obtain ⟨d₁, din₁, hgr, ho₁, hd', haddrs, -⟩ := happ
  have hinum : inum < sb.ninodes := hlt.trans_le hn
  have ho := (h.file inum h1 hlt).owns
  have hfile₁ : ∀ i, 1 ≤ i → i < n → i ≠ inum → FileIs d₁ i (c i) := fun i hi hin hne =>
    (h.file i hi hin).grows (hin.trans_le hn) ho ho₁ hgr (h.apart inum i h1 hlt hi hin hne.symm)
  have hdin₁ : ∀ i, i < n → dinode sb d₁ i = dinode sb d i := fun i hin =>
    hgr.dinode sb_layout ho (hin.trans_le hn)
  have hdin : ∀ i, i ≠ inum → dinode sb d' i = dinode sb d₁ i := fun i hne => by
    rw [hd', dinode_putDinode, if_neg hne]
  have hslot' : ∀ a, slot d' (dinode sb d' inum) a = slot d₁ din₁ a := fun a => by
    rw [slot_addrs_congr haddrs, hd']
    exact slot_putDinode sb_layout hinum _ (fun h0 => (ho₁.range _ h0).1) a
  -- the file that grew and another one
  have hapart : ∀ i, 1 ≤ i → i < n → i ≠ inum →
      Apart sb d' (dinode sb d' inum) (dinode sb d' i) := fun i hi hin hne => by
    have hap : Apart sb d₁ din₁ (dinode sb d₁ i) := by
      rw [hdin₁ i hin]
      exact hgr.apart (h.apart inum i h1 hlt hi hin hne.symm)
    intro a ha
    rw [hdin i hne, hd', (hfile₁ i hi hin hne).slot_putDinode hinum] at ha ⊢
    obtain ⟨hrange, hmarked, hdiff⟩ := hap a ha
    refine ⟨hrange, by rw [marked_putDinode sb_layout hinum hrange.2, hmarked], fun b => ?_⟩
    rw [← hd', hslot']
    exact hdiff b
  refine ⟨fun i hi hin => ?_, fun i j hi hin hj hjn hne => ?_⟩
  · by_cases hii : i = inum
    · rw [hii, Function.update_self]
      exact hf'
    · rw [Function.update_of_ne hii, hd']
      exact (hfile₁ i hi hin hii).putDinode hinum hii _
  · by_cases hii : i = inum
    · rw [hii]
      exact hapart j hj hjn fun hji => hne (hii.trans hji.symm)
    by_cases hjj : j = inum
    · rw [hjj]
      exact (hapart i hi hin hii).symm hf'.owns
    · rw [hdin i hii, hdin j hjj, hd']
      refine apart_putDinode (hfile₁ i hi hin hii) (hfile₁ j hj hjn hjj) hinum _ ?_
      rw [hdin₁ i hin, hdin₁ j hjn]
      exact hgr.apart_others (h.apart inum i h1 hlt hi hin (Ne.symm hii))
        (h.apart inum j h1 hlt hj hjn (Ne.symm hjj)) (h.apart i j hi hin hj hjn hne)

/-- A new inode. -/
theorem Inodes.ialloc (h : Inodes d n c) (hn : n < sb.ninodes)
    (hm : ∀ b < sb.nmeta, marked sb d b = true) (type : Int16) :
    Inodes (putDinode sb d n (Dinode.blank type 1)) (n + 1) (Function.update c n []) := by
  set d' := putDinode sb d n (Dinode.blank type 1) with hd'
  have hnew : dinode sb d' n = Dinode.blank type 1 := by rw [hd', dinode_putDinode, if_pos rfl]
  have hm' : ∀ b < sb.nmeta, marked sb d' b = true := fun b hb => by
    rw [hd', marked_putDinode sb_layout hn (hb.trans_le sb_layout.data), hm b hb]
  have hfile : ∀ i, 1 ≤ i → i < n → FileIs d' i (c i) := fun i hi hin =>
    (h.file i hi hin).putDinode hn hin.ne _
  have hapart : ∀ i, Apart sb d' (dinode sb d' i) (dinode sb d' n) := fun i k hk => by
    rw [hnew, slot_blank] at hk
    exact absurd rfl hk
  refine ⟨fun i hi hin => ?_, fun i j hi hin hj hjn hne => ?_⟩
  · rcases Nat.lt_succ_iff_lt_or_eq.mp hin with hlt | rfl
    · rw [Function.update_of_ne hlt.ne]
      exact hfile i hi hlt
    · rw [Function.update_self]
      exact fileIs_fresh hm' hnew
  · rcases Nat.lt_succ_iff_lt_or_eq.mp hjn with hjlt | rfl
    · rcases Nat.lt_succ_iff_lt_or_eq.mp hin with hilt | rfl
      · rw [hd', dinode_putDinode, if_neg hilt.ne, dinode_putDinode, if_neg hjlt.ne]
        exact apart_putDinode (h.file i hi hilt) (h.file j hj hjlt) hn _
          (h.apart i j hi hilt hj hjlt hne)
      · exact (hapart j).symm (hfile j hj hjlt).owns
    · exact hapart i

end Inodes

/-! ### Building the image -/

/-- The image with `n - 1` inodes that hold `c`. -/
structure Holds (n : ℕ) (c : ℕ → List UInt8) (s : Image) : Prop where
  ok : s.Ok
  freeinode : s.freeinode = n
  inodes : Inodes s.disk n c

section Building

variable {E : Stop → Prop} {s : Image} {n inum : ℕ} {c : ℕ → List UInt8}

/-- There is no need to ask whether the bytes fit, or they do fit. -/
def Fits (E : Stop → Prop) (s : Image) (inum len : ℕ) : Prop :=
  Enough (E (.exit 1)) sb s.disk (dinode sb s.disk inum) (needed len)

theorem Holds.wp_iappend (h : Holds n c s) (hn : n ≤ sb.ninodes) (h1 : 1 ≤ inum)
    (hlt : inum < n) {p : List UInt8} {len : ℕ} (hfits : Fits E s inum len)
    (hlen : (c inum).length + p.length ≤ len) (hmax : len ≤ maxfile * bsize ∨ ∀ e, E e) :
    wp (iappend inum p) E (fun _ s' => Holds n (Function.update c inum (c inum ++ p)) s' ∧
      Fits E s' inum len) s := by
  refine Mkfs.wp_iappend h.ok (hlt.trans_le hn) (h.inodes.file inum h1 hlt) hfits hlen
    (hmax.imp_left hlen.trans) ?_
  intro s' hs' hfi hf' hfits' happ
  exact ⟨⟨hs', hfi.trans h.freeinode, h.inodes.appends hn h1 hlt happ hf'⟩, hfits'⟩

theorem Holds.wp_ialloc (h : Holds n c s) (hn : n < sb.ninodes) (type : Int16)
    {Q : ℕ → Image → Prop}
    (hQ : ∀ s', s'.disk = putDinode sb s.disk n (Dinode.blank type 1) →
      Holds (n + 1) (Function.update c n []) s' → Q n s') :
    wp (ialloc type) E Q s := by
  rw [ialloc, wp_bind, wp_modifyGet, wp_bind, h.freeinode]
  have hok : Image.Ok { s with freeinode := n + 1 } :=
    ⟨h.ok.length, h.ok.lower, h.ok.upper, h.ok.zero⟩
  refine wp_winode hok hn fun s' hdisk hs' hfi _ => ?_
  rw [wp_pure]
  refine hQ s' hdisk ⟨hs', hfi, ?_⟩
  rw [hdisk]
  exact h.inodes.ialloc hn h.ok.meta_marked type

theorem fits_of_putDinode {s' : Image} {x : Dinode} {len : ℕ}
    (hs : s'.disk = putDinode sb s.disk n x) (hn : n < sb.ninodes) (hne : inum ≠ n)
    {c : List UInt8} (hf : FileIs s.disk inum c) (h : Fits E s inum len) : Fits E s' inum len := by
  have hdin : dinode sb s'.disk inum = dinode sb s.disk inum := by
    rw [hs, dinode_putDinode, if_neg hne]
  rw [Fits, hdin, hs]
  exact h.congr (hf.slot_putDinode hn x) fun b hb => marked_putDinode sb_layout hn hb x

/-- The entries of the root directory. -/
def rootEntries (files : List Input) : List Dirent :=
  ⟨1, [0x2e]⟩ :: ⟨1, [0x2e, 0x2e]⟩ :: files.mapIdx fun k f => ⟨k + 2, f.stored⟩

def rootBytes (files : List Input) : List UInt8 := (rootEntries files).flatMap Dirent.encode

theorem length_rootBytes (files : List Input) :
    (rootBytes files).length = direntSize * (files.length + 2) := by
  rw [rootBytes, length_flatMap_encode, rootEntries]
  simp

theorem rootBytes_append (files : List Input) (f : Input) :
    rootBytes (files ++ [f]) = rootBytes files ++ Dirent.encode ⟨files.length + 2, f.stored⟩ := by
  simp [rootBytes, rootEntries, List.mapIdx_append]

/-- The image after some of the files. -/
def Building (E : Stop → Prop) (len : ℕ) (done : List Input) (s : Image) : Prop :=
  ∃ c, Holds (done.length + 2) c s ∧ c 1 = rootBytes done ∧ Fits E s 1 len

/-- The pieces of one file. -/
theorem Holds.wp_forM (h : Holds n c s) (hn : n ≤ sb.ninodes) (h1 : 1 < inum) (hlt : inum < n)
    (hE : ∀ e, E e) (reads : List (List UInt8)) :
    wp (reads.forM fun buf => iappend inum buf) E
      (fun _ s' => ∃ c', Holds n c' s' ∧ c' 1 = c 1) s := by
  refine Prog.wp_forM (fun _ s' => ∃ c', Holds n c' s' ∧ c' 1 = c 1) reads ⟨c, h, rfl⟩ ?_
  rintro _ p _ _ s' ⟨c', h', hc'⟩
  refine wp_imp (h'.wp_iappend hn h1.le hlt (Or.inl (hE _)) le_rfl (Or.inr hE)) ?_
  rintro _ s'' ⟨h'', -⟩
  exact ⟨_, h'', by rw [Function.update_of_ne h1.ne, hc']⟩

/-- An argument that is an empty file. -/
def Input.Empty (f : Input) : Prop := 0x2f ∉ f.name ∧ f.reads = some []

/-- One round of the loop of `main`. -/
theorem wp_addFile {len : ℕ} {done : List Input} {f : Input} (h : Building E len done s)
    (hn : done.length + 3 ≤ sb.ninodes) (hlen : direntSize * (done.length + 3) ≤ len)
    (hmax : len ≤ maxfile * bsize) (hE : (∀ e, E e) ∨ f.Empty) :
    wp (addFile 1 f) E (fun _ s' => Building E len (done ++ [f]) s') s := by
  obtain ⟨c, hc, hroot, hfits⟩ := h
  have hlength : (done ++ [f]).length + 2 = done.length + 3 := by
    rw [List.length_append, List.length_singleton]
  have hdone : (rootBytes done).length +
      (Dirent.encode ⟨done.length + 2, f.stored⟩).length ≤ len := by
    rw [length_rootBytes, Dirent.length_encode, ← Nat.mul_succ]
    exact hlen
  rw [addFile, wp_ite]
  refine ⟨fun hslash => ?_, fun _ => ?_⟩
  · exact hE.elim (fun hE => hE _) fun hf => absurd hslash hf.1
  cases hreads : f.reads with
  | none => exact hE.elim (fun hE => hE _) fun hf => by simp [hf.2] at hreads
  | some reads =>
    dsimp only
    rw [wp_bind]
    refine hc.wp_ialloc (by omega) tFile fun s₁ hdisk h₁ => ?_
    have hfits₁ : Fits E s₁ 1 len := fits_of_putDinode hdisk (by omega) (by omega)
      (hc.inodes.file 1 le_rfl (by omega)) hfits
    have hroot₁ : Function.update c (done.length + 2) [] 1 = rootBytes done := by
      rw [Function.update_of_ne (by omega), hroot]
    rw [wp_bind]
    refine wp_imp (h₁.wp_iappend hn le_rfl (by omega) hfits₁ (by rw [hroot₁]; exact hdone)
      (Or.inl hmax)) ?_
    rintro _ s₂ ⟨h₂, hfits₂⟩
    rw [hroot₁, ← rootBytes_append] at h₂
    rcases hE with hE | hE
    · refine wp_imp (h₂.wp_forM hn (by omega) (Nat.lt_succ_self _) hE reads) ?_
      rintro _ s₃ ⟨c₃, h₃, hroot₃⟩
      exact ⟨c₃, by rwa [hlength], by rw [hroot₃, Function.update_self], Or.inl (hE _)⟩
    · obtain rfl : reads = [] := by simpa [hreads] using hE.2
      exact ⟨_, by rwa [hlength], Function.update_self _ _ _, hfits₂⟩

/-- The image is wiped. -/
theorem wp_zeroes (k : ℕ) {fi fb : ℕ} (hs : s = ⟨fun _ => zeroBlock, 0, fi, fb⟩) :
    wp (zeroes k) E (fun _ s' => s' = ⟨fun _ => zeroBlock, k, fi, fb⟩) s := by
  rw [zeroes]
  have h := wp_forM (E := E) (f := fun i => wsect i zeroBlock)
    (fun done s' => s' = ⟨fun _ => zeroBlock, done.length, fi, fb⟩) (List.range k) hs ?_
  · rw [List.length_range] at h
    exact h
  · rintro done i rest hl s' rfl
    have hi : i = done.length := by
      have hget := List.getElem_of_append hl rfl
      simpa using hget.symm
    rw [wp_wsect, Image.put, hi, List.length_append, List.length_singleton,
      Function.update_eq_self_iff.mpr rfl, max_eq_right (Nat.le_succ _)]

/-- What `main` leaves: the free map is in its place, and the size of the root directory is
rounded up. -/
structure Made (files : List Input) (s₀ s : Image) (c : ℕ → List UInt8) : Prop where
  holds : Holds (files.length + 2) c s₀
  root : c 1 = rootBytes files
  sectors : s.sectors = putDinode sb s₀.disk 1 { dinode sb s₀.disk 1 with
    size := UInt32.ofNat ((direntSize * (files.length + 2) / bsize + 1) * bsize) }
  freeblock : s.freeblock = s₀.freeblock
  freeinode : s.freeinode = files.length + 2

theorem card_needed_le (len : ℕ) : (needed len).card ≤ 141 :=
  (Finset.card_filter_le _ _).trans (Finset.card_range _).le

/-- **The rule of `main`**, for files for which there are inodes. -/
theorem wp_main (files : List Input) (hn : files.length + 2 ≤ sb.ninodes)
    (hE : (∀ e, E e) ∨ ∀ f ∈ files, f.Empty) :
    wp (main files) E (fun _ s => ∃ s₀ c, Made files s₀ s c) Image.empty := by
  have hn200 : files.length + 2 ≤ 200 := hn
  have hmax : direntSize * (files.length + 2) ≤ maxfile * bsize := by
    rw [direntSize, maxfile, bsize]
    omega
  rw [main, wp_bind, wp_modify, wp_bind]
  -- the image of zeros, and its superblock
  refine wp_imp (wp_zeroes sb.size rfl) fun _ s₁ hs₁ => ?_
  have hok₁ : s₁.Ok := by
    rw [hs₁]
    exact ⟨rfl, le_rfl, sb_layout.data, fun _ _ => rfl⟩
  rw [wp_bind, wp_wsect, wp_bind]
  have hok₂ : (s₁.put 1 (patch zeroBlock 0 sbBytes)).Ok :=
    hok₁.put (lt_of_lt_of_le (by decide) hok₁.lower) _
  generalize hs₂ : s₁.put 1 (patch zeroBlock 0 sbBytes) = s₂ at hok₂ ⊢
  have hfi₂ : s₂.freeinode = 1 := by rw [← hs₂, hs₁]; rfl
  have hfb₂ : s₂.freeblock = sb.nmeta := by rw [← hs₂, hs₁]; rfl
  have hholds₂ : Holds 1 (fun _ => []) s₂ := ⟨hok₂, hfi₂,
    ⟨fun i hi hi' => absurd hi' (by omega), fun i j hi hi' => absurd hi' (by omega)⟩⟩
  -- the root directory, with its first two entries
  refine hholds₂.wp_ialloc (by decide) tDir fun s₃ hdisk₃ h₃ => ?_
  have hfits₃ : Fits E s₃ 1 (direntSize * (files.length + 2)) := by
    refine Or.inr ((Finset.card_filter_le _ _).trans ((card_needed_le _).trans ?_))
    have hfree : free sb s₃.disk = free sb s₂.disk := Finset.filter_congr fun b hb => by
      rw [hdisk₃, marked_putDinode sb_layout (by decide) (Finset.mem_range.mp hb)]
    rw [hfree, hok₂.card_free, hfb₂]
    decide
  rw [if_pos rfl, wp_bind]
  refine wp_imp (h₃.wp_iappend (by decide) le_rfl (by decide) hfits₃ ?_ (Or.inl hmax)) ?_
  · rw [Function.update_self, Dirent.length_encode, List.length_nil]
    exact Nat.le_mul_of_pos_right _ (by omega) |>.trans' (by simp)
  rintro _ s₄ ⟨h₄, hfits₄⟩
  rw [Function.update_self, List.nil_append] at h₄
  rw [wp_bind]
  refine wp_imp (h₄.wp_iappend (by decide) le_rfl (by decide) hfits₄ ?_ (Or.inl hmax)) ?_
  · rw [Function.update_self, Dirent.length_encode, Dirent.length_encode, direntSize]
    omega
  rintro _ s₅ ⟨h₅, hfits₅⟩
  rw [Function.update_self] at h₅
  have hbuilding : Building E (direntSize * (files.length + 2)) [] s₅ :=
    ⟨_, h₅, by rw [Function.update_self]; rfl, hfits₅⟩
  rw [wp_bind]
  -- each file, and its entry
  refine wp_imp (Prog.wp_forM
    (fun done s' => Building E (direntSize * (files.length + 2)) done s') files hbuilding ?_) ?_
  · rintro done f rest rfl s' hs'
    rw [List.length_append, List.length_cons] at *
    refine wp_addFile hs' (by omega) (by rw [direntSize]; omega) hmax ?_
    exact hE.imp_right fun hE => hE f (List.mem_append_right _ List.mem_cons_self)
  rintro _ s₆ ⟨c, h₆, hroot, -⟩
  -- the size of the root directory is rounded up, and the bitmap is written
  rw [wp_bind]
  refine wp_rinode h₆.ok (by decide) ?_
  have hsize : (dinode sb s₆.disk 1).size.toNat = direntSize * (files.length + 2) := by
    rw [← length_rootBytes, ← hroot, ← (h₆.inodes.file 1 le_rfl (by omega)).contents,
      length_contents]
  rw [hsize]
  simp only [wp_bind]
  refine wp_winode h₆.ok (by decide) fun s₇ hdisk₇ hok₇ hfi₇ hfb₇ => ?_
  rw [wp_get, balloc, if_pos (lt_of_le_of_lt hok₇.upper (by decide)), wp_wsect]
  exact ⟨s₆, c, h₆, hroot, hdisk₇, hfb₇, hfi₇.trans h₆.freeinode⟩

end Building

end Mkfs
end Xv6

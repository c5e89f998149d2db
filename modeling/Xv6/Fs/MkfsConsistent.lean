import Xv6.Fs.MkfsImage

/-!
# When mkfs leaves a file system

The image is a consistent file system exactly if there are inodes for the files, their names
are different from each other and from `.` and `..`, and the entries of the root directory do
not fill its last block: its size is then rounded up over a block that it does not have.

* `Consistent` — what a file system is.
* `consistent_main_iff` — **when the image is one**.
-/

namespace Xv6
namespace Mkfs

open Fs Prog Bytes

/-- The inodes that were given out. -/
def Used (s : Image) (i : ℕ) : Prop := 1 ≤ i ∧ i < s.freeinode

/-- The image is a consistent file system. -/
structure Consistent (s : Image) : Prop where
  inodes : ∀ i, Used s i → i < sb.ninodes
  distinct : ∀ i j, Used s i → Used s j → ∀ a b,
    slot s.sectors (dinode sb s.sectors i) a ≠ 0 →
    slot s.sectors (dinode sb s.sectors i) a = slot s.sectors (dinode sb s.sectors j) b →
      i = j ∧ a = b
  range : ∀ i, Used s i → ∀ a, slot s.sectors (dinode sb s.sectors i) a ≠ 0 →
    sb.nmeta ≤ (slot s.sectors (dinode sb s.sectors i) a).toNat ∧
      (slot s.sectors (dinode sb s.sectors i) a).toNat < sb.size
  bitmap : ∀ b, bitAt (s.sectors sb.bmapstart) b = decide (b < s.freeblock)
  covered : ∀ i, Used s i →
    Covered s.sectors (dinode sb s.sectors i) 0 (dinode sb s.sectors i).size.toNat
  names : (names (contents s.sectors (dinode sb s.sectors 1))).Nodup

/-- The names in the root directory. -/
def rootNames (files : List Input) : List (List UInt8) :=
  [0x2e] :: [0x2e, 0x2e] :: files.map fun f => cname f.stored

section Final

variable {files : List Input} {s₀ s : Image} {c : ℕ → List UInt8}

/-- The root directory with its size rounded up. -/
def roundedRoot (s₀ : Image) (n : ℕ) : Dinode :=
  { dinode sb s₀.disk 1 with size := UInt32.ofNat ((direntSize * (n + 2) / bsize + 1) * bsize) }

theorem rootEntries_names (files : List Input) :
    ((rootEntries files).map fun de => cname de.name) = rootNames files := by
  have hmap : (files.mapIdx fun k f => (⟨k + 2, f.stored⟩ : Dirent)).map (fun de => cname de.name) =
      files.map fun f => cname f.stored := by
    refine List.ext_getElem (by simp) fun k hk hk' => ?_
    simp
  rw [rootEntries, List.map_cons, List.map_cons, hmap, rootNames]
  rfl

theorem rootEntries_inum {de : Dirent} (hn : files.length + 2 ≤ 200) (h : de ∈ rootEntries files) :
    de.inum < 2 ^ 16 ∧ de.inum ≠ 0 := by
  rw [rootEntries, List.mem_cons, List.mem_cons, List.mem_mapIdx] at h
  rcases h with rfl | rfl | ⟨k, hk, rfl⟩
  · decide
  · decide
  · dsimp only
    omega

namespace Made

theorem dinode_eq (h : Made files s₀ s c) (i : ℕ) :
    dinode sb s.sectors i = if i = 1 then roundedRoot s₀ files.length else dinode sb s₀.disk i := by
  rw [h.sectors, dinode_putDinode]
  rfl

/-- The slots are those of the image before. -/
theorem slot_eq (h : Made files s₀ s c) {i : ℕ} (hi : 1 ≤ i) (hin : i < files.length + 2) (k : ℕ) :
    slot s.sectors (dinode sb s.sectors i) k = slot s₀.disk (dinode sb s₀.disk i) k := by
  have haddrs : (dinode sb s.sectors i).addrs = (dinode sb s₀.disk i).addrs := by
    rw [h.dinode_eq]
    by_cases h1 : i = 1
    · rw [if_pos h1, h1]
      rfl
    · rw [if_neg h1]
  rw [slot_addrs_congr haddrs, h.sectors]
  exact (h.holds.inodes.file i hi hin).slot_putDinode (by decide) _ k

theorem byte_eq (h : Made files s₀ s c) (i : ℕ) :
    byte s.sectors (dinode sb s.sectors 1) i = byte s₀.disk (dinode sb s₀.disk 1) i := by
  have hf := h.holds.inodes.file 1 le_rfl (by omega)
  have h1 : 1 < sb.ninodes := by decide
  have hput := byte_putDinode sb_layout h1 (roundedRoot s₀ files.length)
    (fun k h0 => (hf.owns.range k h0).1) i
  rw [← hput, byte, byte, h.slot_eq le_rfl (by omega), hf.slot_putDinode (by decide), h.sectors]
  rfl

theorem size_eq (h : Made files s₀ s c) (hn : files.length + 2 ≤ 200) :
    (dinode sb s.sectors 1).size.toNat = (direntSize * (files.length + 2) / bsize + 1) * bsize := by
  rw [h.dinode_eq, if_pos rfl]
  refine UInt32.toNat_ofNat_of_lt' ?_
  rw [direntSize, bsize]
  have : UInt32.size = 4294967296 := rfl
  omega

/-- The size of the root directory before it is rounded up. -/
theorem root_size (h : Made files s₀ s c) :
    (dinode sb s₀.disk 1).size.toNat = direntSize * (files.length + 2) := by
  rw [← length_rootBytes, ← h.root, ← (h.holds.inodes.file 1 le_rfl (by omega)).contents,
    length_contents]

/-- **The root directory has all its blocks**, unless its entries fill the last one. -/
theorem covered_root_iff (h : Made files s₀ s c) (hn : files.length + 2 ≤ 200) :
    Covered s.sectors (dinode sb s.sectors 1) 0 (dinode sb s.sectors 1).size.toNat ↔
      (files.length + 2) % 32 ≠ 0 := by
  have hf := h.holds.inodes.file 1 le_rfl (by omega)
  have hsize := h.size_eq hn
  have hold := h.root_size
  rw [direntSize, bsize] at hsize
  rw [direntSize] at hold
  constructor
  · intro hcov hmod
    have hlt : 16 * (files.length + 2) < 0 + (dinode sb s.sectors 1).size.toNat := by omega
    refine hcov (16 * (files.length + 2)) (Nat.zero_le _) hlt ?_
    rw [h.slot_eq le_rfl (by omega)]
    refine hf.exact _ ?_
    rw [hold, bsize]
    omega
  · intro hmod i _ hi
    rw [h.slot_eq le_rfl (by omega)]
    have hdiv : i / bsize = (i / bsize * bsize) / bsize := by
      rw [Nat.mul_div_cancel _ (by decide)]
    rw [hdiv]
    refine hf.covered _ (Nat.zero_le _) ?_
    rw [hold, bsize]
    omega

/-- The names in the root directory, where it has all its blocks. -/
theorem names_root (h : Made files s₀ s c) (hn : files.length + 2 ≤ 200)
    (hmod : (files.length + 2) % 32 ≠ 0) :
    names (contents s.sectors (dinode sb s.sectors 1)) = rootNames files := by
  have hf := h.holds.inodes.file 1 le_rfl (by omega)
  have hcov := (h.covered_root_iff hn).mpr hmod
  have hsize := h.size_eq hn
  have hold := h.root_size
  obtain ⟨m, hm⟩ : ∃ m, (dinode sb s.sectors 1).size.toNat =
      direntSize * (files.length + 2) + direntSize * m := by
    refine ⟨((direntSize * (files.length + 2) / bsize + 1) * bsize) / direntSize -
      (files.length + 2), ?_⟩
    rw [hsize, direntSize, bsize]
    omega
  have hcontents : contents s.sectors (dinode sb s.sectors 1) =
      rootBytes files ++ List.replicate (direntSize * m) 0 := by
    refine List.ext_getElem ?_ fun i hi hi' => ?_
    · rw [length_contents, hm, List.length_append, List.length_replicate, length_rootBytes]
    · rw [length_contents] at hi
      rw [getElem_contents, h.byte_eq]
      rcases Nat.lt_or_ge i (rootBytes files).length with hlt | hge
      · rw [List.getElem_append_left hlt]
        have hget : (rootBytes files)[i] = byte s₀.disk (dinode sb s₀.disk 1) i := by
          simp only [← h.root, ← hf.contents, getElem_contents]
        exact hget.symm
      · rw [List.getElem_append_right hge, List.getElem_replicate]
        rw [length_rootBytes] at hge
        refine hf.tail i (by rw [hold]; exact hge) ?_
        rw [← h.slot_eq le_rfl (by omega)]
        exact hcov i (Nat.zero_le _) (by omega)
  rw [hcontents, rootBytes, names_flatMap (fun de hde => (rootEntries_inum hn hde).1)
    (fun de hde => (rootEntries_inum hn hde).2), rootEntries_names]

/-- **When the image is consistent**, for files for which there are inodes. -/
theorem consistent_iff (h : Made files s₀ s c) (hn : files.length + 2 ≤ 200) :
    Consistent s ↔ (files.length + 2) % 32 ≠ 0 ∧ (rootNames files).Nodup := by
  have hused : ∀ {i}, Used s i → 1 ≤ i ∧ i < files.length + 2 := fun hi => by
    rw [Used, h.freeinode] at hi
    exact hi
  have hroot : Used s 1 := by
    rw [Used, h.freeinode]
    omega
  have hfile := fun {i} (hi : Used s i) => h.holds.inodes.file i (hused hi).1 (hused hi).2
  have hslot := fun {i} (hi : Used s i) => h.slot_eq (hused hi).1 (hused hi).2
  constructor
  · intro hc
    have hmod := (h.covered_root_iff hn).mp (hc.covered 1 hroot)
    exact ⟨hmod, h.names_root hn hmod ▸ hc.names⟩
  · rintro ⟨hmod, hnames⟩
    refine ⟨fun i hi => (hused hi).2.trans_le hn, fun i j hi hj a b ha hab => ?_,
      fun i hi a ha => ?_, fun b => ?_, fun i hi => ?_, ?_⟩
    · rw [hslot hi] at ha hab
      rw [hslot hj] at hab
      by_cases hij : i = j
      · rw [← hij] at hab
        exact ⟨hij, (hfile hi).owns.inj a b ha hab⟩
      · have hap := h.holds.inodes.apart i j (hused hi).1 (hused hi).2 (hused hj).1 (hused hj).2 hij
        exact absurd hab ((hap b (hab ▸ ha)).2.2 a)
    · rw [hslot hi] at ha ⊢
      exact (hfile hi).owns.range a ha
    · have hok := h.holds.ok
      have h1 : 1 < sb.ninodes := by decide
      have hne := (iblock_ne_bmapstart h1).symm
      rw [h.sectors, putDinode_of_ne hne, Image.disk, Function.update_self,
        bitAt_usedMap (hok.upper.trans (by decide)), h.freeblock]
    · by_cases h1 : i = 1
      · rw [h1]
        exact (h.covered_root_iff hn).mpr hmod
      · intro k hk hk'
        rw [hslot hi]
        rw [h.dinode_eq, if_neg h1] at hk'
        exact (hfile hi).covered k hk hk'
    · rw [h.names_root hn hmod]
      exact hnames

end Made

end Final

/-- **mkfs builds a consistent image exactly if** there are inodes for the files, the root
directory with its two entries and one for each file does not fill its last block, and the
names are pairwise different. -/
theorem consistent_main_iff {files : List Input} {s : Image}
    (h : main files Image.empty = .ok ((), s)) :
    Consistent s ↔ files.length + 2 ≤ sb.ninodes ∧ (files.length + 2) % 32 ≠ 0 ∧
      (rootNames files).Nodup := by
  have hfi : s.freeinode = files.length + 2 := wp_ok (main_freeinode files) h
  have hmade : files.length + 2 ≤ sb.ninodes → ∃ s₀ c, Made files s₀ s c := fun hn =>
    wp_ok (wp_main files hn (Or.inl fun _ => trivial) (E := fun _ => True)) h
  constructor
  · intro hc
    have hn : files.length + 2 ≤ sb.ninodes := by
      have hlast := hc.inodes (files.length + 1) ⟨Nat.le_add_left _ _, by omega⟩
      exact hlast
    obtain ⟨s₀, c, hm⟩ := hmade hn
    exact ⟨hn, (hm.consistent_iff hn).mp hc⟩
  · rintro ⟨hn, hrest⟩
    obtain ⟨s₀, c, hm⟩ := hmade hn
    exact (hm.consistent_iff hn).mpr hrest

/-- One empty file. -/
theorem consistent_main_one : ∃ s, main [⟨[0x61], some []⟩] Image.empty = .ok ((), s) ∧
    Consistent s := by
  obtain ⟨⟨⟩, s, hrun, -⟩ := exists_of_wp (wp_main (E := fun _ => False) [⟨[0x61], some []⟩]
    (by decide) (Or.inr (by simp [Input.Empty])))
  exact ⟨s, hrun, (consistent_main_iff hrun).mpr (by decide)⟩

/-- Thirty empty files: with the entries `.` and `..` the root directory fills its block. -/
def thirtyFiles : List Input := (List.range 30).map fun k => ⟨[UInt8.ofNat (0x41 + k)], some []⟩

/-- The image of thirty empty files is not consistent. -/
theorem not_consistent_main_thirty : ∃ s, main thirtyFiles Image.empty = .ok ((), s) ∧
    ¬Consistent s := by
  have hempty : ∀ f ∈ thirtyFiles, f.Empty := by
    intro f hf
    obtain ⟨k, hk, rfl⟩ := List.mem_map.mp hf
    have hslash : ∀ k < 30, (0x2f : UInt8) ∉ [UInt8.ofNat (0x41 + k)] := by decide
    exact ⟨hslash k (List.mem_range.mp hk), rfl⟩
  obtain ⟨⟨⟩, s, hrun, s₀, c, hm⟩ := exists_of_wp (wp_main (E := fun _ => False) thirtyFiles
    (by decide) (Or.inr hempty))
  exact ⟨s, hrun, fun hc => ((hm.consistent_iff (by decide)).mp hc).1 (by decide)⟩

end Mkfs
end Xv6

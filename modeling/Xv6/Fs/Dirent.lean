import Xv6.Lib.Bytes

/-!
# Directory entries

A directory is a file of entries of sixteen bytes, an inode number and a name.  A name takes
`DIRSIZ` bytes, and a shorter one ends with a zero.

* `cname`, `strncpy`, `namecmp` — names in buffers of `DIRSIZ` bytes.
* `Dirent`, `direntAt`, `entries` — the entries of a directory.
* `names` — the names of the entries that are in use.
-/

namespace Xv6
namespace Fs

open Bytes

/-- `DIRSIZ` -/
def dirsiz : ℕ := 14

/-- `sizeof(struct dirent)` -/
def direntSize : ℕ := 16

/-! ### Names -/

/-- The name in a buffer: what `strncmp` and `strncpy` look at. -/
def cname (bs : List UInt8) : List UInt8 := (bs.take dirsiz).takeWhile (· ≠ 0)

/-- The buffer after `strncpy(buf, name, DIRSIZ)`. -/
def strncpy (name : List UInt8) : List UInt8 :=
  cname name ++ List.replicate (dirsiz - (cname name).length) 0

/-- `namecmp` finds no difference. -/
def namecmp (s t : List UInt8) : Bool := cname s == cname t

theorem length_cname_le (bs : List UInt8) : (cname bs).length ≤ dirsiz :=
  (List.takeWhile_sublist _).length_le.trans (List.length_take_le _ _)

@[simp] theorem length_strncpy (name : List UInt8) : (strncpy name).length = dirsiz := by
  have h := length_cname_le name
  rw [strncpy, List.length_append, List.length_replicate]
  omega

theorem ne_zero_of_mem_cname {bs : List UInt8} {x : UInt8} (h : x ∈ cname bs) : x ≠ 0 := by
  simpa using List.mem_takeWhile_imp h

@[simp] theorem cname_cname (bs : List UInt8) : cname (cname bs) = cname bs := by
  rw [cname, List.take_of_length_le (length_cname_le bs), List.takeWhile_eq_self_iff]
  exact fun x hx => decide_eq_true (ne_zero_of_mem_cname hx)

theorem takeWhile_append_zeros {l : List UInt8} (h : ∀ x ∈ l, x ≠ 0) (k : ℕ) :
    (l ++ List.replicate k 0).takeWhile (· ≠ 0) = l := by
  have hall : ∀ x ∈ l, decide (x ≠ 0) = true := fun x hx => decide_eq_true (h x hx)
  rw [List.takeWhile_append_of_pos hall]
  cases k with
  | zero => simp
  | succ k => simp [List.replicate_succ]

/-- **A name is read back as it was stored.** -/
@[simp] theorem cname_strncpy (name : List UInt8) : cname (strncpy name) = cname name := by
  have htake : (strncpy name).take dirsiz = strncpy name :=
    List.take_of_length_le (length_strncpy name).le
  rw [cname, htake, strncpy, takeWhile_append_zeros fun x hx => ne_zero_of_mem_cname hx]

/-! ### Entries -/

/-- `struct dirent`. -/
structure Dirent where
  inum : ℕ
  name : List UInt8
  deriving DecidableEq

namespace Dirent

def encode (de : Dirent) : List UInt8 := toLe 2 de.inum ++ strncpy de.name

def decode (bs : List UInt8) : Dirent := ⟨ofLe (bs.take 2), (bs.drop 2).take dirsiz⟩

@[simp] theorem length_encode (de : Dirent) : de.encode.length = direntSize := by
  rw [encode, List.length_append, length_toLe, length_strncpy]
  rfl

/-- **An entry is read back as it was written.** -/
theorem decode_encode {de : Dirent} (h : de.inum < 2 ^ 16) :
    decode de.encode = ⟨de.inum, strncpy de.name⟩ := by
  have htake : de.encode.take 2 = toLe 2 de.inum :=
    List.take_left' (length_toLe 2 de.inum)
  have hdrop : de.encode.drop 2 = strncpy de.name :=
    List.drop_left' (length_toLe 2 de.inum)
  rw [decode, htake, hdrop, ofLe_toLe 2 de.inum h, List.take_of_length_le (length_strncpy _).le]

end Dirent

/-- The entry `k` of a directory with the content `c`. -/
def direntAt (c : List UInt8) (k : ℕ) : Dirent :=
  Dirent.decode ((c.drop (direntSize * k)).take direntSize)

/-- The entries of a directory. -/
def entries (c : List UInt8) : List Dirent :=
  (List.range (c.length / direntSize)).map (direntAt c)

/-- The names of the entries that are in use. -/
def names (c : List UInt8) : List (List UInt8) :=
  ((entries c).filter fun de => de.inum ≠ 0).map fun de => cname de.name

/-! ### Stretches of a directory -/

/-- What is behind some whole entries. -/
theorem direntAt_append {a : List UInt8} (n : ℕ) (ha : a.length = direntSize * n)
    (b : List UInt8) (k : ℕ) : direntAt (a ++ b) (n + k) = direntAt b k := by
  rw [direntAt, direntAt, Nat.mul_add, ← List.drop_drop, List.drop_left' ha]

/-- The entries of two stretches of a directory. -/
theorem entries_append {a : List UInt8} (ha : direntSize ∣ a.length) (b : List UInt8) :
    entries (a ++ b) = entries a ++ entries b := by
  obtain ⟨n, ha⟩ := ha
  have hpos : 0 < direntSize := by decide
  have hlen : (a ++ b).length / direntSize = n + b.length / direntSize := by
    rw [List.length_append, ha, Nat.mul_add_div hpos]
  rw [entries, hlen, List.range_add, List.map_append, List.map_map, entries, ha,
    Nat.mul_div_cancel_left n hpos, entries]
  congr 1
  · refine List.map_congr_left fun k hk => ?_
    have hk := List.mem_range.mp hk
    rw [direntSize] at ha
    rw [direntAt, direntAt, direntSize, List.drop_append_of_le_length (by omega),
      List.take_append_of_le_length (by rw [List.length_drop]; omega)]
  · exact List.map_congr_left fun k _ => direntAt_append n ha b k

theorem length_entries (c : List UInt8) : (entries c).length = c.length / direntSize := by
  rw [entries, List.length_map, List.length_range]

theorem entries_singleton {e : List UInt8} (he : e.length = direntSize) :
    entries e = [Dirent.decode e] := by
  rw [entries, he, Nat.div_self (by decide), List.range_one, List.map_singleton, direntAt,
    Nat.mul_zero, List.drop_zero, List.take_of_length_le he.le]

/-- An entry is written. -/
theorem entries_put {c e : List UInt8} {k : ℕ} (hc : direntSize ∣ c.length)
    (hk : k ≤ (entries c).length) (he : e.length = direntSize) :
    entries (c.take (direntSize * k) ++ e ++ c.drop (direntSize * k + direntSize)) =
      (entries c).take k ++ Dirent.decode e :: (entries c).drop (k + 1) := by
  obtain ⟨n, hn⟩ := hc
  rw [length_entries, hn, Nat.mul_div_cancel_left n (by decide)] at hk
  -- the entries before and behind an offset
  have hcut : ∀ j ≤ n, entries (c.take (direntSize * j)) = (entries c).take j ∧
      entries (c.drop (direntSize * j)) = (entries c).drop j := fun j hj => by
    have hlen : (c.take (direntSize * j)).length = direntSize * j := by
      rw [List.length_take, hn, min_eq_left (Nat.mul_le_mul_left _ hj)]
    have hsplit := entries_append (Dvd.intro j hlen.symm) (c.drop (direntSize * j))
    have hj' : (entries (c.take (direntSize * j))).length = j := by
      rw [length_entries, hlen, Nat.mul_div_cancel_left j (by decide)]
    rw [List.take_append_drop] at hsplit
    rw [hsplit, List.take_left' hj', List.drop_left' hj']
    exact ⟨rfl, rfl⟩
  have hlen : (c.take (direntSize * k)).length = direntSize * k := by
    rw [List.length_take, hn, min_eq_left (Nat.mul_le_mul_left _ hk)]
  rw [List.append_assoc, entries_append (Dvd.intro k hlen.symm), entries_append (by rw [he]),
    entries_singleton he, (hcut k hk).1, ← Nat.mul_succ]
  rcases Nat.lt_or_ge k n with hlt | hge
  · rw [(hcut (k + 1) hlt).2, List.singleton_append]
  · have hdrop : c.drop (direntSize * (k + 1)) = [] := by
      rw [List.drop_eq_nil_iff, hn]
      exact Nat.mul_le_mul_left _ (hge.trans (Nat.le_succ k))
    have hdrop' : (entries c).drop (k + 1) = [] := by
      rw [List.drop_eq_nil_iff, length_entries, hn, Nat.mul_div_cancel_left n (by decide)]
      exact hge.trans (Nat.le_succ k)
    rw [hdrop, hdrop']
    rfl

/-! ### Entries one after the other -/

theorem length_flatMap_encode (es : List Dirent) :
    (es.flatMap Dirent.encode).length = direntSize * es.length := by
  induction es with
  | nil => rfl
  | cons de es ih =>
    rw [List.flatMap_cons, List.length_append, Dirent.length_encode, ih, List.length_cons]
    ring

theorem drop_flatMap_encode (es : List Dirent) (k : ℕ) (rest : List UInt8) (hk : k ≤ es.length) :
    (es.flatMap Dirent.encode ++ rest).drop (direntSize * k) =
      (es.drop k).flatMap Dirent.encode ++ rest := by
  conv_lhs => rw [← List.take_append_drop k es, List.flatMap_append, List.append_assoc]
  refine List.drop_left' ?_
  rw [length_flatMap_encode, List.length_take, min_eq_left hk]

/-- The entries of a directory that was filled from the front. -/
theorem direntAt_flatMap {es : List Dirent} {k : ℕ} (hk : k < es.length) (rest : List UInt8)
    (h : ∀ de ∈ es, de.inum < 2 ^ 16) :
    direntAt (es.flatMap Dirent.encode ++ rest) k = ⟨es[k].inum, strncpy es[k].name⟩ := by
  rw [direntAt, drop_flatMap_encode es k rest hk.le, List.drop_eq_getElem_cons hk,
    List.flatMap_cons, List.append_assoc, List.take_left' (Dirent.length_encode _),
    Dirent.decode_encode (h _ (List.getElem_mem hk))]

/-- An entry of zeros is not in use. -/
theorem inum_direntAt_zeros (n k : ℕ) : (direntAt (List.replicate n 0) k).inum = 0 := by
  rw [direntAt, List.drop_replicate, List.take_replicate, Dirent.decode, List.take_replicate,
    ofLe_replicate]

/-- The names of a directory that was filled from the front and is zero behind. -/
theorem names_flatMap {es : List Dirent} (h : ∀ de ∈ es, de.inum < 2 ^ 16)
    (h0 : ∀ de ∈ es, de.inum ≠ 0) (n : ℕ) :
    names (es.flatMap Dirent.encode ++ List.replicate (direntSize * n) 0) =
      es.map fun de => cname de.name := by
  have hlen : (es.flatMap Dirent.encode ++ List.replicate (direntSize * n) (0 : UInt8)).length /
      direntSize = es.length + n := by
    rw [List.length_append, length_flatMap_encode, List.length_replicate, ← Nat.mul_add]
    exact Nat.mul_div_cancel_left _ (by decide)
  have hfront : (List.range es.length).map
      (direntAt (es.flatMap Dirent.encode ++ List.replicate (direntSize * n) 0)) =
      es.map fun de => ⟨de.inum, strncpy de.name⟩ := by
    refine List.ext_getElem (by simp) fun k hk hk' => ?_
    rw [List.length_map] at hk'
    rw [List.getElem_map, List.getElem_range, direntAt_flatMap hk' _ h, List.getElem_map]
  have hback : ((List.range n).map fun k =>
      direntAt (es.flatMap Dirent.encode ++ List.replicate (direntSize * n) 0)
        (es.length + k)).filter (fun de => de.inum ≠ 0) = [] := by
    refine List.filter_eq_nil_iff.mpr fun de hde => ?_
    obtain ⟨k, -, rfl⟩ := List.mem_map.mp hde
    have hdrop : (es.flatMap Dirent.encode ++ List.replicate (direntSize * n) (0 : UInt8)).drop
        (direntSize * (es.length + k)) =
          (List.replicate (direntSize * n) 0).drop (direntSize * k) := by
      rw [Nat.mul_add, ← List.drop_drop, List.drop_left' (length_flatMap_encode es)]
    have hinum := inum_direntAt_zeros (direntSize * n) k
    rw [direntAt] at hinum ⊢
    rw [hdrop]
    simpa using hinum
  have hall : (es.map fun de => (⟨de.inum, strncpy de.name⟩ : Dirent)).filter
      (fun de => de.inum ≠ 0) = es.map fun de => ⟨de.inum, strncpy de.name⟩ := by
    refine List.filter_eq_self.mpr fun de hde => ?_
    obtain ⟨de', hmem, rfl⟩ := List.mem_map.mp hde
    simpa using h0 de' hmem
  rw [names, entries, hlen, List.range_add, List.map_append, List.map_map, List.filter_append]
  rw [show (direntAt (es.flatMap Dirent.encode ++ List.replicate (direntSize * n) 0) ∘
    fun x => es.length + x) = fun k =>
      direntAt (es.flatMap Dirent.encode ++ List.replicate (direntSize * n) 0) (es.length + k)
    from rfl, hback, hfront, hall, List.append_nil, List.map_map]
  refine List.map_congr_left fun de _ => ?_
  exact cname_strncpy de.name

end Fs
end Xv6

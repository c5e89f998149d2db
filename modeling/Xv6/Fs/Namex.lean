import Xv6.Basic
import Xv6.Fs.Dirent
import Xv6.Fs.Icache

/-!
# Paths

`skipelem`, `dirlookup` and `namex` of `fs.c`.  A path is the list of its characters, without the
NUL that ends it.

## Main definitions

* `skipelem`, `dirlookup`, `namex` — the code.
* `components` — the elements of a path.
* `Tree`, `Tree.walk` — what directories are, and where a path leads.
* `IsTree` — the directories are in order.

## Main results

* `skipelem_spec` — the elements of a path are taken from it one by one.
* `wp_dirlookup` — the first entry of that name.
* `namex_walk` — **`namex` goes where the path leads**, and keeps no other reference.
-/

namespace Xv6
namespace Fs

open Prog

/-! ### The code -/

/-- The buffer `name` with the element `s` copied into it. -/
def copyelem (s name : List UInt8) : List UInt8 :=
  if dirsiz ≤ s.length then s.take dirsiz ++ name.drop dirsiz
  else s ++ 0 :: name.drop (s.length + 1)

/-- `*path != '/' && *path != 0` -/
def inElement (c : UInt8) : Bool := c ≠ '/'.toUInt8 && c ≠ 0

/-- `skipelem`: the path behind its first element, and `name`. -/
def skipelem (path name : List UInt8) : Option (List UInt8 × List UInt8) :=
  let path := path.dropWhile (· = '/'.toUInt8)
  if path.headD 0 = 0 then none
  else
    let s := path.takeWhile inElement
    let path := path.dropWhile inElement
    some (path.dropWhile (· = '/'.toUInt8), copyelem s name)

/-- The loop of `dirlookup`, where `size` is `dp->size`, which `readi` does not change. -/
def dirscan (sb : Superblock) (dev : Devsw) (dp : Slot) (name : List UInt8) (size off : ℕ) :
    IcacheProg (Option (Slot × ℕ)) := do
  if off < size then
    let ip := (← get).inode dp
    let (r, bs, dip) ← onDisk ip.ino.dev (readi sb dev ip.copy (UInt32.ofNat off) 16)
    modify fun s => s.set dp { ip with copy := dip }
    if r ≠ direntSize then
      stop (.panic "dirlookup read")
    else
      let de := Dirent.decode bs
      if de.inum ≠ 0 ∧ namecmp name de.name then
        let i ← iget ⟨ip.ino.dev, UInt32.ofNat de.inum⟩
        return some (i, off)
      else
        dirscan sb dev dp name size (off + direntSize)
  else
    return none
termination_by size - off
decreasing_by
  rw [direntSize]
  omega

/-- `dirlookup`: the inode, and the offset of its entry. -/
def dirlookup (sb : Superblock) (dev : Devsw) (dp : Slot) (name : List UInt8) :
    IcacheProg (Option (Slot × ℕ)) := do
  let ip := ((← get).inode dp).copy
  if ip.type ≠ tDir then
    stop (.panic "dirlookup not DIR")
  else
    dirscan sb dev dp name ip.size.toNat 0

theorem length_skipelem {path name path' name' : List UInt8}
    (h : skipelem path name = some (path', name')) : path'.length < path.length := by
  have hle := List.length_dropWhile_le (fun c => decide (c = '/'.toUInt8)) path
  have hnot := List.head?_dropWhile_not (fun c => decide (c = '/'.toUInt8)) path
  rw [skipelem] at h
  dsimp only at h
  generalize path.dropWhile (· = '/'.toUInt8) = p at h hle hnot
  cases p with
  | nil =>
    rw [List.headD_nil, if_pos rfl] at h
    cases h
  | cons c cs =>
    rw [List.headD_cons] at h
    split at h
    · cases h
    · next hc =>
      have hc' : c ≠ '/'.toUInt8 := of_decide_eq_false hnot
      rw [Option.some.injEq, Prod.mk.injEq] at h
      have hin : inElement c = true := by simp [inElement, hc, hc']
      rw [← h.1, List.dropWhile_cons_of_pos hin]
      rw [List.length_cons] at hle
      refine Nat.lt_of_le_of_lt ?_ hle
      exact (List.length_dropWhile_le _ _).trans (List.length_dropWhile_le _ _)

def rootdev : UInt32 := 1

def rootino : UInt32 := 1

/-- The loop of `namex`, with the inode `ip`. -/
def namexLoop (sb : Superblock) (dev : Devsw) (nameiparent : Bool) (ip : Slot)
    (path name : List UInt8) : IcacheProg (Option Slot × List UInt8) :=
  match _h : skipelem path name with
  | none => do
      if nameiparent then
        iput sb ip
        return (none, name)
      else
        return (some ip, name)
  | some (path', name') => do
      ilock sb ip
      if ((← get).inode ip).copy.type ≠ tDir then
        iunlockput sb ip
        return (none, name')
      else if nameiparent ∧ path'.headD 0 = 0 then
        iunlock ip
        return (some ip, name')
      else
        match ← dirlookup sb dev ip name' with
        | none =>
            iunlockput sb ip
            return (none, name')
        | some (next, _) =>
            iunlockput sb ip
            namexLoop sb dev nameiparent next path' name'
termination_by path.length
decreasing_by exact length_skipelem _h

/-- `namex`, for a process in the directory `cwd`: the inode, and `name`. -/
def namex (sb : Superblock) (dev : Devsw) (cwd : Slot) (path : List UInt8) (nameiparent : Bool)
    (name : List UInt8) : IcacheProg (Option Slot × List UInt8) := do
  let ip ← if path.headD 0 = '/'.toUInt8 then iget ⟨rootdev, rootino⟩ else idup cwd
  namexLoop sb dev nameiparent ip path name

/-! ### The elements of a path -/

/-- What is between the slashes, each truncated. -/
def components (path : List UInt8) : List (List UInt8) :=
  ((path.splitOn '/'.toUInt8).filter (· ≠ [])).map (·.take dirsiz)

@[simp] theorem components_nil : components [] = [] := rfl

theorem components_slash (path : List UInt8) :
    components ('/'.toUInt8 :: path) = components path := by
  have hsplit : ([] ++ '/'.toUInt8 :: path).splitOn '/'.toUInt8 =
      [] :: path.splitOn '/'.toUInt8 :=
    List.splitOn_append_cons_self_of_not_mem List.not_mem_nil path
  rw [List.nil_append] at hsplit
  rw [components, hsplit]
  rfl

theorem components_dropWhile (path : List UInt8) :
    components (path.dropWhile (· = '/'.toUInt8)) = components path := by
  induction path with
  | nil => rfl
  | cons c path ih =>
    by_cases hc : c = '/'.toUInt8
    · rw [hc, List.dropWhile_cons_of_pos (by simp), ih, components_slash]
    · rw [List.dropWhile_cons_of_neg (by simpa using hc)]

/-- The first element, and the others. -/
theorem components_append {s path : List UInt8} (hne : s ≠ []) (hs : '/'.toUInt8 ∉ s)
    (hpath : path.head?.all (· = '/'.toUInt8) = true) :
    components (s ++ path) = s.take dirsiz :: components path := by
  cases path with
  | nil => rw [List.append_nil, components, List.splitOn_eq_singleton hs]; simp [hne]
  | cons c path =>
    obtain rfl : c = '/'.toUInt8 := by simpa using hpath
    rw [components, List.splitOn_append_cons_self_of_not_mem hs, components_slash,
      List.filter_cons_of_pos (by simpa using hne), List.map_cons, components]

theorem cname_copyelem {s : List UInt8} (hs : 0 ∉ s) (name : List UInt8) :
    cname (copyelem s name) = s.take dirsiz := by
  have hne : ∀ c ∈ s, decide (c ≠ 0) = true := fun c hc =>
    decide_eq_true (ne_of_mem_of_not_mem hc hs)
  rw [cname, copyelem]
  split
  · next hlen =>
    rw [List.take_left' (by rw [List.length_take, min_eq_left hlen]), List.takeWhile_eq_self_iff]
    exact fun c hc => hne c (List.mem_of_mem_take hc)
  · next hlen =>
    obtain ⟨k, hk⟩ := Nat.exists_eq_add_of_lt (not_le.mp hlen)
    rw [hk, Nat.add_assoc, List.take_length_add_append, List.take_succ_cons,
      List.takeWhile_append_of_pos hne, List.takeWhile_cons_of_neg (by decide), List.append_nil,
      List.take_of_length_le (by omega)]

/-- The character behind those that are left out. -/
theorem all_head?_dropWhile {p q : UInt8 → Bool} {l : List UInt8}
    (h : ∀ c ∈ l, p c = false → q c = true) : (l.dropWhile p).head?.all q = true := by
  have hnot := List.head?_dropWhile_not p l
  have hsub := (List.dropWhile_sublist p (l := l)).subset
  cases hd : l.dropWhile p with
  | nil => rfl
  | cons c cs =>
    rw [hd] at hnot hsub
    exact h c (hsub List.mem_cons_self) hnot

/-- Behind the slashes, the path has ended, or there is another element. -/
theorem headD_eq_zero_iff {path : List UInt8} (hzero : 0 ∉ path)
    (hslash : path.head?.all (· ≠ '/'.toUInt8) = true) :
    path.headD 0 = 0 ↔ components path = [] := by
  cases path with
  | nil => exact iff_of_true rfl rfl
  | cons c path =>
    have hc : c ≠ '/'.toUInt8 := by simpa using hslash
    have hc0 : c ≠ 0 := ne_of_mem_of_not_mem List.mem_cons_self hzero
    refine iff_of_false hc0 ?_
    have hcut := List.takeWhile_append_dropWhile (p := (· ≠ '/'.toUInt8)) (l := path)
    rw [← hcut, ← List.cons_append, components_append (List.cons_ne_nil _ _)]
    · exact List.cons_ne_nil _ _
    · rw [List.mem_cons, not_or]
      exact ⟨hc.symm, fun h => by simpa using List.mem_takeWhile_imp h⟩
    · exact all_head?_dropWhile fun d _ hd => by simpa using hd

/-- **The first element of a path.** -/
theorem skipelem_spec {path : List UInt8} (hzero : 0 ∉ path) (name : List UInt8) :
    (skipelem path name = none ∧ components path = []) ∨
    ∃ path' name', skipelem path name = some (path', name') ∧ 0 ∉ path' ∧
      components path = cname name' :: components path' ∧
        (path'.headD 0 = 0 ↔ components path' = []) := by
  have hsub : 0 ∉ path.dropWhile (· = '/'.toUInt8) := fun hc =>
    hzero ((List.dropWhile_sublist _).subset hc)
  have hnot := List.head?_dropWhile_not (fun c => decide (c = '/'.toUInt8)) path
  rw [← components_dropWhile path, skipelem]
  dsimp only
  generalize path.dropWhile (· = '/'.toUInt8) = p at hsub hnot
  cases p with
  | nil => exact .inl ⟨rfl, rfl⟩
  | cons c cs =>
    have hc : c ≠ '/'.toUInt8 := of_decide_eq_false hnot
    have hc0 : c ≠ 0 := ne_of_mem_of_not_mem List.mem_cons_self hsub
    have hin : inElement c = true := by simp [inElement, hc, hc0]
    have hslash : ((c :: cs).dropWhile inElement).head?.all (· = '/'.toUInt8) = true :=
      all_head?_dropWhile fun d hd hnot => by
        simpa [inElement, ne_of_mem_of_not_mem hd hsub] using hnot
    have hcut := List.takeWhile_append_dropWhile (p := inElement) (l := c :: cs)
    have hs : ∀ d ∈ (c :: cs).takeWhile inElement, d ≠ '/'.toUInt8 ∧ d ≠ 0 := fun d hd => by
      simpa [inElement] using List.mem_takeWhile_imp hd
    have hne : (c :: cs).takeWhile inElement ≠ [] := by
      rw [List.takeWhile_cons_of_pos hin]
      exact List.cons_ne_nil _ _
    rw [List.headD_cons, if_neg hc0]
    generalize (c :: cs).takeWhile inElement = s at hcut hs hne
    generalize (c :: cs).dropWhile inElement = rest at hcut hslash
    rw [← hcut] at hsub ⊢
    rw [List.mem_append, not_or] at hsub
    have hzero' : 0 ∉ rest.dropWhile (· = '/'.toUInt8) := fun hmem =>
      hsub.2 ((List.dropWhile_sublist _).subset hmem)
    refine .inr ⟨_, _, rfl, hzero', ?_, ?_⟩
    · rw [components_append hne (fun h => (hs _ h).1 rfl) hslash, cname_copyelem hsub.1,
        components_dropWhile]
    · exact headD_eq_zero_iff hzero' (all_head?_dropWhile fun d _ hd => by simpa using hd)

/-! ### Where a path leads -/

/-- The types of the inodes, and their contents. -/
structure Tree where
  type : Ino → Int16
  content : Ino → List UInt8

namespace Tree

variable (t : Tree)

/-- The inode of the first entry with the name. -/
def lookup (x : Ino) (name : List UInt8) : Option Ino :=
  if t.type x = tDir then
    ((entries (t.content x)).find? fun de => de.inum ≠ 0 && namecmp name de.name).map
      fun de => ⟨x.dev, UInt32.ofNat de.inum⟩
  else none

/-- The lookups, one after the other. -/
def walk (x : Ino) (path : List (List UInt8)) : Option Ino := path.foldlM t.lookup x

/-- The directory that the last element is to be looked up in. -/
def parent (x : Ino) (path : List (List UInt8)) : Option Ino :=
  if path = [] then none else (t.walk x path.dropLast).filter fun y => t.type y = tDir

variable {t} {x : Ino} {c c' : List UInt8} {cs : List (List UInt8)}

@[simp] theorem walk_nil : t.walk x [] = some x := rfl

theorem walk_cons : t.walk x (c :: cs) = (t.lookup x c).bind fun y => t.walk y cs :=
  List.foldlM_cons

theorem lookup_cname (name : List UInt8) : t.lookup x (cname name) = t.lookup x name := by
  simp only [lookup, namecmp, cname_cname]

theorem lookup_of_ne (h : t.type x ≠ tDir) : t.lookup x c = none := if_neg h

@[simp] theorem parent_nil : t.parent x [] = none := rfl

theorem parent_singleton : t.parent x [c] = if t.type x = tDir then some x else none := by
  rw [parent, if_neg (List.cons_ne_nil _ _), List.dropLast_singleton, walk_nil]
  by_cases h : t.type x = tDir
  · rw [if_pos h, Option.filter_some, if_pos (decide_eq_true h)]
  · rw [if_neg h, Option.filter_some, if_neg (by simpa using h)]

theorem parent_cons (h : cs ≠ []) :
    t.parent x (c :: cs) = (t.lookup x c).bind fun y => t.parent y cs := by
  rw [parent, if_neg (List.cons_ne_nil _ _), List.dropLast_cons_of_ne_nil h, walk_cons]
  cases t.lookup x c with
  | none => rfl
  | some y => rw [Option.bind_some, Option.bind_some, parent, if_neg h]

/-- A path leads nowhere if the first inode is not a directory. -/
theorem parent_of_ne (h : t.type x ≠ tDir) : t.parent x (c :: cs) = none := by
  cases cs with
  | nil => rw [parent_singleton, if_neg h]
  | cons d cs => rw [parent_cons (List.cons_ne_nil _ _), lookup_of_ne h, Option.bind_none]

/-- A path leads nowhere if a lookup fails. -/
theorem walk_eq_none_iff : ∀ {x : Ino} {path : List (List UInt8)}, t.walk x path = none ↔
    ∃ pre c post y, path = pre ++ c :: post ∧ t.walk x pre = some y ∧ t.lookup y c = none := by
  intro x path
  induction path generalizing x with
  | nil => simp
  | cons c cs ih =>
    rw [walk_cons]
    cases hc : t.lookup x c with
    | none => exact iff_of_true rfl ⟨[], c, cs, x, rfl, rfl, hc⟩
    | some z =>
      rw [Option.bind_some, ih]
      constructor
      · rintro ⟨pre, c', post, y, rfl, hpre, hnone⟩
        refine ⟨c :: pre, c', post, y, rfl, ?_, hnone⟩
        rw [walk_cons, hc, Option.bind_some, hpre]
      · rintro ⟨pre, c', post, y, heq, hpre, hnone⟩
        cases pre with
        | nil =>
          obtain ⟨rfl, rfl⟩ := List.cons.inj heq
          rw [← Option.some.inj hpre, hc] at hnone
          cases hnone
        | cons d pre =>
          obtain ⟨rfl, rfl⟩ := List.cons.inj heq
          rw [walk_cons, hc, Option.bind_some] at hpre
          exact ⟨pre, c', post, y, rfl, hpre, hnone⟩

/-- A lookup fails if the inode is not a directory or has no such entry. -/
theorem lookup_eq_none_iff : t.lookup x c = none ↔ t.type x ≠ tDir ∨
    ∀ de ∈ entries (t.content x), de.inum ≠ 0 → namecmp c de.name = false := by
  rw [lookup]
  split
  · next h => simp [h]
  · next h => exact iff_of_true rfl (.inl h)

end Tree

/-- The tree of the inodes. -/
def Icache.tree (s : Icache) (inode : Ino → Dinode) : Tree where
  type x := (inode x).type
  content x := contents (s.disk x.dev) (inode x)

/-- The inodes `T` are allocated and linked, and the directories among them consist of entries
whose inodes are also in `T`. -/
structure IsTree (s : Icache) (inode : Ino → Dinode) (T : Set Ino) : Prop where
  type : ∀ x ∈ T, (inode x).type ≠ 0
  retained : ∀ x ∈ T, Retained inode s x
  covered : ∀ x ∈ T, (inode x).type = tDir →
    Covered (s.disk x.dev) (inode x) 0 (inode x).size.toNat
  whole : ∀ x ∈ T, (inode x).type = tDir → direntSize ∣ (inode x).size.toNat
  closed : ∀ x ∈ T, (inode x).type = tDir → ∀ de ∈ entries ((s.tree inode).content x),
    de.inum ≠ 0 → ⟨x.dev, UInt32.ofNat de.inum⟩ ∈ T

/-! ### The walk -/

section Walk

variable {sb : Superblock} {dev : Devsw} {inode : Ino → Dinode} {s₀ s : Icache} {T : Set Ino}
  {held : Slot → ℕ} {i : Slot} {name path : List UInt8} {E : Stop → Prop}

theorem Icache.set_self {ip : Inode} (h : ip = s.inode i) : s.set i ip = s := by
  rw [h, Icache.set, Function.update_eq_self]

section Scan

variable {x : Ino} {ip : Dinode} {c : List UInt8}

/-- The slot holds the directory `x`, with the content `c`. -/
structure Holding (s : Icache) (i : Slot) (x : Ino) (ip : Dinode) (c : List UInt8) : Prop where
  ino : (s.inode i).ino = x
  copy : (s.inode i).copy = ip
  type : ip.type = tDir
  content : contents (s.disk x.dev) ip = c
  covered : Covered (s.disk x.dev) ip 0 ip.size.toNat
  whole : direntSize ∣ ip.size.toNat

theorem Holding.size (h : Holding s i x ip c) :
    direntSize * (entries c).length = ip.size.toNat := by
  rw [length_entries, ← h.content, length_contents, Nat.mul_div_cancel' h.whole]

/-- **An entry is read.** -/
theorem wp_readEntry (h : Holding s i x ip c) {k : ℕ} (hk : k < (entries c).length)
    {Q : ℤ × List UInt8 × Dinode → Icache → Prop}
    (hQ : ∀ bs, Dirent.decode bs = (entries c)[k] → Q (direntSize, bs, ip) s) :
    wp (onDisk x.dev (readi sb dev ip (UInt32.ofNat (direntSize * k)) 16)) E Q s := by
  have hmax := h.covered.size_le
  have hsize := h.size
  have hlt := Nat.mul_le_mul_left direntSize (Nat.succ_le_of_lt hk)
  rw [maxfile, bsize] at hmax
  rw [Nat.mul_succ, hsize, direntSize] at hlt
  have hnat : (UInt32.ofNat (direntSize * k)).toNat = direntSize * k :=
    UInt32.toNat_ofNat_of_lt' (by rw [direntSize, UInt32.size]; omega)
  refine wp_onDisk_read (wp_readi (by rw [h.type]; decide) h.covered (fun hbad => ?_)
    fun _ => ⟨rfl, ?_⟩)
  · refine absurd ⟨?_, ?_⟩ hbad
    · rw [hnat, direntSize]
      omega
    · rw [hnat, direntSize, show (16 : UInt32).toNat = 16 from rfl]
      omega
  · have hbs : ((contents (s.disk x.dev) ip).drop (UInt32.ofNat (direntSize * k)).toNat).take
        (16 : UInt32).toNat = (c.drop (direntSize * k)).take direntSize := by
      rw [hnat, h.content]
      rfl
    have hread : ((c.drop (direntSize * k)).take direntSize).length = direntSize := by
      rw [List.length_take, List.length_drop, ← h.content, length_contents, direntSize]
      omega
    rw [hbs, hread]
    exact hQ _ (by simp [entries, direntAt])

/-- The entries that the loop of `dirlookup` still has to read. -/
theorem wp_dirscan {Q : Option (Slot × ℕ) → Icache → Prop} (h : Holding s i x ip c)
    (hnone : (∀ de ∈ entries c, de.inum ≠ 0 → namecmp name de.name = false) → Q none s)
    (hsome : ∀ (k : ℕ) de, (entries c)[k]? = some de →
      (entries c).find? (fun de => de.inum ≠ 0 && namecmp name de.name) = some de →
        wp (iget ⟨x.dev, UInt32.ofNat de.inum⟩) E (fun j => Q (some (j, direntSize * k))) s)
    (n : ℕ) : ∀ k, k + n = (entries c).length →
      (∀ de ∈ (entries c).take k, (de.inum ≠ 0 && namecmp name de.name) = false) →
      wp (dirscan sb dev i name ip.size.toNat (direntSize * k)) E Q s := by
  induction n with
  | zero =>
    intro k hk hfail
    have hend : ¬direntSize * k < ip.size.toNat := by
      rw [← h.size, ← hk, Nat.add_zero]
      exact lt_irrefl _
    rw [dirscan, if_neg hend, wp_pure]
    rw [List.take_of_length_le (by omega)] at hfail
    exact hnone fun de hde hinum => by simpa [hinum] using hfail de hde
  | succ n ih =>
    intro k hk hfail
    have hlt : k < (entries c).length := by omega
    have hmore : direntSize * k < ip.size.toNat := by
      rw [← h.size]
      exact Nat.mul_lt_mul_of_pos_left hlt (by decide)
    rw [dirscan, if_pos hmore, wp_bind, wp_get, wp_bind, h.ino, h.copy]
    refine wp_readEntry h hlt fun bs hbs => ?_
    dsimp only
    rw [wp_bind, wp_modify, s.set_self (by rw [← h.ino, ← h.copy]), if_neg (not_not.mpr rfl), hbs]
    have hsplit := List.take_append_drop k (entries c)
    rw [List.drop_eq_getElem_cons hlt] at hsplit
    rw [wp_ite]
    refine ⟨fun hmatch => ?_, fun hmatch => ?_⟩
    · rw [wp_bind]
      refine hsome k (entries c)[k] (List.getElem?_eq_getElem hlt) ?_
      nth_rewrite 1 [← hsplit]
      rw [List.find?_append, List.find?_eq_none.mpr fun de hde => by
        rw [hfail de hde]; decide, Option.none_or, List.find?_cons_of_pos]
      simpa using hmatch
    · rw [← Nat.mul_succ]
      refine ih (k + 1) (by omega) fun de hde => ?_
      rw [List.take_succ_eq_append_getElem hlt, List.mem_append, List.mem_singleton] at hde
      rcases hde with hde | rfl
      · exact hfail de hde
      · simpa using hmatch

end Scan

/-- **The rule of `dirlookup`.** -/
theorem wp_dirlookup {Q : Option (Slot × ℕ) → Icache → Prop} (hT : IsTree s₀ inode T)
    (h : Since sb inode s₀ held (some i) s) (hx : (s.inode i).ino ∈ T)
    (hcopy : (s.inode i).copy = inode (s.inode i).ino)
    (htype : (inode (s.inode i).ino).type = tDir)
    (hfull : (∀ j, (s.inode j).ref ≠ 0) → E noInodes)
    (hnone : (s₀.tree inode).lookup (s.inode i).ino name = none → Q none s)
    (hsome : ∀ j off s', (s₀.tree inode).lookup (s.inode i).ino name = some (s'.inode j).ino →
      (s'.inode j).ino ∈ T → Since sb inode s₀ (held + Pi.single j 1) (some i) s' →
      (∀ k, 0 < (s.inode k).ref → (s'.inode k).ino = (s.inode k).ino) → Q (some (j, off)) s') :
    wp (dirlookup sb dev i name) E Q s := by
  have hcov := hT.covered _ hx htype
  have hcontent : contents (s.disk (s.inode i).ino.dev) (inode (s.inode i).ino) =
      (s₀.tree inode).content (s.inode i).ino := by
    rw [h.disk]
    rfl
  rw [← h.disk] at hcov
  have htypes : (s₀.tree inode).type (s.inode i).ino = tDir := htype
  rw [dirlookup, wp_bind, wp_get]
  dsimp only
  rw [hcopy, if_neg (not_not.mpr htype)]
  refine wp_dirscan ⟨rfl, hcopy, htype, hcontent, hcov, hT.whole _ hx htype⟩ (fun hfail => ?_)
    (fun k de _ hde => ?_) _ 0 (Nat.zero_add _) nofun
  · exact hnone (Tree.lookup_eq_none_iff.mpr (.inr hfail))
  · refine wp_iget h hfull fun j s' h' hj hkeep => ?_
    have hinum : de.inum ≠ 0 := by
      have hmatch := List.find?_some hde
      simp only [Bool.and_eq_true, decide_eq_true_eq] at hmatch
      exact hmatch.1
    refine hsome j _ s' ?_ ?_ h' hkeep
    · rw [Tree.lookup, if_pos htypes, hde, hj]
      rfl
    · rw [hj]
      exact hT.closed _ hx htype de (List.mem_of_find?_eq_some hde) hinum

/-- There were fewer than two slots that were not in use. -/
def NoRoom (s₀ : Icache) (e : Stop) : Prop :=
  e = noInodes ∧ (Finset.univ.filter fun i => (s₀.inode i).ref = 0).card < 2

/-- An inode of which a reference is held is in use. -/
theorem Since.ref_single {lk : Option Slot} (h : Since sb inode s₀ (Pi.single i 1) lk s) :
    0 < (s.inode i).ref := by
  rw [h.ref i, Pi.single_eq_same]
  exact Nat.succ_pos _

theorem Since.noRoom {lk : Option Slot} (h : Since sb inode s₀ (Pi.single i 1) lk s)
    (hfull : ∀ j, (s.inode j).ref ≠ 0) : NoRoom s₀ noInodes := by
  refine ⟨rfl, Nat.lt_succ_of_le (Finset.card_le_one.mpr ?_)⟩
  have hi : ∀ j, (s₀.inode j).ref = 0 → j = i := fun j hj => by
    by_contra hne
    refine hfull j ?_
    rw [h.ref j, hj, Pi.single_eq_of_ne hne, Nat.add_zero]
  intro j hj k hk
  rw [Finset.mem_filter] at hj hk
  rw [hi j hj.2, hi k hk.2]

/-- The reference to what is returned. -/
def holding : Option Slot → Slot → ℕ
  | none => 0
  | some i => Pi.single i 1

/-- The inode `y` is returned, or nothing, and no other reference and no lock is kept. -/
structure Exits (sb : Superblock) (inode : Ino → Dinode) (s₀ : Icache) (y : Option Ino)
    (r : Option Slot) (s : Icache) : Prop where
  since : Since sb inode s₀ (holding r) none s
  found : r.map (fun i => (s.inode i).ino) = y

/-- Where the loop of `namex` is to end. -/
def Tree.goal (t : Tree) (nameiparent : Bool) (x : Ino) (path : List (List UInt8)) : Option Ino :=
  if nameiparent then t.parent x path else t.walk x path

theorem Tree.goal_cons {t : Tree} {nameiparent : Bool} {x : Ino} {c : List UInt8}
    {cs : List (List UInt8)} (h : nameiparent = true → cs ≠ []) :
    t.goal nameiparent x (c :: cs) = (t.lookup x c).bind fun y => t.goal nameiparent y cs := by
  cases nameiparent with
  | true => exact Tree.parent_cons (h rfl)
  | false => exact Tree.walk_cons

/-- **The loop of `namex`.** -/
theorem wp_namexLoop (hagree : Agrees sb s₀ inode) (hT : IsTree s₀ inode T) (nameiparent : Bool)
    (n : ℕ) : ∀ {path name : List UInt8} {i : Slot} {s : Icache}, path.length < n → 0 ∉ path →
      Since sb inode s₀ (Pi.single i 1) none s → (s.inode i).ino ∈ T →
      wp (namexLoop sb dev nameiparent i path name) (NoRoom s₀) (fun r s' =>
        Exits sb inode s₀ ((s₀.tree inode).goal nameiparent (s.inode i).ino (components path)) r.1
          s' ∧ (nameiparent = true → r.1 ≠ none →
            (components path).getLast? = some (cname r.2))) s := by
  induction n with
  | zero => exact fun h => absurd h (Nat.not_lt_zero _)
  | succ n ih =>
    intro path name i s hn hzero h hx
    have hretained := hT.retained _ hx
    have hspec := skipelem_spec hzero name
    rw [namexLoop]
    split
    · next hskip =>
      rw [hskip] at hspec
      obtain ⟨-, hnil⟩ : _ ∧ components path = [] := hspec.resolve_right (by simp)
      rw [hnil]
      cases nameiparent with
      | true =>
        rw [if_pos rfl, wp_bind]
        rw [← zero_add (Pi.single i 1)] at h
        refine wp_iput hagree h hretained fun s₁ h₁ _ => ?_
        exact ⟨⟨h₁, rfl⟩, fun _ hne => absurd rfl hne⟩
      | false =>
        rw [if_neg (by decide), wp_pure]
        exact ⟨⟨h, rfl⟩, fun hfalse => absurd hfalse (by decide)⟩
    · next path' name' hskip =>
      rw [hskip] at hspec
      obtain ⟨hzero', hcomp, hend⟩ : 0 ∉ path' ∧ components path = cname name' :: components path' ∧
          (path'.headD 0 = 0 ↔ components path' = []) := by simpa using hspec
      have hlt := length_skipelem hskip
      rw [hcomp]
      generalize hcs' : components path' = cs at hend
      generalize hgoal : (s₀.tree inode).goal nameiparent (s.inode i).ino (cname name' :: cs) = y
      -- the directory is given up, and the search ends
      have hgive : ∀ {s₁ : Icache}, Since sb inode s₀ (Pi.single i 1) (some i) s₁ →
          (s₁.inode i).ino = (s.inode i).ino → y = none →
          wp (iunlockput sb i) (NoRoom s₀) (fun _ s' => Exits sb inode s₀ y none s' ∧
            (nameiparent = true → (none : Option Slot) ≠ none →
              (cname name' :: cs).getLast? = some (cname name'))) s₁ := by
        rintro s₁ h₁ hino rfl
        rw [← zero_add (Pi.single i 1)] at h₁
        refine wp_iunlockput hagree h₁ (by rwa [hino]) fun s₂ h₂ _ => ?_
        exact ⟨⟨h₂, rfl⟩, fun _ hne => absurd rfl hne⟩
      rw [wp_bind]
      refine wp_ilock h h.ref_single (hT.type _ hx) fun s₁ h₁ hinos hcopy => ?_
      rw [wp_bind, wp_get, hcopy, wp_ite]
      refine ⟨fun htype => ?_, fun htype => ?_⟩
      · rw [wp_bind]
        refine hgive h₁ (hinos i) ?_
        rw [← hgoal, Tree.goal]
        split
        · exact Tree.parent_of_ne htype
        · rw [Tree.walk_cons, Tree.lookup_of_ne htype, Option.bind_none]
      have hx₁ : (s₁.inode i).ino ∈ T := by rwa [hinos]
      rw [not_not] at htype
      rw [← hinos i] at hcopy htype hgoal
      rw [wp_ite]
      refine ⟨?_, fun hmore => ?_⟩
      · rintro ⟨rfl, hhead⟩
        have htypes : (s₀.tree inode).type (s₁.inode i).ino = tDir := htype
        obtain rfl := hend.mp hhead
        rw [Tree.goal, if_pos rfl, Tree.parent_singleton, if_pos htypes] at hgoal
        rw [wp_bind]
        refine wp_iunlock h₁ h₁.ref_single fun s₂ h₂ hinos₂ => ?_
        exact ⟨⟨h₂, (congrArg some (hinos₂ i)).trans hgoal⟩, fun _ _ => rfl⟩
      · have hcs : nameiparent = true → cs ≠ [] := fun hp hnil => hmore ⟨hp, hend.mpr hnil⟩
        rw [Tree.goal_cons hcs, Tree.lookup_cname] at hgoal
        rw [wp_bind]
        refine wp_dirlookup hT h₁ hx₁ hcopy htype h₁.noRoom (fun hnone => ?_)
          fun j off s₂ hsome hj h₂ hkeep => ?_
        · rw [hnone, Option.bind_none] at hgoal
          dsimp only
          rw [wp_bind]
          exact hgive h₁ (hinos i) hgoal.symm
        · rw [hsome, Option.bind_some] at hgoal
          have hino₂ := hkeep i h₁.ref_single
          rw [add_comm] at h₂
          dsimp only
          rw [wp_bind]
          refine wp_iunlockput hagree h₂ (by rwa [hino₂, hinos]) fun s₃ h₃ hinos₃ => ?_
          refine wp_imp (ih (by omega) hzero' h₃ (by rwa [hinos₃])) ?_
          rintro r s' ⟨hexits, hlast⟩
          rw [hcs', hinos₃, hgoal] at hexits
          refine ⟨hexits, fun hp hr => ?_⟩
          rw [List.getLast?_cons_of_ne_nil (hcs hp), ← hcs', hlast hp hr]

/-- Where a path begins. -/
def start (s : Icache) (cwd : Slot) (path : List UInt8) : Ino :=
  if path.headD 0 = '/'.toUInt8 then ⟨rootdev, rootino⟩ else (s.inode cwd).ino

/-- **Path lookup.**  When no inode is locked, and the directories are in order, `namex` returns,
unless there is no room for the inodes of the path.  It goes where the path leads, or to the
directory of the last element, and then `name` is that element; it fails exactly if an inode that
is to be searched is not a directory or has no such entry, and it keeps one reference to what it
returns. -/
theorem namex_walk (sb : Superblock) (dev : Devsw) (inode : Ino → Dinode) (s : Icache)
    (T : Set Ino) (cwd : Slot) (path name : List UInt8) (hagree : Agrees sb s inode)
    (hunlocked : ∀ i, (s.inode i).locked = false) (hT : IsTree s inode T)
    (hstart : start s cwd path ∈ T) (hcwd : 0 < (s.inode cwd).ref) (hzero : 0 ∉ path) :
    wp (namex sb dev cwd path false name) (NoRoom s) (fun r s' =>
      Exits sb inode s ((s.tree inode).walk (start s cwd path) (components path)) r.1 s' ∧
      (r.1 = none ↔ ∃ pre c post y, components path = pre ++ c :: post ∧
        (s.tree inode).walk (start s cwd path) pre = some y ∧
          ((s.tree inode).type y ≠ tDir ∨ ∀ de ∈ entries ((s.tree inode).content y),
            de.inum ≠ 0 → namecmp c de.name = false))) s ∧
    wp (namex sb dev cwd path true name) (NoRoom s) (fun r s' =>
      Exits sb inode s ((s.tree inode).parent (start s cwd path) (components path)) r.1 s' ∧
      (r.1 ≠ none → (components path).getLast? = some (cname r.2))) s := by
  have hrefl := Since.refl hagree hunlocked
  -- the inode that the loop begins with
  have hrun : ∀ nameiparent, wp (namex sb dev cwd path nameiparent name) (NoRoom s) (fun r s' =>
      Exits sb inode s ((s.tree inode).goal nameiparent (start s cwd path) (components path)) r.1
        s' ∧ (nameiparent = true → r.1 ≠ none →
          (components path).getLast? = some (cname r.2))) s := by
    intro nameiparent
    rw [namex, wp_ite]
    refine ⟨fun hslash => ?_, fun hslash => ?_⟩
    · rw [start, if_pos hslash] at hstart ⊢
      rw [wp_bind]
      refine wp_iget hrefl (fun hfull => ⟨rfl, ?_⟩) fun i s₁ h₁ hino _ => ?_
      · rw [Finset.filter_false_of_mem fun j _ => hfull j]
        exact Nat.zero_lt_two
      · rw [← hino] at hstart ⊢
        rw [zero_add] at h₁
        exact wp_namexLoop hagree hT nameiparent (path.length + 1) (Nat.lt_succ_self _) hzero h₁
          hstart
    · rw [start, if_neg hslash] at hstart ⊢
      rw [wp_bind]
      refine wp_idup hrefl hcwd fun s₁ h₁ hinos => ?_
      rw [← hinos cwd] at hstart ⊢
      rw [zero_add] at h₁
      exact wp_namexLoop hagree hT nameiparent (path.length + 1) (Nat.lt_succ_self _) hzero h₁
        hstart
  refine ⟨wp_imp (hrun false) fun r s' hr => ⟨hr.1, ?_⟩,
    wp_imp (hrun true) fun r s' hr => ⟨hr.1, hr.2 rfl⟩⟩
  have hfound := hr.1.found
  rw [← Option.map_eq_none_iff (f := fun i => (s'.inode i).ino), hfound, Tree.goal,
    if_neg (by decide), Tree.walk_eq_none_iff]
  simp only [Tree.lookup_eq_none_iff]

end Walk

/-- A disk with a directory that has one entry. -/
def dotDisk : Disk := fun b =>
  if b = 5 then Bytes.patch zeroBlock 0 (Dirent.encode ⟨1, str "."⟩) else zeroBlock

def dotRoot : Dinode := { (Dinode.blank tDir 1).setAddr 0 5 with size := 16 }

/-- The directory is in the table. -/
def dotCache : Icache where
  disk _ := dotDisk
  inode i := ⟨⟨rootdev, rootino⟩, if i = 0 then 1 else 0, false, true, dotRoot⟩

def dotSb : Superblock := ⟨10, 5, 8, 0, 2, 2, 4⟩

def dotInode (x : Ino) : Dinode :=
  if x = ⟨rootdev, rootino⟩ then dotRoot else dinode dotSb dotDisk x.inum.toNat

theorem agrees_dot : Agrees dotSb dotCache dotInode where
  cached := fun _ _ => rfl
  stored := fun x hx => by
    have hne : x ≠ ⟨rootdev, rootino⟩ := fun heq => hx 0 ⟨Nat.one_pos, heq.symm⟩
    rw [dotInode, if_neg hne]
    rfl

theorem isTree_dot : IsTree dotCache dotInode {⟨rootdev, rootino⟩} where
  type := by rintro x rfl; decide
  retained := by rintro x rfl; exact .inl (by decide)
  covered := by
    rintro x rfl _ i _ hi
    have hlt : i < 16 := hi
    have hzero : i / bsize = 0 := Nat.div_eq_of_lt (hlt.trans (by decide))
    rw [hzero]
    decide
  whole := by rintro x rfl _; decide
  closed := by
    rintro x rfl _
    have hall : ∀ de ∈ entries ((dotCache.tree dotInode).content ⟨rootdev, rootino⟩),
        de.inum ≠ 0 → (⟨rootdev, UInt32.ofNat de.inum⟩ : Ino) = ⟨rootdev, rootino⟩ := by
      decide +kernel
    exact hall

/-- The entry of the directory is the directory. -/
theorem namex_walk_dot : wp (namex dotSb ⟨fun _ => none, fun _ => none⟩ 0 (str "//.") false [])
    (NoRoom dotCache) (fun r s' => r.1.map (fun i => (s'.inode i).ino) = some ⟨rootdev, rootino⟩)
    dotCache :=
  wp_imp (namex_walk dotSb ⟨fun _ => none, fun _ => none⟩ dotInode dotCache
    {⟨rootdev, rootino⟩} 0 (str "//.") [] agrees_dot (fun _ => rfl) isTree_dot rfl Nat.one_pos
    (by decide +kernel)).1 fun _ _ h => h.1.found.trans (by decide +kernel)

end Fs
end Xv6

import Xv6.Fs.Log

/-!
# Crash atomicity of the log

Power may fail between any two of the block writes of `commit`, and then, at each boot,
between any two of those of `recover_from_log`.  A disk met on the way `Names` a
transaction: its header names blocks, the log holds their contents, and every other
block outside the log has its contents at home.  A clean disk names no block.

## Main results

* `inv_take_installWrites` — every initial part of an installation keeps this.
* `names_of_head` — the first `write_head` of `commit` establishes it for the new contents.
* `commit_crash_atomic` — **after a crash in `commit`, crashes in recovery and a recovery
  that runs to its end, the disk has all old contents or all new ones.**
-/

namespace Xv6
namespace Log

/-- The block writes of a recovery at boot. -/
def recovery (start : UInt32) (disk : UInt32 → Block) : Option (List (UInt32 × Block)) :=
  (recoverFromLog start (Store.boot disk)).map Store.writes

/-- The header of the disk names no block. -/
def Clean (start : UInt32) (disk : UInt32 → Block) : Prop := readHeader (disk start) = some []

/-- The disk `d` names the transaction `t`: with the log's copies of its blocks, it has the
contents `f` outside the log. -/
structure Names {r : Region} (f : UInt32 → Block) (t : Transaction r) (d : UInt32 → Block) :
    Prop where
  header : readHeader (d r.start) = some t.blocks
  logged : (logBlocks r.start 0 t.blocks.length).map d = t.blocks.map f
  home : ∀ b, ¬ r.Has b → b ∉ t.blocks → d b = f b

/-- The disk has the contents `f` outside the log, and a clean header. -/
structure Settled (r : Region) (f d : UInt32 → Block) : Prop where
  clean : Clean r.start d
  home : ∀ b, ¬ r.Has b → d b = f b

variable {r : Region} {f d : UInt32 → Block} {t : Transaction r}

theorem Settled.names (h : Settled r f d) : Names f (Transaction.empty r) d :=
  ⟨h.clean, rfl, fun b hb _ => h.home b hb⟩

/-! ### Installing -/

/-- Installing some of the blocks changes nothing of what the disk names. -/
theorem names_take_home (h : Names f t d) (k : ℕ) :
    Names f t (Crash.apply d ((t.blocks.zip (t.blocks.map f)).take k)) := by
  have hother : ∀ b ∉ t.blocks,
      Crash.apply d ((t.blocks.zip (t.blocks.map f)).take k) b = d b := fun b hb =>
    Crash.apply_take_zip_of_notMem hb d k
  refine ⟨?_, ?_, fun b hb hmem => (hother b hmem).trans (h.home b hb hmem)⟩
  · rw [hother _ (start_notMem t)]
    exact h.header
  · refine Eq.trans (List.map_congr_left fun b hb => hother b fun hmem => ?_) h.logged
    exact t.outside b hmem (logBlocks_spec t hb).1

/-- Installing all of them and clearing the header settles the disk. -/
theorem settled_installWrites (h : Names f t d) (hb : Block) :
    Settled r f (Crash.apply d (installWrites t hb f)) := by
  rw [installWrites, Crash.apply_append]
  refine ⟨?_, fun b hout => ?_⟩
  · rw [Clean, Crash.apply_cons, Crash.apply_nil, Function.update_self]
    exact readHeader_setHeader hb (Nat.zero_le _)
  · have hne : b ≠ r.start := fun heq => hout (heq ▸ r.has_start)
    rw [Crash.apply_cons, Crash.apply_nil, Function.update_of_ne hne]
    by_cases hmem : b ∈ t.blocks
    · exact Crash.apply_zip_map hmem t.nodup d
    · rw [Crash.apply_zip_of_notMem hmem]
      exact h.home b hout hmem

/-- **Every initial part of an installation** leaves a disk that names the same contents. -/
theorem inv_take_installWrites (h : Names f t d) (hb : Block) (k : ℕ) :
    ∃ t' : Transaction r, Names f t' (Crash.apply d ((installWrites t hb f).take k)) := by
  have hlen : (t.blocks.zip (t.blocks.map f)).length = t.blocks.length := by simp
  rcases le_or_gt k t.blocks.length with hk | hk
  · rw [installWrites, List.take_append_of_le_length (by omega)]
    exact ⟨t, names_take_home h k⟩
  · rw [List.take_of_length_le (by rw [installWrites, List.length_append, hlen]; simp; omega)]
    exact ⟨_, (settled_installWrites h hb).names⟩

/-- A recovery from a disk that names a transaction: cut short it leaves such a disk, and
run to its end a settled one. -/
theorem recovery_of_names (h : ∃ t : Transaction r, Names f t d) :
    ∃ ws, recovery r.start d = some ws ∧
      (∀ k, ∃ t : Transaction r, Names f t (Crash.apply d (ws.take k))) ∧
      Settled r f (Crash.apply d ws) := by
  obtain ⟨t, ht⟩ := h
  refine ⟨installWrites t (d r.start) f, ?_, inv_take_installWrites ht _,
    settled_installWrites ht _⟩
  rw [recovery, recoverFromLog_eq t (s := Store.boot d) ht.header ht.logged]
  rfl

/-! ### Committing -/

/-- The contents after the transaction: those of the buffers, for its blocks. -/
def updated (t : Transaction r) (view d : UInt32 → Block) : UInt32 → Block := fun b =>
  if b ∈ t.blocks then view b else d b

theorem map_updated (t : Transaction r) (view d : UInt32 → Block) :
    t.blocks.map (updated t view d) = t.blocks.map view :=
  List.map_congr_left fun _ hb => if_pos hb

/-- While the log is being written the disk is settled with its old contents. -/
theorem settled_take_log (h : Clean r.start d) (view : UInt32 → Block) (k : ℕ) :
    Settled r d (Crash.apply d
      (((logBlocks r.start 0 t.blocks.length).zip (t.blocks.map view)).take k)) := by
  have hother : ∀ b, ¬ r.Has b ∨ b = r.start → Crash.apply d
      (((logBlocks r.start 0 t.blocks.length).zip (t.blocks.map view)).take k) b = d b := by
    refine fun b hb => Crash.apply_take_zip_of_notMem (fun hmem => ?_) d k
    obtain ⟨hhas, hne⟩ := logBlocks_spec t hmem
    exact hb.elim (fun hb => hb hhas) hne
  refine ⟨?_, fun b hb => hother b (.inl hb)⟩
  rw [Clean, hother _ (.inr rfl)]
  exact h

/-- **The first `write_head`** makes the disk name the transaction, with its new contents. -/
theorem names_of_head (t : Transaction r) (view d : UInt32 → Block) (hb : Block) :
    Names (updated t view d) t (Crash.apply d
      ((logBlocks r.start 0 t.blocks.length).zip (t.blocks.map view) ++
        [(r.start, setHeader hb t.blocks)])) := by
  rw [Crash.apply_append, Crash.apply_cons, Crash.apply_nil]
  refine ⟨?_, ?_, fun b hout hmem => ?_⟩
  · rw [Function.update_self]
    exact readHeader_setHeader hb t.length_le
  · have hlog := Crash.map_apply_zip (t.blocks.map view) d (nodup_logBlocks t) (by simp)
    rw [map_updated]
    refine Eq.trans (List.map_congr_left fun b hb' => ?_) hlog
    exact Function.update_of_ne (logBlocks_spec t hb').2 _ _
  · have hne : b ≠ r.start := fun heq => hout (heq ▸ r.has_start)
    have hlog : b ∉ logBlocks r.start 0 t.blocks.length := fun hlog =>
      hout (logBlocks_spec t hlog).1
    rw [Function.update_of_ne hne, Crash.apply_zip_of_notMem hlog]
    exact (if_neg hmem).symm

/-- After a crash in `commit` the disk names the old contents or the new ones, and the new
ones if the first `write_head` reached the disk. -/
theorem names_of_commit (t : Transaction r) (view : UInt32 → Block) (h : Clean r.start d) (k : ℕ) :
    (k ≤ t.blocks.length ∧ ∃ t' : Transaction r,
        Names d t' (Crash.apply d ((commit r.start t.blocks ⟨view, []⟩).writes.take k))) ∨
      ∃ t' : Transaction r, Names (updated t view d) t'
        (Crash.apply d ((commit r.start t.blocks ⟨view, []⟩).writes.take k)) := by
  rcases eq_or_ne t.blocks [] with hnil | hne
  · -- nothing to commit: no block is written
    have hwrites : (commit r.start t.blocks ⟨view, []⟩).writes = [] := by
      rw [commit, if_neg (by simp [hnil])]
    have hsame : updated t view d = d := funext fun b => if_neg (by simp [hnil])
    have hsettled : Settled r d d := ⟨h, fun _ _ => rfl⟩
    rw [hwrites, List.take_nil, Crash.apply_nil, hsame]
    exact .inr ⟨_, hsettled.names⟩
  · have hwrites : (commit r.start t.blocks ⟨view, []⟩).writes = _ :=
      congrArg Store.writes (commit_eq t ⟨view, []⟩ hne)
    have hlen : ((logBlocks r.start 0 t.blocks.length).zip (t.blocks.map view)).length =
        t.blocks.length := by simp
    rw [hwrites, Store.issue, List.nil_append]
    dsimp only
    rcases le_or_gt k t.blocks.length with hk | hk
    · rw [List.take_append_of_le_length (by omega)]
      exact .inl ⟨hk, _, (settled_take_log h view k).names⟩
    · -- the header is written, and then some of what a recovery would write
      obtain ⟨j, hj⟩ : ∃ j, k = t.blocks.length + (j + 1) := ⟨k - t.blocks.length - 1, by omega⟩
      have hinstall : ∀ hb, installWrites t hb view = installWrites t hb (updated t view d) :=
        fun hb => by rw [installWrites, installWrites, map_updated]
      have htake : ∀ (x : UInt32 × Block) (ws vs : List (UInt32 × Block)),
          ws.length = t.blocks.length → (ws ++ x :: vs).take k = (ws ++ [x]) ++ vs.take j := by
        intro x ws vs hws
        rw [hj, ← hws, List.take_length_add_append, List.take_succ_cons, List.append_assoc]
        rfl
      rw [htake _ _ _ hlen, Crash.apply_append, hinstall]
      exact .inr (inv_take_installWrites (names_of_head t view d _) _ j)

/-- What a crash in `commit` comes to, from a disk with a clean header. -/
theorem recovered_of_commit (t : Transaction r) (view : UInt32 → Block) (h : Clean r.start d)
    (k : ℕ) (ks : List ℕ) :
    ∃ d', Crash.recovered (recovery r.start)
          (Crash.apply d ((commit r.start t.blocks ⟨view, []⟩).writes.take k)) ks = some d' ∧
      (Settled r d d' ∨ Settled r (updated t view d) d') ∧
      (t.blocks.length < k → Settled r (updated t view d) d') := by
  have hrec : ∀ {f d₀ : UInt32 → Block}, (∃ t : Transaction r, Names f t d₀) →
      ∃ d', Crash.recovered (recovery r.start) d₀ ks = some d' ∧ Settled r f d' :=
    fun {f _} hnames => Crash.recovered_of_invariant
      (fun d => ∃ t : Transaction r, Names f t d) (fun _ hd => recovery_of_names hd) ks _
      hnames
  rcases names_of_commit t view h k with ⟨hk, hold⟩ | hnew
  · obtain ⟨d', hd', hsettled⟩ := hrec hold
    exact ⟨d', hd', .inl hsettled, fun hlt => absurd hlt (not_lt.mpr hk)⟩
  · obtain ⟨d', hd', hsettled⟩ := hrec hnew
    exact ⟨d', hd', .inr hsettled, fun _ => hsettled⟩

/-! ### The disks of a running system -/

/-- The disk after block writes, the last of which clears the header. -/
theorem clean_of_last {ws : List (UInt32 × Block)} {hb : Block} (d : UInt32 → Block) :
    Clean r.start (Crash.apply d (ws ++ [(r.start, setHeader hb [])])) := by
  rw [Clean, Crash.apply_append, Crash.apply_cons, Crash.apply_nil, Function.update_self]
  exact readHeader_setHeader hb (Nat.zero_le _)

theorem exists_issue_installLoop (start : UInt32) : ∀ (bs : List UInt32) (tail : ℕ) (s : Store),
    ∃ ws, installLoop start tail bs s = s.issue ws := by
  intro bs
  induction bs with
  | nil => intro tail s; exact ⟨[], by simp [installLoop]⟩
  | cons b bs ih =>
    intro tail s
    obtain ⟨ws, hws⟩ := ih (tail + 1) (bwrite s b (bread s (logBlock start tail)))
    exact ⟨_, by rw [installLoop, hws, bwrite_eq, issue_append]⟩

/-- A recovery that runs to its end leaves a clean header, from any disk. -/
theorem clean_of_recovery {ws : List (UInt32 × Block)} (h : recovery r.start d = some ws) :
    Clean r.start (Crash.apply d ws) := by
  obtain ⟨s, hs, rfl⟩ := Option.map_eq_some_iff.mp h
  obtain ⟨bs, _, rfl⟩ := Option.map_eq_some_iff.mp hs
  obtain ⟨vs, hvs⟩ := exists_issue_installLoop r.start bs 0 (Store.boot d)
  rw [installTrans, hvs, writeHead_eq, issue_append]
  exact clean_of_last d

/-- A commit that runs to its end leaves a clean header. -/
theorem clean_of_commit (t : Transaction r) (view : UInt32 → Block) (h : Clean r.start d) :
    Clean r.start (Crash.apply d (commit r.start t.blocks ⟨view, []⟩).writes) := by
  rcases eq_or_ne t.blocks [] with hnil | hne
  · rw [commit, if_neg (by simp [hnil])]
    exact h
  · rw [commit_eq t _ hne, installWrites, ← List.cons_append, ← List.append_assoc]
    exact clean_of_last d

/-- **The disks of a running system**, between two transactions: `initlog` has recovered, and
since then transactions have been committed, or power has failed in one and a recovery has
run to its end. -/
inductive Running (r : Region) : (UInt32 → Block) → Prop
  | boot {d : UInt32 → Block} {ws : List (UInt32 × Block)} :
      recovery r.start d = some ws → Running r (Crash.apply d ws)
  | commit {d : UInt32 → Block} (t : Transaction r) (view : UInt32 → Block) :
      Running r d → Running r (Crash.apply d (commit r.start t.blocks ⟨view, []⟩).writes)
  | crash {d d' : UInt32 → Block} (t : Transaction r) (view : UInt32 → Block) (k : ℕ)
      (ks : List ℕ) : Running r d →
      Crash.recovered (recovery r.start)
        (Crash.apply d ((commit r.start t.blocks ⟨view, []⟩).writes.take k)) ks = some d' →
      Running r d'

theorem Running.clean (h : Running r d) : Clean r.start d := by
  induction h with
  | boot hws => exact clean_of_recovery hws
  | commit t view _ ih => exact clean_of_commit t view ih
  | crash t view k ks _ hd' ih =>
    obtain ⟨d'', hd'', hsettled, _⟩ := recovered_of_commit t view ih k ks
    rw [hd', Option.some.injEq] at hd''
    subst hd''
    exact hsettled.elim Settled.clean Settled.clean

/-- **Crash atomicity.**  On the disk `d` of a running system a transaction `t` is committed.
Power fails after `k` block writes of `commit`, and at the following boots after `ks` block
writes of the recovery.  Once a recovery runs to its end, the disk outside the log is `d`,
or `d` with the blocks of `t` replaced by their buffers; it is the latter if the first
`write_head`, which comes after `t.blocks.length` writes, reached the disk. -/
theorem commit_crash_atomic (r : Region) (t : Transaction r) (view d : UInt32 → Block)
    (h : Running r d) (k : ℕ) (ks : List ℕ) :
    ∃ d', Crash.recovered (recovery r.start)
          (Crash.apply d ((commit r.start t.blocks ⟨view, []⟩).writes.take k)) ks = some d' ∧
      ((∀ b, ¬ r.Has b → d' b = d b) ∨
        ∀ b, ¬ r.Has b → d' b = if b ∈ t.blocks then view b else d b) ∧
      (t.blocks.length < k →
        ∀ b, ¬ r.Has b → d' b = if b ∈ t.blocks then view b else d b) := by
  obtain ⟨d', hd', hsettled, hcommitted⟩ := recovered_of_commit t view h.clean k ks
  exact ⟨d', hd', hsettled.imp Settled.home Settled.home, fun hk => (hcommitted hk).home⟩

/-- The rule for two blocks, with a crash behind the header and two more in recovery. -/
theorem commit_crash_atomic_two :
    let r : Region := ⟨2, 30, by decide⟩
    let t : Transaction r :=
      ⟨[100, 45], by decide, by simp [Region.Has, r]; decide, by decide, by decide⟩
    let zeros : UInt32 → Block := fun _ => Vector.replicate 128 0
    let view : UInt32 → Block := fun b => Vector.replicate 128 b
    ∃ ws d', recovery 2 zeros = some ws ∧
      Crash.recovered (recovery 2) (Crash.apply (Crash.apply zeros ws)
        ((commit 2 t.blocks ⟨view, []⟩).writes.take 3)) [1, 2] = some d' ∧
      ∀ b, ¬ r.Has b → d' b = if b ∈ t.blocks then view b else Crash.apply zeros ws b := by
  intro r t zeros view
  have hboot : (recovery 2 zeros).isSome := by decide +kernel
  have hws : recovery 2 zeros = some ((recovery 2 zeros).get hboot) := (Option.some_get _).symm
  obtain ⟨d', hd', _, hnew⟩ := commit_crash_atomic r t view _ (.boot hws) 3 [1, 2]
  exact ⟨_, d', hws, hd', hnew (by decide)⟩

end Log
end Xv6

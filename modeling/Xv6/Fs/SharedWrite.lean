import Xv6.Fs.FileArray
import Xv6.Lib.Machine

/-!
# Writes through a shared descriptor

`filewrite` of `file.c`, called by any number of processes that share one `struct file`.

A process takes a step of its own between two points where others may run: `begin_op`, the
acquisition of the inode's lock, `writei`, the advance of `f->off`, and the release of the
lock.

## Main definitions

* `Pc`, `State`, `step` — where a process is in `filewrite`, the file, and a step.
* `Serial` — the writes that are done, in their order, are the content of the file.

## Main results

* `serial_step` — **every step keeps the order**, as long as calls are short and succeed.
* `shared_writes` — no write is lost.
-/

namespace Xv6
namespace SharedWrite

open Machine Prog Fs

/-- The arguments of `filewrite`: the memory at `addr`, and `n`. -/
structure Call where
  addr : ℕ → UInt8
  n : ℤ

/-- The most that is written in one transaction; `MAXOPBLOCKS` is 10. -/
def max : ℤ := (10 - 1 - 1 - 2) / 2 * 512

/-- Where a process is in `filewrite`, with the variables `i`, `n1` and `r`. -/
inductive Pc
  | idle
  /-- The test of the loop. -/
  | top (c : Call) (i : ℤ)
  /-- After `begin_op`. -/
  | begun (c : Call) (i n1 : ℤ)
  /-- After `ilock`. -/
  | locked (c : Call) (i n1 : ℤ)
  /-- After `writei`. -/
  | wrote (c : Call) (i n1 r : ℤ)
  /-- After the advance of `f->off`. -/
  | advanced (c : Call) (i n1 r : ℤ)

structure State (P : Type*) where
  disk : Disk
  /-- `f->ip` -/
  ip : Dinode
  /-- `f->off` -/
  off : UInt32
  /-- Who holds `f->ip->lock`. -/
  lock : Option P
  pc : P → Pc

inductive Action
  | call (c : Call)
  /-- The process goes on. -/
  | next

inductive Event (P : Type*)
  | called (p : P) (c : Call)
  | returned (p : P) (c : Call) (r : ℤ)
  | quiet

section Step

variable {P : Type*} [DecidableEq P]

def State.goto (s : State P) (p : P) (pc : Pc) : State P :=
  { s with pc := Function.update s.pc p pc }

/-- `return i == n ? n : -1` -/
def result (c : Call) (i : ℤ) : ℤ := if i = c.n then c.n else -1

/-- The next step of a process in `filewrite`, if it can go on. -/
def next (sb : Superblock) (dev : Devsw) (inum : ℕ) (s : State P) (p : P) :
    Pc → Option (State P × Event P)
  | .idle => none
  | .top c i =>
      if i < c.n then
        some (s.goto p (.begun c i (if max < c.n - i then max else c.n - i)), .quiet)
      else some (s.goto p .idle, .returned p c (result c i))
  | .begun c i n1 =>
      if s.lock = none then some ({ s with lock := some p }.goto p (.locked c i n1), .quiet)
      else none
  | .locked c i n1 =>
      match writei sb dev inum s.ip (fun k => c.addr (i.toNat + k)) s.off
        (UInt32.ofNat n1.toNat) s.disk with
      | .ok ((r, ip), d) => some ({ s with disk := d, ip := ip }.goto p (.wrote c i n1 r), .quiet)
      | .error _ => none
  | .wrote c i n1 r =>
      let off := if 0 < r then s.off + UInt32.ofNat r.toNat else s.off
      some ({ s with off := off }.goto p (.advanced c i n1 r), .quiet)
  | .advanced c i n1 r =>
      let s := { s with lock := none }
      if r < 0 then some (s.goto p .idle, .returned p c (result c i))
      -- panic("short filewrite")
      else if r ≠ n1 then none
      else some (s.goto p (.top c (i + r)), .quiet)

def step (sb : Superblock) (dev : Devsw) (inum : ℕ) (s : State P) (a : P × Action) :
    Option (State P × Event P) :=
  match a.2, s.pc a.1 with
  | .call c, .idle => some (s.goto a.1 (.top c 0), .called a.1 c)
  | .next, pc => next sb dev inum s a.1 pc
  | _, _ => none

/-- The file has just been opened. -/
def opened (d : Disk) (ip : Dinode) : State P := ⟨d, ip, 0, none, fun _ => .idle⟩

end Step

/-! ### The order of the writes -/

def Call.bytes (c : Call) : List UInt8 := (List.range c.n.toNat).map c.addr

namespace Pc

/-- The process holds the lock. -/
def Inside : Pc → Bool
  | locked _ _ _ | wrote _ _ _ _ | advanced _ _ _ _ => true
  | _ => false

/-- The values of the variables in a short call. -/
def Fits : Pc → Prop
  | idle => True
  | top c i => c.n ≤ max ∧ (i = 0 ∨ i = c.n ∧ 0 < c.n)
  | begun c i n1 | locked c i n1 => c.n ≤ max ∧ i = 0 ∧ n1 = c.n ∧ 0 < c.n
  | wrote c i n1 r | advanced c i n1 r =>
      c.n ≤ max ∧ i = 0 ∧ n1 = c.n ∧ 0 < c.n ∧ (r = c.n ∨ r = -1)

/-- What the process has still to write. -/
def owed : Pc → List (List UInt8)
  | idle => []
  | top c i => if i = 0 then [c.bytes] else []
  | begun c _ _ | locked c _ _ => [c.bytes]
  | wrote c _ _ r | advanced c _ _ r => if r = -1 then [c.bytes] else []

/-- How far `f->off` is behind. -/
def behind : Pc → ℕ
  | wrote _ _ _ r => r.toNat
  | _ => 0

end Pc

section Order

variable {P : Type*} [DecidableEq P]

/-- The buffers that `p` has called `filewrite` with, in their order. -/
def calls (p : P) (os : List (Event P)) : List (List UInt8) :=
  os.filterMap fun
    | .called q c => if q = p then some c.bytes else none
    | _ => none

/-- The calls are short and succeed. -/
def Event.Fine : Event P → Prop
  | .called _ c => c.n ≤ 1536
  | .returned _ c r => r = c.n ∧ 0 ≤ c.n
  | .quiet => True

/-- How far `f->off` is behind the content, as the holder of the lock has it. -/
def State.behind (s : State P) : ℕ :=
  match s.lock with
  | none => 0
  | some p => (s.pc p).behind

/-- The writes that are done are those of `l`, in this order, with the processes that did
them. -/
structure Serial (sb : Superblock) (inum : ℕ) (s : State P) (os : List (Event P))
    (l : List (P × List UInt8)) : Prop where
  ok : FileOk sb inum s.disk s.ip
  lock : ∀ p, s.lock = some p ↔ (s.pc p).Inside
  fits : ∀ p, (s.pc p).Fits
  contents : contents s.disk s.ip = l.flatMap Prod.snd
  off : s.off.toNat + s.behind = (Fs.contents s.disk s.ip).length
  /-- Each process has written the buffers of its calls in their order. -/
  order : ∀ p, calls p os = ((l.filter fun e => e.1 = p).map Prod.snd) ++ (s.pc p).owed

@[simp] theorem goto_pc (s : State P) (p : P) (pc : Pc) (q : P) :
    (s.goto p pc).pc q = if q = p then pc else s.pc q := Function.update_apply _ _ _ _

@[simp] theorem goto_disk (s : State P) (p : P) (pc : Pc) : (s.goto p pc).disk = s.disk := rfl

@[simp] theorem goto_ip (s : State P) (p : P) (pc : Pc) : (s.goto p pc).ip = s.ip := rfl

@[simp] theorem goto_off (s : State P) (p : P) (pc : Pc) : (s.goto p pc).off = s.off := rfl

@[simp] theorem calls_called (p q : P) (c : Call) (os : List (Event P)) :
    calls p (os ++ [.called q c]) = calls p os ++ if q = p then [c.bytes] else [] := by
  rw [calls, List.filterMap_append]
  by_cases hq : q = p
  · simp [hq, calls]
  · simp [hq, calls]

@[simp] theorem calls_returned (p q : P) (c : Call) (r : ℤ) (os : List (Event P)) :
    calls p (os ++ [.returned q c r]) = calls p os := by
  simp [calls]

@[simp] theorem calls_quiet (p : P) (os : List (Event P)) :
    calls p (os ++ [.quiet]) = calls p os := by
  simp [calls]

/-- The buffers that `p` has written, after a write. -/
theorem written_concat (l : List (P × List UInt8)) (p q : P) (bs : List UInt8) :
    ((l ++ [(q, bs)]).filter fun e => e.1 = p).map Prod.snd =
      ((l.filter fun e => e.1 = p).map Prod.snd) ++ if q = p then [bs] else [] := by
  rw [List.filter_append, List.map_append]
  by_cases hq : q = p
  · simp [hq]
  · simp [hq]

variable {sb : Superblock} {dev : Devsw} {inum : ℕ} {s : State P} {os : List (Event P)}
  {l : List (P × List UInt8)} {e : Event P} {p : P}

/-- A process goes from one place outside the lock to another one. -/
theorem Serial.outside (h : Serial sb inum s os l) (pc : Pc) (hp : ¬(s.pc p).Inside)
    (hpc : ¬pc.Inside) (hfits : pc.Fits) {l' : List (P × List UInt8)}
    (hl : l'.flatMap Prod.snd = l.flatMap Prod.snd)
    (hself : calls p (os ++ [e]) = ((l'.filter fun e => e.1 = p).map Prod.snd) ++ pc.owed)
    (hother : ∀ q, q ≠ p → calls q (os ++ [e]) = calls q os ∧
      (l'.filter fun e => e.1 = q) = l.filter fun e => e.1 = q) :
    Serial sb inum (s.goto p pc) (os ++ [e]) l' where
  ok := h.ok
  lock := by
    intro q
    rw [show (s.goto p pc).lock = s.lock from rfl, h.lock q, goto_pc]
    by_cases hq : q = p
    · rw [if_pos hq, hq]
      exact ⟨fun hin => absurd hin hp, fun hin => absurd hin hpc⟩
    · rw [if_neg hq]
  fits := by
    intro q
    rw [goto_pc]
    split
    · exact hfits
    · exact h.fits q
  contents := h.contents.trans hl.symm
  off := by
    have hbehind : (s.goto p pc).behind = s.behind := by
      rw [State.behind, State.behind, show (s.goto p pc).lock = s.lock from rfl]
      cases hlock : s.lock with
      | none => rfl
      | some q =>
        have hq : q ≠ p := by
          rintro rfl
          exact hp ((h.lock q).mp hlock)
        simp only
        rw [goto_pc, if_neg hq]
    rw [hbehind]
    exact h.off
  order := by
    intro q
    rw [goto_pc]
    by_cases hq : q = p
    · rw [if_pos hq, hq]
      exact hself
    · rw [if_neg hq, (hother q hq).1, (hother q hq).2]
      exact h.order q

/-- The holder of the lock goes on, with what it has changed. -/
theorem Serial.inside (h : Serial sb inum s os l) {s' : State P} (pc : Pc)
    (hp : s.lock = some p ∨ s.lock = none) (hpcs : s'.pc = Function.update s.pc p pc)
    (hlock : s'.lock = if pc.Inside then some p else none) (hfits : pc.Fits)
    (hok : FileOk sb inum s'.disk s'.ip) {l' : List (P × List UInt8)}
    (hcontents : Fs.contents s'.disk s'.ip = l'.flatMap Prod.snd)
    (hoff : s'.off.toNat + (if pc.Inside then pc.behind else 0) =
      (Fs.contents s'.disk s'.ip).length)
    (hself : calls p (os ++ [e]) = ((l'.filter fun e => e.1 = p).map Prod.snd) ++ pc.owed)
    (hother : ∀ q, q ≠ p → calls q (os ++ [e]) = calls q os ∧
      (l'.filter fun e => e.1 = q) = l.filter fun e => e.1 = q) :
    Serial sb inum s' (os ++ [e]) l' := by
  have hpcs' : ∀ q, s'.pc q = if q = p then pc else s.pc q := by
    intro q
    rw [hpcs, Function.update_apply]
  have hnone : ∀ q, q ≠ p → (s.pc q).Inside = false := by
    intro q hq
    rw [← Bool.not_eq_true, ← h.lock q]
    rcases hp with hp | hp
    · rw [hp, Option.some.injEq]
      exact Ne.symm hq
    · rw [hp]
      exact fun hq' => by cases hq'
  refine ⟨hok, fun q => ?_, fun q => ?_, hcontents, ?_, fun q => ?_⟩
  · rw [hlock, hpcs']
    by_cases hq : q = p
    · rw [if_pos hq, hq]
      cases hin : pc.Inside <;> simp
    · rw [if_neg hq, hnone q hq]
      cases hin : pc.Inside <;> simp [Ne.symm hq]
  · rw [hpcs']
    split
    · exact hfits
    · exact h.fits q
  · have hbehind : s'.behind = if pc.Inside then pc.behind else 0 := by
      rw [State.behind, hlock]
      cases hin : pc.Inside
      · rfl
      · simp [hpcs']
    rw [hbehind]
    exact hoff
  · rw [hpcs']
    by_cases hq : q = p
    · rw [if_pos hq, hq]
      exact hself
    · rw [if_neg hq, (hother q hq).1, (hother q hq).2]
      exact h.order q

/-- `writei` at the end of the file adds the bytes, or refuses. -/
theorem Serial.writei (hl : Layout sb) (hinum : inum < sb.ninodes) (h : Serial sb inum s os l)
    {c : Call} (hn : 0 < c.n) (hmax : c.n ≤ max) (hoff : s.off.toNat =
      (Fs.contents s.disk s.ip).length) {r : ℤ} {ip : Dinode} {d : Disk}
    (hrun : Fs.writei sb dev inum s.ip (fun k => c.addr (0 + k)) s.off (UInt32.ofNat c.n.toNat)
      s.disk = .ok ((r, ip), d)) :
    FileOk sb inum d ip ∧ (r = c.n ∧ Fs.contents d ip = Fs.contents s.disk s.ip ++ c.bytes ∨
      r = -1 ∧ Fs.contents d ip = Fs.contents s.disk s.ip) := by
  have hcount : (UInt32.ofNat c.n.toNat).toNat = c.n.toNat := by
    have hmax' : max = 1536 := by decide
    rw [UInt32.toNat_ofNat_of_lt']
    rw [UInt32.size]
    omega
  have hexec : (FileOp.write (fun k => c.addr (0 + k)) s.off (UInt32.ofNat c.n.toNat)).exec sb dev
      inum s.ip s.disk = .ok (((r, []), ip), d) := by
    rw [FileOp.exec, bind_of_ok hrun]
    rfl
  have hop := wp_ok (wp_fileOp _ (E := fun _ => True) hl hinum h.ok (.inl trivial) _
    le_rfl) hexec
  obtain ⟨hr, href, -, -⟩ := hop
  refine ⟨href.ok, ?_⟩
  rw [href.contents]
  rw [FileOp.flat] at hr ⊢
  split at hr
  · -- it writes
    next hw =>
    rw [if_pos hw]
    refine .inl ⟨?_, ?_⟩
    · have hr' := congrArg Prod.fst hr
      simp only [hcount] at hr'
      omega
    · rw [hoff, List.take_length, hcount, List.drop_of_length_le (by omega), List.append_nil,
        Call.bytes]
      simp only [Nat.zero_add]
  · next hw =>
    rw [if_neg hw]
    exact .inr ⟨congrArg Prod.fst hr, rfl⟩

/-- The processes that are not `p` notice nothing. -/
theorem others_quiet (l : List (P × List UInt8)) (os : List (Event P)) (p : P) :
    ∀ q, q ≠ p → calls q (os ++ [.quiet]) = calls q os ∧
      (l.filter fun e => e.1 = q) = l.filter fun e => e.1 = q :=
  fun q _ => ⟨calls_quiet q os, rfl⟩

/-- **Every step keeps the order**, as long as calls are short and succeed. -/
theorem serial_next (hl : Layout sb) (hinum : inum < sb.ninodes) {s' : State P}
    (hs : Serial sb inum s os l) (h : next sb dev inum s p (s.pc p) = some (s', e))
    (he : e.Fine) : ∃ l', Serial sb inum s' (os ++ [e]) l' := by
  have hfits := hs.fits p
  have horder := hs.order p
  have hlock := hs.lock p
  have hoff := hs.off
  have hmax : max = 1536 := by decide
  generalize hpc : s.pc p = pc at h hfits horder hlock
  cases pc with
  | idle => cases h
  | top c i =>
    obtain ⟨hsmall, hi⟩ := hfits
    have hout : ¬(s.pc p).Inside := by
      rw [hpc]
      exact Bool.false_ne_true
    rw [next] at h
    split at h
    · next hlt =>
      cases h
      have hi0 : i = 0 := by omega
      subst hi0
      rw [sub_zero, if_neg (by omega)]
      refine ⟨l, hs.outside (.begun c 0 c.n) hout Bool.false_ne_true ⟨hsmall, rfl, rfl, hlt⟩ rfl ?_
        (others_quiet l os p)⟩
      rw [calls_quiet, horder]
      simp [Pc.owed]
    · next hge =>
      cases h
      obtain ⟨-, hpos⟩ := he
      by_cases hi0 : i = 0
      · -- nothing is to be written
        have hempty : c.bytes = [] := by
          rw [Call.bytes, show c.n.toNat = 0 by omega]
          rfl
        refine ⟨l ++ [(p, [])], hs.outside .idle hout Bool.false_ne_true trivial (by simp)
          ?_ ?_⟩
        · rw [calls_returned, horder, written_concat, if_pos rfl]
          simp only [Pc.owed, if_pos hi0, hempty, List.append_nil]
        · intro q hq
          refine ⟨calls_returned q p c _ os, ?_⟩
          simp [Ne.symm hq]
      · refine ⟨l, hs.outside .idle hout Bool.false_ne_true trivial rfl ?_ ?_⟩
        · rw [calls_returned, horder]
          simp only [Pc.owed, if_neg hi0]
        · exact fun q _ => ⟨calls_returned q p c _ os, rfl⟩
  | begun c i n1 =>
    rw [next] at h
    split at h
    · next hfree =>
      cases h
      have hbehind : s.behind = 0 := by rw [State.behind, hfree]
      rw [hbehind] at hoff
      refine ⟨l, hs.inside (.locked c i n1) (.inr hfree) rfl rfl hfits ?_ ?_ ?_ ?_
        (others_quiet l os p)⟩
      · exact hs.ok
      · exact hs.contents
      · exact hoff
      · rw [calls_quiet, horder]
        rfl
    · cases h
  | locked c i n1 =>
    obtain ⟨hsmall, rfl, rfl, hpos⟩ := hfits
    have hheld : s.lock = some p := hlock.mpr rfl
    have hbehind : s.behind = 0 := by
      simp only [State.behind, hheld, hpc, Pc.behind]
    rw [hbehind, add_zero] at hoff
    rw [next] at h
    split at h
    · next r ip d hrun =>
      cases h
      obtain ⟨hok, hres⟩ := hs.writei hl hinum hpos hsmall hoff hrun
      rcases hres with ⟨rfl, hcontents⟩ | ⟨rfl, hcontents⟩
      · -- the bytes are at the end of the file
        refine ⟨l ++ [(p, c.bytes)], hs.inside (.wrote c 0 c.n c.n) (.inl hheld) rfl
          (by exact hheld) ⟨hsmall, rfl, rfl, hpos, .inl rfl⟩ hok ?_ ?_ ?_ ?_⟩
        · simp [hcontents, hs.contents]
        · simp [hcontents, ← hoff, Pc.Inside, Pc.behind, Call.bytes]
        · rw [calls_quiet, horder, written_concat, if_pos rfl]
          simp only [Pc.owed, if_neg (show ¬c.n = -1 by omega), List.append_nil]
        · intro q hq
          refine ⟨calls_quiet q os, ?_⟩
          simp [Ne.symm hq]
      · -- the file would be too big
        refine ⟨l, hs.inside (.wrote c 0 c.n (-1)) (.inl hheld) rfl (by exact hheld)
          ⟨hsmall, rfl, rfl, hpos, .inr rfl⟩ hok ?_ ?_ ?_ (others_quiet l os p)⟩
        · simp [hcontents, hs.contents]
        · simp [hcontents, ← hoff, Pc.Inside, Pc.behind]
        · rw [calls_quiet, horder]
          simp only [Pc.owed, if_true]
    · cases h
  | wrote c i n1 r =>
    obtain ⟨hsmall, rfl, rfl, hpos, hr⟩ := hfits
    have hheld : s.lock = some p := hlock.mpr rfl
    have hbehind : s.behind = r.toNat := by
      simp only [State.behind, hheld, hpc, Pc.behind]
    rw [hbehind] at hoff
    rw [next] at h
    cases h
    refine ⟨l, hs.inside (.advanced c 0 c.n r) (.inl hheld) rfl (by exact hheld)
      ⟨hsmall, rfl, rfl, hpos, hr⟩
      ?_ ?_ ?_ ?_ (others_quiet l os p)⟩
    · exact hs.ok
    · exact hs.contents
    · have hlen : (Fs.contents s.disk s.ip).length < 2 ^ 32 := by
        rw [length_contents]
        exact s.ip.size.toNat_lt
      simp only [goto_off, goto_disk, goto_ip, Pc.Inside, Pc.behind, if_true, add_zero]
      split
      · rw [UInt32.toNat_add, UInt32.toNat_ofNat', ← hoff]
        omega
      · omega
    · rw [calls_quiet, horder]
      rfl
  | advanced c i n1 r =>
    obtain ⟨hsmall, rfl, rfl, hpos, hr⟩ := hfits
    have hheld : s.lock = some p := hlock.mpr rfl
    have hbehind : s.behind = 0 := by
      simp only [State.behind, hheld, hpc, Pc.behind]
    rw [hbehind] at hoff
    rw [next] at h
    rcases hr with rfl | rfl
    · rw [if_neg (by omega), if_neg (by simp)] at h
      cases h
      refine ⟨l, hs.inside (.top c (0 + c.n)) (.inl hheld) rfl rfl
        ⟨hsmall, .inr ⟨by omega, hpos⟩⟩ ?_ ?_ ?_ ?_ (others_quiet l os p)⟩
      · exact hs.ok
      · exact hs.contents
      · exact hoff
      · rw [calls_quiet, horder]
        simp only [Pc.owed, if_neg (show ¬c.n = -1 by omega),
          if_neg (show ¬0 + c.n = 0 by omega)]
    · -- the call fails
      rw [if_pos (by decide)] at h
      cases h
      obtain ⟨hfail, -⟩ := he
      rw [result, if_neg (by omega)] at hfail
      omega

theorem serial_step (hl : Layout sb) (hinum : inum < sb.ninodes) {a : P × Action} {s' : State P}
    (hs : Serial sb inum s os l) (h : step sb dev inum s a = some (s', e)) (he : e.Fine) :
    ∃ l', Serial sb inum s' (os ++ [e]) l' := by
  obtain ⟨p, act⟩ := a
  rw [step] at h
  split at h
  · next c hact hpc =>
    cases h
    have hout : ¬(s.pc p).Inside := by
      simp only at hpc
      rw [hpc]
      exact Bool.false_ne_true
    have hmax : max = 1536 := by decide
    refine ⟨l, hs.outside (.top c 0) hout Bool.false_ne_true ⟨he.trans_eq hmax.symm, .inl rfl⟩ rfl
      ?_ fun q hq => ⟨?_, rfl⟩⟩
    · have horder := hs.order p
      simp only at hpc
      rw [hpc] at horder
      rw [calls_called, horder]
      simp [Pc.owed]
    · simp [Ne.symm hq]
  · exact serial_next hl hinum hs h he
  · cases h

/-- **No write is lost.**  Processes write through one descriptor of a regular file that was
empty, at most 1536 bytes in a call, and all calls succeed.  When none is under way, the content
is the concatenation of all buffers in some order, in which the buffers of each process come in
the order of its calls, and `f->off` is the length. -/
theorem shared_writes {d : Disk} {ip : Dinode} (hl : Layout sb) (hinum : inum < sb.ninodes)
    (hok : FileOk sb inum d ip) (hempty : ip.size = 0) {is : List (P × Action)}
    (h : run (step sb dev inum) (opened d ip) is = some (s, os)) (hfine : ∀ e ∈ os, e.Fine)
    (hidle : ∀ p, s.pc p = .idle) :
    ∃ l : List (P × List UInt8), contents s.disk s.ip = l.flatMap Prod.snd ∧
      s.off.toNat = (contents s.disk s.ip).length ∧
      ∀ p, ((l.filter fun e => e.1 = p).map Prod.snd) = calls p os := by
  have hstart : Serial sb inum (opened d ip : State P) [] [] := by
    have hnil : Fs.contents d ip = [] := by
      rw [← List.length_eq_zero_iff, length_contents, hempty]
      rfl
    refine ⟨hok, fun p => by simp [opened, Pc.Inside], fun p => trivial, hnil, ?_, fun p => rfl⟩
    rw [show Fs.contents (opened d ip : State P).disk (opened d ip : State P).ip = [] from hnil]
    rfl
  have hinv := run_history_invariant
    (fun s os => (∀ e ∈ os, e.Fine) → ∃ l, Serial sb inum s os l)
    (fun s os a r hs hstep hall => by
      obtain ⟨l, hserial⟩ := hs fun e he => hall e (List.mem_append_left _ he)
      exact serial_step hl hinum hserial hstep
        (hall r.2 (List.mem_append_right _ (List.mem_singleton_self _))))
    is (opened d ip) [] (s, os) (fun _ => ⟨[], hstart⟩) h
  obtain ⟨l, hserial⟩ := hinv hfine
  have hlock : s.lock = none := by
    cases hlock : s.lock with
    | none => rfl
    | some p =>
      have hin := (hserial.lock p).mp hlock
      rw [hidle] at hin
      cases hin
  refine ⟨l, hserial.contents, ?_, fun p => ?_⟩
  · have hoff := hserial.off
    rwa [State.behind, hlock] at hoff
  · have horder := hserial.order p
    rw [hidle] at horder
    simpa [Pc.owed] using horder.symm

end Order

instance {P : Type*} : DecidablePred (Event.Fine (P := P))
  | .called _ _ => inferInstanceAs (Decidable (_ ≤ _))
  | .returned _ _ _ => inferInstanceAs (Decidable (_ ∧ _))
  | .quiet => inferInstanceAs (Decidable True)

def Pc.isIdle : Pc → Bool
  | idle => true
  | _ => false

theorem Pc.eq_idle {pc : Pc} (h : pc.isIdle = true) : pc = .idle := by
  cases pc with
  | idle => rfl
  | _ => cases h

/-- One process writes two bytes, and another one, which comes while it writes, one byte. -/
theorem shared_writes_two_processes : ∃ (s : State Bool) (os : List (Event Bool))
    (l : List (Bool × List UInt8)),
    run (step tinySb ⟨fun _ => none, fun _ => none⟩ 1) (opened tinyDisk (Dinode.blank tFile 0))
      [(true, .call ⟨fun _ => 7, 2⟩), (true, .next), (false, .call ⟨fun _ => 8, 1⟩),
        (false, .next), (true, .next), (true, .next), (true, .next), (true, .next),
        (false, .next), (false, .next), (true, .next), (false, .next), (false, .next),
        (false, .next)] = some (s, os) ∧
    contents s.disk s.ip = l.flatMap Prod.snd ∧ s.off.toNat = (contents s.disk s.ip).length ∧
    ∀ p, ((l.filter fun e => e.1 = p).map Prod.snd) = calls p os := by
  generalize his : ([(true, .call ⟨fun _ => 7, 2⟩), (true, .next), (false, .call ⟨fun _ => 8, 1⟩),
    (false, .next), (true, .next), (true, .next), (true, .next), (true, .next),
    (false, .next), (false, .next), (true, .next), (false, .next), (false, .next),
    (false, .next)] : List (Bool × Action)) = is
  have hdone : (run (step tinySb ⟨fun _ => none, fun _ => none⟩ 1)
      (opened tinyDisk (Dinode.blank tFile 0)) is).any (fun r =>
        decide (∀ e ∈ r.2, e.Fine) && (r.1.pc true).isIdle && (r.1.pc false).isIdle) = true := by
    rw [← his]
    decide +kernel
  obtain ⟨⟨s, os⟩, hrun, hall⟩ := Option.any_eq_true _ _ |>.mp hdone
  rw [Bool.and_eq_true, Bool.and_eq_true, decide_eq_true_eq] at hall
  obtain ⟨⟨hfine, htrue⟩, hfalse⟩ := hall
  have hidle : ∀ p, s.pc p = .idle := by
    intro p
    cases p with
    | true => exact Pc.eq_idle htrue
    | false => exact Pc.eq_idle hfalse
  obtain ⟨l, hl⟩ := shared_writes tinySb_layout (by decide) fileOk_tinyDisk rfl hrun hfine hidle
  exact ⟨s, os, l, hrun, hl⟩

end SharedWrite
end Xv6

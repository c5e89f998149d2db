import Xv6.Console.Read

/-!
# The line editor

What a console is for, without its ring: a queue of committed bytes, one line
being edited, and the processes that read from the queue.  The editor also keeps
the history of the bytes ever committed and of those read, and carries with it
that the bytes read are an initial part of the bytes committed, in order, and the
queue the rest.

## Main definitions

* `Editor`, `Editor.code` — the states, and what a key code does.
* `IsRead` — what a call for `n` bytes reads: the longest initial part of the queue
  of at most `n` bytes, up to the first newline and without a `^D`.
* `Pass`, `Editor.Step` — a pass of a call, and the steps of the editor.

## Main results

* `IsRead.unique` — a call reads one thing only.
* `Pass.taken` — no byte is lost or doubled on its way to a call.
* `isPass_consoleread` — a pass of `consoleread` is a pass of the editor.
* `step_implements` — **a step of the system is a step of the editor**, whenever the
  version's `consoleintr` edits as the editor does.
-/

namespace Xv6
namespace Console

open Counter

/-- A call in progress: the bytes it asked for, and those it has got so far. -/
structure Pending where
  target : ℕ
  got : List UInt8

/-- The line editor. -/
structure Editor where
  queue : List UInt8
  line : List UInt8
  /-- All bytes ever committed, and all bytes ever taken off the queue. -/
  committed : List UInt8
  consumed : List UInt8
  readers : ℕ → Option Pending
  conserve : committed = consumed ++ queue
  room : queue.length + line.length ≤ 128
  plain : 0x0A ∉ line

namespace Editor

/-- The editor at boot. -/
def boot : Editor := ⟨[], [], [], [], fun _ => none, rfl, by simp, by simp⟩

/-! ### Editing -/

/-- Kill-line: the edit line is dropped. -/
def kill (t : Editor) : Editor :=
  { t with
    line := []
    room := le_trans (by simp) t.room
    plain := by simp }

/-- Backspace: the last byte of the edit line is dropped. -/
def backspace (t : Editor) : Editor :=
  { t with
    line := t.line.dropLast
    room := le_trans (by simp) t.room
    plain := fun h => t.plain (List.mem_of_mem_dropLast h) }

/-- The byte `b` ends the edit line, which goes to the queue. -/
def submit (t : Editor) (b : UInt8) (h : t.queue.length + t.line.length < 128) : Editor :=
  { t with
    queue := t.queue ++ (t.line ++ [b])
    line := []
    committed := t.committed ++ (t.line ++ [b])
    conserve := by rw [t.conserve, List.append_assoc]
    room := by simp; omega
    plain := by simp }

/-- The byte `b`, not a newline, extends the edit line. -/
def extend (t : Editor) (b : UInt8) (h : t.queue.length + t.line.length < 128)
    (hb : b ≠ 0x0A) : Editor :=
  { t with
    line := t.line ++ [b]
    room := by simp; omega
    plain := by simpa [t.plain] using hb.symm }

/-- A byte is typed.  With 128 bytes in the editor it is refused; a newline, a `^D`
and the 128th byte end the line. -/
def type (t : Editor) (b : UInt8) : Editor :=
  if h : t.queue.length + t.line.length < 128 then
    if hb : b = 0x0A ∨ b = 0x04 ∨ t.queue.length + t.line.length + 1 = 128 then t.submit b h
    else t.extend b h fun hnl => hb (.inl hnl)
  else t

/-- What the key code `c` does, where `idle` are the codes that do nothing to the text. -/
def code (idle : ℕ → Bool) (t : Editor) (c : ℕ) : Editor :=
  if c = 0 ∨ c = 0x10 ∨ idle c then t
  else if c = 0x15 then t.kill
  else if c = 0x08 ∨ c = 0x7F then t.backspace
  else t.type (UInt8.ofNat (if c = 0x0D then 0x0A else c))

@[simp] theorem readers_code (idle : ℕ → Bool) (t : Editor) (c : ℕ) :
    (t.code idle c).readers = t.readers := by
  unfold code type
  repeat' split
  all_goals rfl

@[simp] theorem readers_foldl_code (idle : ℕ → Bool) (cs : List ℕ) (t : Editor) :
    (cs.foldl (code idle) t).readers = t.readers := by
  induction cs generalizing t with
  | nil => rfl
  | cons c cs ih => rw [List.foldl_cons, ih, readers_code]

/-! ### Reading -/

/-- `k` bytes are taken off the queue. -/
def take (t : Editor) (k : ℕ) : Editor :=
  { t with
    queue := t.queue.drop k
    consumed := t.consumed ++ t.queue.take k
    conserve := by rw [List.append_assoc, List.take_append_drop, t.conserve]
    room := le_trans (Nat.add_le_add_right (by simp) _) t.room }

/-- The process `p` is in this call, or in none. -/
def setReader (t : Editor) (p : ℕ) (rd : Option Pending) : Editor :=
  { t with readers := Function.update t.readers p rd }

end Editor

/-- What a call for `n` bytes may return: no more than `n` bytes, no `^D`, and a
newline only as the last byte. -/
structure Legal (n : ℕ) (out : List UInt8) : Prop where
  length_le : out.length ≤ n
  no_eof : 0x04 ∉ out
  newline_last : 0x0A ∉ out.dropLast

/-- **What a call for `n` bytes reads from the bytes `q`**: the longest legal initial
part. -/
structure IsRead (n : ℕ) (q out : List UInt8) : Prop where
  initial : out <+: q
  legal : Legal n out
  longest : ∀ out', out' <+: q → Legal n out' → out'.length ≤ out.length

/-- The call that reads `out` from `q` returns: it has `n` bytes, or a newline, or a
`^D` comes next.  Otherwise it waits for more. -/
def Done (n : ℕ) (q out : List UInt8) : Prop :=
  out.length = n ∨ out.getLast? = some 0x0A ∨ q[out.length]? = some 0x04

/-- A pass of a call for `n` bytes that has got `got`, over the queue `q`: the number
of bytes it takes off the queue, the bytes the call has then, and whether it returns.
A `^D` met first is taken off, and stays if the call has bytes to return. -/
inductive Pass (n : ℕ) (got q : List UInt8) : ℕ → List UInt8 → Bool → Prop
  | sleep {out : List UInt8} : IsRead n (got ++ q) out → ¬ Done n (got ++ q) out →
      Pass n got q (out.length - got.length) out false
  | ret {out : List UInt8} : IsRead n (got ++ q) out → Done n (got ++ q) out → out ≠ [] →
      Pass n got q (out.length - got.length) out true
  | eof : IsRead n (got ++ q) [] → Done n (got ++ q) [] → Pass n got q 1 [] true

/-- The steps of the line editor, with the call that returns. -/
inductive Editor.Step (idle : ℕ → Bool) :
    Editor → Event → Editor → Option (ℕ × ℤ × List UInt8) → Prop
  | intr (t : Editor) (cs : List ℕ) :
      Editor.Step idle t (.intr cs) (cs.foldl (Editor.code idle) t) none
  | call (t : Editor) (p n : ℕ) : t.readers p = none →
      Editor.Step idle t (.call p n) (t.setReader p (some ⟨n, []⟩)) none
  | busy (t : Editor) (p n : ℕ) : t.readers p ≠ none → Editor.Step idle t (.call p n) t none
  | none (t : Editor) (p : ℕ) (killed : Bool) : t.readers p = none →
      Editor.Step idle t (.pass p killed) t none
  | sleep {t : Editor} {p k : ℕ} {killed : Bool} {rd : Pending} {out : List UInt8} :
      t.readers p = some rd → Pass rd.target rd.got t.queue k out false →
      Editor.Step idle t (.pass p killed) ((t.take k).setReader p (some ⟨rd.target, out⟩)) none
  | ret {t : Editor} {p k : ℕ} {killed : Bool} {rd : Pending} {out : List UInt8} :
      t.readers p = some rd → Pass rd.target rd.got t.queue k out true →
      Editor.Step idle t (.pass p killed) ((t.take k).setReader p none)
        (some (p, out.length, out))

/-! ### What a call reads -/

theorem IsRead.unique {n : ℕ} {q out out' : List UInt8} (h : IsRead n q out)
    (h' : IsRead n q out') : out = out' := by
  have hlen : out.length = out'.length :=
    le_antisymm (h'.longest _ h.initial h.legal) (h.longest _ h'.initial h'.legal)
  rw [List.prefix_iff_eq_take.mp h.initial, List.prefix_iff_eq_take.mp h'.initial, hlen]

/-- The bytes a call has got, while it still wants more. -/
structure Partial (n : ℕ) (got : List UInt8) : Prop where
  length_lt : got.length < n
  no_eof : 0x04 ∉ got
  no_newline : 0x0A ∉ got

theorem Partial.legal {n : ℕ} {got : List UInt8} (h : Partial n got) : Legal n got :=
  ⟨h.length_lt.le, h.no_eof, fun hmem => h.no_newline (List.mem_of_mem_dropLast hmem)⟩

/-- One byte more, other than `^D`, is legal still. -/
theorem Partial.legal_concat {n : ℕ} {got : List UInt8} (h : Partial n got) {b : UInt8}
    (hb : b ≠ 0x04) : Legal n (got ++ [b]) := by
  refine ⟨?_, ?_, ?_⟩
  · rw [List.length_append, List.length_singleton]
    exact h.length_lt
  · simpa [h.no_eof] using hb.symm
  · rw [List.dropLast_concat]
    exact h.no_newline

/-- A call that has all it asked for reads no more. -/
theorem isRead_of_length {got q : List UInt8} (h : Legal got.length got) :
    IsRead got.length (got ++ q) got :=
  ⟨List.prefix_append _ _, h, fun _ _ hlegal => hlegal.length_le⟩

/-- A call that empties the queue. -/
theorem isRead_all {n : ℕ} {got : List UInt8} (h : Legal n got) : IsRead n (got ++ []) got := by
  rw [List.append_nil]
  exact ⟨List.prefix_rfl, h, fun _ hpre _ => hpre.length_le⟩

/-- Beyond `got` an initial part of `got ++ b :: q` has `got ++ [b]` in it. -/
theorem concat_of_length_lt {got q out : List UInt8} {b : UInt8} (h : out <+: got ++ b :: q)
    (hlen : got.length < out.length) : got ++ [b] <+: out := by
  have hpre : got ++ [b] <+: got ++ b :: q := ⟨q, by simp⟩
  exact List.prefix_of_prefix_length_le hpre h (by simpa using hlen)

/-- A call stops in front of a `^D`. -/
theorem isRead_eof {n : ℕ} {got q : List UInt8} (h : Legal n got) :
    IsRead n (got ++ 0x04 :: q) got := by
  refine ⟨List.prefix_append _ _, h, fun out hpre hlegal => ?_⟩
  by_contra hlt
  have hmem : 0x04 ∈ out :=
    (concat_of_length_lt hpre (not_le.mp hlt)).subset (List.mem_append_right _ (by simp))
  exact hlegal.no_eof hmem

/-- A call stops behind a newline. -/
theorem isRead_newline {n : ℕ} {got q : List UInt8} (h : Legal n (got ++ [0x0A])) :
    IsRead n (got ++ 0x0A :: q) (got ++ [0x0A]) := by
  refine ⟨⟨q, by simp⟩, h, fun out hpre hlegal => ?_⟩
  by_contra hlt
  rw [not_le, List.length_append, List.length_singleton] at hlt
  obtain ⟨rest, rfl⟩ := concat_of_length_lt hpre (by omega)
  have hrest : rest ≠ [] := by
    rintro rfl
    simp at hlt
  refine hlegal.newline_last ?_
  rw [List.dropLast_append_of_ne_nil hrest]
  simp

/-- A pass that gets a byte and goes on. -/
theorem Pass.cons {n k : ℕ} {got q out : List UInt8} {b : UInt8} {fin : Bool}
    (hlegal : Legal n (got ++ [b])) (h : Pass n (got ++ [b]) q k out fin) :
    Pass n got (b :: q) (k + 1) out fin := by
  have hq : got ++ [b] ++ q = got ++ b :: q := by simp
  -- the call reads at least what it has
  have hlen : ∀ {out}, IsRead n (got ++ b :: q) out → got.length + 1 ≤ out.length := by
    intro out hread
    simpa using hread.longest _ ⟨q, hq⟩ hlegal
  have hsub : ∀ {out : List UInt8}, got.length + 1 ≤ out.length →
      out.length - (got ++ [b]).length + 1 = out.length - got.length := by
    intro out hle
    rw [List.length_append, List.length_singleton]
    omega
  cases h with
  | sleep hread hdone =>
    rw [hq] at hread hdone
    rw [hsub (hlen hread)]
    exact .sleep hread hdone
  | ret hread hdone hne =>
    rw [hq] at hread hdone
    rw [hsub (hlen hread)]
    exact .ret hread hdone hne
  | eof hread hdone =>
    rw [hq] at hread
    exact absurd (hlen hread) (by simp)

/-- **No byte is lost or doubled on its way to a call.**  What a pass takes off the
queue is what the call gets, or the `^D` that makes it return nothing. -/
theorem Pass.taken {n k : ℕ} {got q out : List UInt8} {fin : Bool}
    (h : Pass n got q k out fin) (hgot : Partial n got) :
    out = got ++ q.take k ∨ got = [] ∧ out = [] ∧ q.take k = [0x04] := by
  have hlen : ∀ {out}, IsRead n (got ++ q) out → got.length ≤ out.length :=
    fun hread => hread.longest _ (List.prefix_append _ _) hgot.legal
  have hout : ∀ {out}, IsRead n (got ++ q) out →
      out = got ++ q.take (out.length - got.length) := by
    intro out hread
    have hpre := List.prefix_iff_eq_take.mp hread.initial
    rw [List.take_append, List.take_of_length_le (hlen hread)] at hpre
    exact hpre
  cases h with
  | sleep hread => exact .inl (hout hread)
  | ret hread => exact .inl (hout hread)
  | eof hread hdone =>
    have hnil : got = [] := List.length_eq_zero_iff.mp (Nat.le_zero.mp (hlen hread))
    subst hnil
    refine .inr ⟨rfl, rfl, ?_⟩
    rcases hdone with hdone | hdone | hdone
    · exact absurd hdone hgot.length_lt.ne
    · contradiction
    · cases q with
      | nil => contradiction
      | cons b q => simpa using hdone

/-! ### The code reads so -/

/-- How a pass that the editor answers with `out` and `fin` ends. -/
def outcome (target : ℕ) (out : List UInt8) (fin : Bool) : Outcome :=
  if fin then .ret out.length out else .sleep ⟨target, target - out.length, out⟩

/-- What a pass from the ring `g` to the ring and outcome `p` is in the editor. -/
def IsPass (target : ℕ) (got : List UInt8) (g : Input) (p : Input × Outcome) : Prop :=
  ∃ k out fin, Pass target got g.queue k out fin ∧ p.2 = outcome target out fin ∧
    p.1.queue = g.queue.drop k ∧ p.1.line = g.line ∧ (fin = false → Partial target out)

theorem isPass_readLoop {target : ℕ} (htarget : 0 < target) :
    ∀ (n : ℕ) (dst : List UInt8) {g : Input}, g.Ok → n + dst.length = target → 0x04 ∉ dst →
      0x0A ∉ dst → IsPass target dst g (readLoop target false n dst g) := by
  intro n
  induction n with
  | zero =>
    intro dst g _ hn heof hnl
    have hlen : dst.length = target := by omega
    have hread : IsRead target (dst ++ g.queue) dst := by
      rw [← hlen]
      exact isRead_of_length ⟨le_rfl, heof, fun h => hnl (List.mem_of_mem_dropLast h)⟩
    have hne : dst ≠ [] := by
      rintro rfl
      exact htarget.ne hlen
    refine ⟨_, dst, true, .ret hread (.inl hlen) hne, ?_, ?_, rfl, by simp⟩
    · rw [outcome, if_pos rfl, hlen]
      rfl
    · rw [Nat.sub_self, List.drop_zero]
      rfl
  | succ n ih =>
    intro dst g hg hn heof hnl
    have hpart : Partial target dst := ⟨by omega, heof, hnl⟩
    have hval : ((target : ℤ) - (n + 1 : ℕ)) = (dst.length : ℕ) := by omega
    unfold readLoop
    split
    · next hempty =>
      -- the queue is empty: the call sleeps
      have hqueue : g.queue = [] := Input.queue_eq_nil.mpr hempty
      refine ⟨_, dst, false, .sleep (hqueue ▸ isRead_all hpart.legal) ?_, ?_, ?_, rfl,
        fun _ => hpart⟩
      · rw [hqueue, List.append_nil]
        rintro (h | h | h)
        · exact hpart.length_lt.ne h
        · exact hnl (List.mem_of_getLast? h)
        · simp at h
      · rw [outcome, if_neg (by simp), if_neg (by simp), ← hn, Nat.add_sub_cancel]
      · rw [if_neg (by simp), Nat.sub_self, List.drop_zero]
    · next hne =>
      have hcons := Input.queue_eq_cons hne
      have htake : g.take.Ok := hg.toBounds.take hne
      dsimp only
      split
      · next hc =>
        -- a `^D` stays in the queue unless the call has nothing to return
        rw [hc] at hcons
        have hread : IsRead target (dst ++ g.queue) dst := hcons ▸ isRead_eof hpart.legal
        have hdone : Done target (dst ++ g.queue) dst := by
          refine .inr (.inr ?_)
          rw [hcons]
          simp
        rw [Input.untake_take, hval]
        rcases eq_or_ne dst [] with rfl | hdst
        · refine ⟨1, [], true, .eof hread hdone, rfl, ?_, ?_, by simp⟩
          · rw [if_neg (by simp at hn; omega), hcons]
            rfl
          · rw [if_neg (by simp at hn; omega), Input.line_take]
        · have hpos := List.length_pos_iff.mpr hdst
          refine ⟨_, dst, true, .ret hread hdone hdst, rfl, ?_, ?_, by simp⟩
          · rw [if_pos (by omega), Nat.sub_self, List.drop_zero]
          · rw [if_pos (by omega)]
      · next hc =>
        have hlegal := hpart.legal_concat hc
        split
        · next hnewline =>
          rw [hnewline] at hcons hlegal ⊢
          have hread := isRead_newline (q := g.take.queue) hlegal
          rw [← hcons] at hread
          refine ⟨_, _, true, .ret hread (.inr (.inl (by simp))) (by simp), ?_, ?_,
            Input.line_take g, by simp⟩
          · have hval' : (target : ℤ) - n = (dst.length + 1 : ℕ) := by omega
            rw [outcome, if_pos rfl, List.length_append, List.length_singleton, hval']
          · rw [hcons]
            simp
        · next hnewline =>
          have hlen : n + (dst ++ [g.get g.r]).length = target := by
            rw [List.length_append, List.length_singleton]
            omega
          obtain ⟨k, out, fin, hpass, hout, hqueue, hline, hrest⟩ :=
            ih (dst ++ [g.get g.r]) htake hlen (by simpa [heof] using Ne.symm hc)
              (by simpa [hnl] using Ne.symm hnewline)
          refine ⟨k + 1, out, fin, ?_, hout, ?_, hline, hrest⟩
          · rw [hcons]
            exact hpass.cons hlegal
          · rw [hqueue, hcons]
            rfl

/-- **A pass of `consoleread` is a pass of the editor**, for a call that has bytes to
get. -/
theorem isPass_consoleread {g : Input} (h : g.Ok) {rd : Reader}
    (hrd : Partial rd.target rd.dst) (hn : rd.n + rd.dst.length = rd.target) :
    IsPass rd.target rd.dst g (consoleread g rd false) :=
  isPass_readLoop (by have := hrd.length_lt; omega) _ _ h hn hrd.no_eof hrd.no_newline

/-- The ring `g` holds the text of the editor `t`. -/
structure Holds (g : Input) (t : Editor) : Prop where
  ok : g.Ok
  queue : g.queue = t.queue
  line : g.line = t.line

theorem holds_boot : Holds Input.boot Editor.boot := ⟨Input.ok_boot, rfl, rfl⟩

section Edit

variable {g : Input} {t : Editor}

theorem Holds.length (h : Holds g t) : dist g.r g.e = t.queue.length + t.line.length := by
  rw [← h.ok.toBounds.length_add, h.queue, h.line]

theorem Holds.killLine (h : Holds g t) : Holds (killLine g).1 t.kill := by
  refine ⟨ok_killLine h.ok, (queue_killLine g).trans h.queue, ?_⟩
  -- there is no newline in the line to stop at
  rw [line_killLine, h.line]
  refine List.rdropWhile_eq_nil_iff.mpr fun b hb => ?_
  rw [decide_eq_true_eq]
  rintro rfl
  exact t.plain hb

theorem Holds.backspace (h : Holds g t) : Holds (backspace g).1 t.backspace :=
  ⟨ok_backspace h.ok, (queue_backspace g).trans h.queue, by
    rw [line_backspace, h.line]
    rfl⟩

/-- The byte that a code in the range of a byte leaves is the code. -/
theorem byteOf_eq_iff {c b : ℕ} (hc : c < 256) (hb : b < 256) :
    byteOf c = UInt8.ofNat b ↔ crToNl c = b := by
  have hcr : crToNl c < 256 := by
    unfold crToNl
    split <;> omega
  rw [byteOf, ← UInt8.toNat_inj, UInt8.toNat_ofNat', UInt8.toNat_ofNat', Nat.mod_eq_of_lt hcr,
    Nat.mod_eq_of_lt hb]

theorem Holds.insert (h : Holds g t) {c : ℕ} (h0 : c ≠ 0) (hc : c < 256) :
    Holds (insert g c).1 (t.type (byteOf c)) := by
  suffices hlists : (Console.insert g c).1.queue = (t.type (byteOf c)).queue ∧
      (Console.insert g c).1.line = (t.type (byteOf c)).line from
    ⟨ok_insert h.ok c, hlists.1, hlists.2⟩
  have hcommit : Commits (dist g.r g.e) c ↔
      byteOf c = 0x0A ∨ byteOf c = 0x04 ∨ t.queue.length + t.line.length + 1 = 128 := by
    rw [Commits, h.length]
    exact or_congr (byteOf_eq_iff hc (by decide)).symm
      (or_congr (byteOf_eq_iff hc (by decide)).symm Iff.rfl)
  unfold Editor.type
  split
  · next hlt =>
    rw [← h.length] at hlt
    split
    · next hend =>
      obtain ⟨hqueue, hline⟩ := insert_of_commit h.ok.toBounds h0 hlt (hcommit.mpr hend)
      rw [hqueue, hline, h.queue, h.line, List.append_assoc]
      exact ⟨rfl, rfl⟩
    · next hend =>
      obtain ⟨hqueue, hline⟩ :=
        insert_of_extend h.ok.toBounds h0 hlt (fun hcm => hend (hcommit.mp hcm))
      rw [hqueue, hline, h.queue, h.line]
      exact ⟨rfl, rfl⟩
  · next hfull =>
    rw [← h.length] at hfull
    rw [insert_of_refuse (.inr (not_lt.mp hfull))]
    exact ⟨h.queue, h.line⟩

end Edit

/-! ### Refinement -/

/-- The events the editor speaks of: key codes in the range of a byte, calls for at
least one byte, and passes of processes that are not killed. -/
def Valid : Event → Prop
  | .intr cs => ∀ c ∈ cs, c < 256
  | .call _ n => 0 < n
  | .pass _ killed => killed = false

instance : ∀ ev, Decidable (Valid ev)
  | .intr _ => inferInstanceAs (Decidable (∀ _ ∈ _, _))
  | .call _ _ => inferInstanceAs (Decidable (_ < _))
  | .pass _ _ => inferInstanceAs (Decidable (_ = _))

/-- The system `s` implements the editor `t`: the ring holds its text, and the calls
in progress are the same and want more bytes. -/
structure Implements {κ : Type} (s : Sys κ) (t : Editor) : Prop where
  holds : Holds s.input t
  readers : ∀ p, t.readers p = (s.readers p).map fun rd => ⟨rd.target, rd.dst⟩
  wants : ∀ p rd, s.readers p = some rd →
    Partial rd.target rd.dst ∧ rd.n + rd.dst.length = rd.target

theorem implements_boot {κ : Type} (dev : κ) : Implements (Sys.boot dev) Editor.boot :=
  ⟨holds_boot, fun _ => rfl, fun _ _ h => by contradiction⟩

/-- Changing the call of one process, to the same in the system and the editor. -/
theorem Implements.setReader {κ : Type} {s : Sys κ} {t t' : Editor} (h : Implements s t)
    {g : Input} (hg : Holds g t') (ht : t'.readers = t.readers) (p : ℕ) (rd : Option Reader)
    (hrd : ∀ rd' ∈ rd, Partial rd'.target rd'.dst ∧ rd'.n + rd'.dst.length = rd'.target) :
    Implements { s with input := g, readers := Function.update s.readers p rd }
      (t'.setReader p (rd.map fun rd => ⟨rd.target, rd.dst⟩)) := by
  refine ⟨⟨hg.ok, hg.queue, hg.line⟩, fun p' => ?_, fun p' rd' hp' => ?_⟩
  · rcases eq_or_ne p' p with rfl | hp
    · simp [Editor.setReader]
    · simp [Editor.setReader, hp, ht, h.readers]
  · rcases eq_or_ne p' p with rfl | hp
    · exact hrd rd' (by simpa using hp')
    · exact h.wants p' rd' (by simpa [hp] using hp')

/-- **One step of the system is one step of the editor**, if the version's
`consoleintr` edits as the editor does. -/
theorem step_implements {κ : Type} {intr : Input → κ → List ℕ → Option (Input × κ × List Out)}
    {idle : ℕ → Bool}
    (hintr : ∀ g k t cs, Holds g t → (∀ c ∈ cs, c < 256) →
      ∃ q, intr g k cs = some q ∧ Holds q.1 (cs.foldl (Editor.code idle) t))
    (s : Sys κ) (t : Editor) (ev : Event) (h : Implements s t) (hev : Valid ev) :
    ∃ p t', s.step intr ev = some p ∧ Editor.Step idle t ev t' p.2.ret ∧ Implements p.1 t' := by
  cases ev with
  | intr cs =>
    obtain ⟨q, hq, hholds⟩ := hintr s.input s.dev t cs h.holds hev
    refine ⟨_, _, Sys.step_intr hq, .intr t cs, hholds, fun p => ?_, h.wants⟩
    rw [Editor.readers_foldl_code]
    exact h.readers p
  | call p n =>
    cases hrd : s.readers p with
    | some rd =>
      refine ⟨_, t, Sys.step_call_busy hrd, .busy t p n ?_, h⟩
      rw [h.readers, hrd]
      simp
    | none =>
      refine ⟨_, _, Sys.step_call_free hrd, .call t p n ?_, ?_⟩
      · rw [h.readers, hrd]
        rfl
      · refine h.setReader h.holds rfl p (some ⟨n, n, []⟩) fun rd' hrd' => ?_
        cases hrd'
        exact ⟨⟨hev, by simp, by simp⟩, rfl⟩
  | pass p killed =>
    have hkilled : killed = false := hev
    subst hkilled
    cases hrd : s.readers p with
    | none =>
      refine ⟨_, t, Sys.step_pass_none hrd, .none t p false ?_, h⟩
      rw [h.readers, hrd]
      rfl
    | some rd =>
      have ht : t.readers p = some ⟨rd.target, rd.dst⟩ := by
        rw [h.readers, hrd]
        rfl
      obtain ⟨hpart, hn⟩ := h.wants p rd hrd
      obtain ⟨k, out, fin, hpass, hout, hqueue, hline, hrest⟩ :=
        isPass_consoleread h.holds.ok hpart hn
      have hok := ok_consoleread h.holds.ok rd false
      rcases hread : consoleread s.input rd false with ⟨g, o⟩
      rw [hread] at hout hqueue hline hok
      rw [h.holds.queue] at hpass hqueue
      dsimp only at hout hqueue hline hok
      have hg : Holds g (t.take k) := ⟨hok, hqueue, hline.trans h.holds.line⟩
      subst hout
      -- the pass ends the call, or the reader sleeps
      cases fin with
      | true =>
        refine ⟨_, _, Sys.step_pass_ret hrd hread, .ret ht hpass, ?_⟩
        exact h.setReader hg rfl p none (by simp)
      | false =>
        refine ⟨_, _, Sys.step_pass_sleep hrd hread, .sleep ht hpass, ?_⟩
        refine h.setReader hg rfl p (some ⟨rd.target, rd.target - out.length, out⟩) ?_
        intro rd' hrd'
        cases hrd'
        exact ⟨hrest rfl, Nat.sub_add_cancel (hrest rfl).length_lt.le⟩

end Console
end Xv6

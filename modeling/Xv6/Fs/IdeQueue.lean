import Xv6.Fs.Disk
import Xv6.Lib.Chain
import Xv6.Lib.Machine

/-!
# The queue of the disk driver

`idestart`, `ideintr` and `iderw` of `ide.c`, with the ports of the device and what it does with
them.  Processes lock buffers, change them and ask for them, and the device interrupts, in any
order.

## Main definitions

* `State` — the buffers and their queue, the processes, the device and its two disks.
* `outb`, `decode` — the device takes a command from its ports.
* `idestart`, `ideintr`, `iderw`, `step` — the driver, and a step of the system.
* `Inv` — the queue is what has been asked for and not completed, and its head is being served.

## Main results

* `ide_run` — **requests are completed in their order, each once; and what is read is read from its
  block, as long as no read ends with an error.**
-/

namespace Xv6
namespace Ide

open Fs Links Machine

def fssize : ℕ := 1000

/-! ### The device -/

/-- What the device is told to do with a sector. -/
structure Command where
  drive : ℕ
  sector : ℕ
  count : ℕ
  write : Bool
  deriving DecidableEq, Repr

/-- The ports, the data that goes through `0x1f0`, and the command that is being served. -/
structure Device where
  port : ℕ → ℕ
  data : Block
  current : Option Command

def ideCmdRead : ℕ := 0x20

def ideCmdWrite : ℕ := 0x30

def ideDf : UInt8 := 0x20

def ideErr : UInt8 := 0x01

/-- How the device reads its ports. -/
def decode (port : ℕ → ℕ) : Command where
  drive := port 0x1f6 / 2 ^ 4 % 2
  sector := port 0x1f3 + port 0x1f4 * 2 ^ 8 + port 0x1f5 * 2 ^ 16 + port 0x1f6 % 2 ^ 4 * 2 ^ 24
  count := port 0x1f2
  write := port 0x1f7 = ideCmdWrite

/-- `outb`.  A byte in the last port is a command. -/
def outb (d : Device) (port v : ℕ) : Device :=
  let d := { d with port := Function.update d.port port v }
  if port = 0x1f7 then { d with current := some (decode d.port) } else d

/-- `idewait`, with the status of the device when it is ready. -/
def idewait (checkerr : Bool) (status : UInt8) : ℤ :=
  if checkerr ∧ status &&& (ideDf ||| ideErr) ≠ 0 then -1 else 0

/-! ### The system -/

structure Buf where
  /-- `B_VALID` -/
  valid : Bool
  /-- `B_DIRTY` -/
  dirty : Bool
  dev : UInt32
  blockno : UInt32
  data : Block

/-- The buffers `B` and the processes `P`. -/
structure State (B P : Type) where
  buf : B → Buf
  qnext : B → Option B
  idequeue : Option B
  /-- Who holds the lock of a buffer. -/
  lock : B → Option P
  /-- The buffer that the process has called `iderw` for, and whether it sleeps there. -/
  waiting : P → Option B
  asleep : P → Bool
  device : Device
  disk : ℕ → ℕ → Block
  havedisk1 : Bool

variable {B P : Type}

/-- The ports that tell the device the sector. -/
def address (d : Device) (buf : Buf) : Device :=
  let sector := buf.blockno.toNat
  let d := outb d 0x3f6 0
  let d := outb d 0x1f2 1
  let d := outb d 0x1f3 (sector &&& 0xff)
  let d := outb d 0x1f4 (sector >>> 8 &&& 0xff)
  let d := outb d 0x1f5 (sector >>> 16 &&& 0xff)
  outb d 0x1f6 (0xe0 ||| (buf.dev.toNat &&& 1) <<< 4 ||| (sector >>> 24 &&& 0x0f))

/-- `idestart` -/
def idestart (s : State B P) (b : B) : Option (State B P) :=
  let buf := s.buf b
  if fssize ≤ buf.blockno.toNat then none
  else
    let d := address s.device buf
    if buf.dirty then
      let d := outb d 0x1f7 ideCmdWrite
      some { s with device := { d with data := buf.data } }
    else some { s with device := outb d 0x1f7 ideCmdRead }

/-- What the device does before it interrupts: it fails just if its status says so, and what a
failed write leaves on the disk is `torn`. -/
def serve (s : State B P) (status : UInt8) (torn : Block) : State B P :=
  match s.device.current with
  | none => s
  | some c =>
    let failed := decide (status &&& (ideDf ||| ideErr) ≠ 0)
    let d := { s.device with current := none }
    if c.write then
      let data := if failed then torn else s.device.data
      { s with
        device := d
        disk := Function.update s.disk c.drive (Function.update (s.disk c.drive) c.sector data) }
    else
      { s with device := if failed then d else { d with data := s.disk c.drive c.sector } }

/-- A request that is completed: for which buffer, whether it is a read, and from where `insl` has
copied the data; and what is in the buffer and in its block then. -/
structure Completion (B : Type) where
  buf : B
  read : Bool
  dev : UInt32
  blockno : UInt32
  source : Option (ℕ × ℕ)
  data : Block
  onDisk : Block

inductive Event (B : Type)
  | submitted (b : B)
  | completed (c : Completion B)
  | other

section Driver

variable [DecidableEq B]

/-- `ideintr`, for the buffer that it has taken from the queue, before it starts the next one. -/
def finish (s : State B P) (b : B) (status : UInt8) (torn : Block) : State B P × Completion B :=
  let source := s.device.current.map fun c => (c.drive, c.sector)
  let s := serve s status torn
  let buf := s.buf b
  -- read data if needed
  let copied := decide (buf.dirty = false ∧ 0 ≤ idewait true status)
  let data := if copied then s.device.data else buf.data
  ({ s with
      idequeue := s.qnext b
      buf := Function.update s.buf b { buf with data := data, valid := true, dirty := false }
      -- wake the process that waits for this buffer
      asleep := fun p => if s.waiting p = some b then false else s.asleep p },
    { buf := b, read := !buf.dirty, dev := buf.dev, blockno := buf.blockno
      source := if copied then source else none
      data := data, onDisk := s.disk (buf.dev.toNat % 2) buf.blockno.toNat })

/-- `ideintr` -/
def ideintr (s : State B P) (status : UInt8) (torn : Block) : Option (State B P × Event B) :=
  match s.idequeue with
  | none => some (s, .other)
  | some b =>
    let x := finish s b status torn
    match x.1.idequeue with
    | none => some (x.1, .completed x.2)
    | some c => (idestart x.1 c).map fun s => (s, .completed x.2)

variable [DecidableEq P] [Fintype B]

/-- `iderw`, up to the first call of `sleep`. -/
def iderw (s : State B P) (p : P) (b : B) : Option (State B P × Event B) :=
  let buf := s.buf b
  if s.lock b ≠ some p then none
  else if buf.valid ∧ buf.dirty = false then none
  else if buf.dev ≠ 0 ∧ s.havedisk1 = false then none
  else
    let qnext := Function.update s.qnext b none
    let s := { s with
      waiting := Function.update s.waiting p (some b)
      asleep := Function.update s.asleep p true }
    match s.idequeue with
    | none =>
      (idestart { s with qnext := qnext, idequeue := some b } b).map fun s => (s, .submitted b)
    | some a =>
      (last qnext (Fintype.card B) a).map fun z =>
        ({ s with qnext := Function.update qnext z (some b) }, .submitted b)

inductive Action (B P : Type)
  /-- `acquiresleep` of a buffer. -/
  | acquire (p : P) (b : B)
  /-- `bget` takes a buffer that nobody uses for another block. -/
  | recycle (b : B) (dev blockno : UInt32)
  /-- The holder of the lock writes into the buffer, and may mark it dirty. -/
  | modify (p : P) (b : B) (data : Block) (dirty : Bool)
  | iderw (p : P) (b : B)
  /-- An interrupt, with the status of the device. -/
  | intr (status : UInt8) (torn : Block)
  /-- `iderw` returns. -/
  | ret (p : P)
  /-- `releasesleep` -/
  | release (p : P) (b : B)

/-- A step; there is none if the kernel panics. -/
def step (s : State B P) : Action B P → Option (State B P × Event B)
  | .acquire p b =>
    if s.waiting p = none ∧ s.lock b = none then
      some ({ s with lock := Function.update s.lock b (some p) }, .other)
    else none
  | .recycle b dev blockno =>
    let buf := { s.buf b with valid := false, dirty := false, dev := dev, blockno := blockno }
    if s.lock b = none ∧ (s.buf b).dirty = false then
      some ({ s with buf := Function.update s.buf b buf }, .other)
    else none
  | .modify p b data dirty =>
    let buf := { s.buf b with data := data, dirty := (s.buf b).dirty || dirty }
    if s.waiting p = none ∧ s.lock b = some p then
      some ({ s with buf := Function.update s.buf b buf }, .other)
    else none
  | .iderw p b => if s.waiting p = none then iderw s p b else none
  | .intr status torn => ideintr s status torn
  | .ret p =>
    match s.waiting p with
    | none => none
    | some b =>
      if s.asleep p = false ∧ (s.buf b).valid ∧ (s.buf b).dirty = false then
        some ({ s with waiting := Function.update s.waiting p none }, .other)
      else none
  | .release p b =>
    if s.waiting p = none ∧ s.lock b = some p then
      some ({ s with lock := Function.update s.lock b none }, .other)
    else none

end Driver

/-! ### What holds -/

/-- The command for a buffer. -/
def request (buf : Buf) : Command := ⟨buf.dev.toNat % 2, buf.blockno.toNat, 1, buf.dirty⟩

/-- The buffers that have been asked for, in their order. -/
def submitted (os : List (Event B)) : List B :=
  os.filterMap fun
    | .submitted b => some b
    | _ => none

/-- The buffers for which the request is completed. -/
def completed (os : List (Event B)) : List B :=
  os.filterMap fun
    | .completed c => some c.buf
    | _ => none

/-- What was read was read from the block. -/
def Transferred (c : Completion B) : Prop :=
  c.read = true → c.source = some (c.dev.toNat % 2, c.blockno.toNat) ∧ c.data = c.onDisk

/-- The queue is `l`, and its head is being served. -/
structure Served (s : State B P) (l : List B) : Prop where
  chain : Chain s.qnext s.idequeue l
  nodup : l.Nodup
  current : s.device.current = l.head?.map fun b => request (s.buf b)
  /-- A process holds the buffer and sleeps in `iderw`. -/
  owner : ∀ b ∈ l, ∃ p, s.lock b = some p ∧ s.waiting p = some b ∧ s.asleep p = true

/-- The queue is what has been asked for and is not completed. -/
def Inv (s : State B P) (os : List (Event B)) : Prop :=
  ∃ l, Served s l ∧ submitted os = completed os ++ l

/-- No interrupt finds a read at the head of the queue, and an error. -/
def Clean (s : State B P) : Action B P → Prop
  | .intr status _ => ∀ b, s.idequeue = some b → (s.buf b).dirty = false →
      status &&& (ideDf ||| ideErr) = 0
  | _ => True

variable {s s' : State B P} {b : B} {p : P} {l : List B} {e : Event B} {os : List (Event B)}
  {status : UInt8} {torn : Block}

/-- A buffer in the queue belongs to a process in `iderw`. -/
theorem Served.notMem (h : Served s l) (hno : ∀ p, s.lock b = some p → s.waiting p ≠ some b) :
    b ∉ l := by
  intro hb
  obtain ⟨p, hlock, hwait, -⟩ := h.owner b hb
  exact hno p hlock hwait

/-- A step that leaves the queue and its buffers alone. -/
theorem Served.frame (h : Served s l) (hnext : s'.qnext = s.qnext)
    (hhead : s'.idequeue = s.idequeue) (hdev : s'.device = s.device)
    (hbuf : ∀ b ∈ l, s'.buf b = s.buf b)
    (howner : ∀ b ∈ l, ∀ p, s.lock b = some p ∧ s.waiting p = some b ∧ s.asleep p = true →
      s'.lock b = some p ∧ s'.waiting p = some b ∧ s'.asleep p = true) :
    Served s' l where
  chain := by
    rw [hnext, hhead]
    exact h.chain
  nodup := h.nodup
  current := by
    rw [hdev, h.current]
    cases l with
    | nil => rfl
    | cons b l => rw [List.head?_cons, Option.map_some, Option.map_some, hbuf b List.mem_cons_self]
  owner := fun b hb => (h.owner b hb).imp (howner b hb)

/-- Nothing is in the queue, and the device has nothing to do. -/
structure Idle (s : State B P) : Prop where
  queue : s.idequeue = none
  device : s.device.current = none

theorem Idle.inv (h : Idle s) : Inv s [] := by
  refine ⟨[], ⟨h.queue, List.nodup_nil, ?_, nofun⟩, rfl⟩
  rw [h.device]
  rfl

/-- **The ports** give the device the request for the buffer. -/
theorem outb_address {d : Device} {buf : Buf} (h : buf.blockno.toNat < fssize) (v : ℕ) :
    (outb (address d buf) 0x1f7 v).current =
      some ⟨buf.dev.toNat % 2, buf.blockno.toNat, 1, v = ideCmdWrite⟩ := by
  rw [fssize] at h
  have hlow : buf.blockno.toNat &&& 0xff = buf.blockno.toNat % 2 ^ 8 :=
    Nat.and_two_pow_sub_one_eq_mod _ 8
  have hmid : buf.blockno.toNat >>> 8 &&& 0xff = buf.blockno.toNat / 2 ^ 8 % 2 ^ 8 := by
    rw [Nat.shiftRight_eq_div_pow]
    exact Nat.and_two_pow_sub_one_eq_mod _ 8
  have hhigh : buf.blockno.toNat >>> 16 = 0 := by
    rw [Nat.shiftRight_eq_div_pow, Nat.div_eq_of_lt (by omega)]
  have htop : buf.blockno.toNat >>> 24 = 0 := by
    rw [Nat.shiftRight_eq_div_pow, Nat.div_eq_of_lt (by omega)]
  have hdev : buf.dev.toNat &&& 1 = buf.dev.toNat % 2 := Nat.and_two_pow_sub_one_eq_mod _ 1
  have hdrive : (0xe0 ||| (buf.dev.toNat % 2) <<< 4) / 16 % 2 = buf.dev.toNat % 2 ∧
      (0xe0 ||| (buf.dev.toNat % 2) <<< 4) % 16 = 0 := by
    rcases Nat.mod_two_eq_zero_or_one buf.dev.toNat with hmod | hmod <;> rw [hmod] <;> decide
  simp only [address, outb, decode, hlow, hmid, hhigh, htop, hdev, Nat.zero_and, Nat.or_zero]
  simp only [Function.update_apply]
  norm_num
  rw [hdrive.2]
  exact ⟨hdrive.1, by omega⟩

theorem idestart_spec (h : idestart s b = some s') :
    s' = { s with device := s'.device } ∧ s'.device.current = some (request (s.buf b)) := by
  rw [idestart] at h
  split at h
  · cases h
  · next hlt =>
    have hcurrent := fun v => outb_address (d := s.device) (Nat.lt_of_not_le hlt) v
    dsimp only at h
    split at h
    · next hdirty =>
      cases h
      refine ⟨rfl, ?_⟩
      dsimp only
      rw [hcurrent, request, hdirty]
      rfl
    · next hclean =>
      cases h
      refine ⟨rfl, ?_⟩
      dsimp only
      rw [hcurrent, request, Bool.eq_false_iff.mpr hclean]
      rfl

/-- What the device does before it interrupts, for the request of a buffer. -/
theorem serve_spec (status : UInt8) (torn : Block)
    (hcur : s.device.current = some (request (s.buf b))) :
    serve s status torn =
      { s with device := (serve s status torn).device, disk := (serve s status torn).disk } ∧
    (serve s status torn).device.current = none ∧
    ((s.buf b).dirty = false → (serve s status torn).disk = s.disk ∧
      (status &&& (ideDf ||| ideErr) = 0 → (serve s status torn).device.data =
        s.disk ((s.buf b).dev.toNat % 2) (s.buf b).blockno.toNat)) := by
  rw [serve, hcur, request]
  dsimp only
  split
  · next hdirty =>
    exact ⟨rfl, rfl, fun hclean => by rw [hclean] at hdirty; cases hdirty⟩
  · by_cases hok : status &&& (ideDf ||| ideErr) = 0
    · have hfailed : decide (status &&& (ideDf ||| ideErr) ≠ 0) = false := by simp [hok]
      rw [hfailed]
      exact ⟨rfl, rfl, fun _ => ⟨rfl, fun _ => rfl⟩⟩
    · have hfailed : decide (status &&& (ideDf ||| ideErr) ≠ 0) = true := by simp [hok]
      rw [hfailed]
      exact ⟨rfl, rfl, fun _ => ⟨rfl, fun h => absurd h hok⟩⟩

section Steps

variable [DecidableEq B]

/-- A status without an error. -/
theorem idewait_nonneg : 0 ≤ idewait true status ↔ status &&& (ideDf ||| ideErr) = 0 := by
  rw [idewait]
  split
  · next h => exact iff_of_false (by decide) h.2
  · next h => exact iff_of_true le_rfl (by simpa using h)

/-- What was read was read from the block, unless there was an error. -/
theorem finish_transferred (status : UInt8) (torn : Block)
    (hcur : s.device.current = some (request (s.buf b))) :
    Transferred (finish s b status torn).2 ↔
      ((s.buf b).dirty = false → status &&& (ideDf ||| ideErr) = 0) := by
  obtain ⟨hserve, -, hread⟩ := serve_spec status torn hcur
  have hbuf : (serve s status torn).buf = s.buf := by rw [hserve]
  rw [Transferred, finish]
  dsimp only
  rw [hbuf, hcur]
  cases hdirty : (s.buf b).dirty with
  | true => exact iff_of_true nofun nofun
  | false =>
    obtain ⟨hdisk, hdata⟩ := hread hdirty
    rw [hdisk]
    by_cases hok : status &&& (ideDf ||| ideErr) = 0
    · have hcopied : decide (false = false ∧ 0 ≤ idewait true status) = true :=
        decide_eq_true ⟨rfl, idewait_nonneg.mpr hok⟩
      rw [hcopied, if_pos rfl, if_pos rfl, hdata hok]
      exact iff_of_true (fun _ => ⟨rfl, rfl⟩) fun _ => hok
    · have hcopied : decide (false = false ∧ 0 ≤ idewait true status) = false :=
        decide_eq_false fun hand => hok (idewait_nonneg.mp hand.2)
      rw [hcopied, if_neg Bool.false_ne_true]
      exact iff_of_false (fun hsource => nomatch (hsource rfl).1) fun hstatus => hok (hstatus rfl)

/-- The queue without its head. -/
theorem finish_served (status : UInt8) (torn : Block) (h : Served s (b :: l)) :
    Chain (finish s b status torn).1.qnext (finish s b status torn).1.idequeue l ∧
      (finish s b status torn).1.device.current = none ∧
      (∀ c ∈ l, (finish s b status torn).1.buf c = s.buf c) ∧
      ∀ c ∈ l, ∃ p, (finish s b status torn).1.lock c = some p ∧
        (finish s b status torn).1.waiting p = some c ∧
        (finish s b status torn).1.asleep p = true := by
  obtain ⟨hserve, hnone, -⟩ := serve_spec status torn h.current
  have hne : ∀ c ∈ l, c ≠ b := fun c hc heq => (List.nodup_cons.mp h.nodup).1 (heq ▸ hc)
  have hsame : (serve s status torn).buf = s.buf ∧ (serve s status torn).qnext = s.qnext ∧
      (serve s status torn).lock = s.lock ∧ (serve s status torn).waiting = s.waiting ∧
      (serve s status torn).asleep = s.asleep := by
    rw [hserve]
    exact ⟨rfl, rfl, rfl, rfl, rfl⟩
  obtain ⟨hbuf, hnext, hlock, hwait, hsleep⟩ := hsame
  simp only [finish, hbuf, hnext, hlock, hwait, hsleep]
  refine ⟨h.chain.2, hnone, fun c hc => Function.update_of_ne (hne c hc) _ _, fun c hc => ?_⟩
  obtain ⟨p, hl, hw, hs⟩ := h.owner c (List.mem_cons_of_mem b hc)
  have hother : s.waiting p ≠ some b := by
    rw [hw]
    exact fun heq => hne c hc (Option.some.inj heq)
  exact ⟨p, hl, hw, by rw [if_neg hother, hs]⟩

/-- **An interrupt** completes the request at the head of the queue. -/
theorem ideintr_spec (h : Served s l) (hstep : ideintr s status torn = some (s', e)) :
    (l = [] ∧ s' = s ∧ e = .other) ∨
      ∃ b l' c, l = b :: l' ∧ Served s' l' ∧ e = .completed c ∧ c.buf = b ∧
        (Transferred c ↔ ((s.buf b).dirty = false → status &&& (ideDf ||| ideErr) = 0)) := by
  rw [ideintr] at hstep
  cases l with
  | nil =>
    have hnil : s.idequeue = none := h.chain
    rw [hnil] at hstep
    cases hstep
    exact .inl ⟨rfl, rfl, rfl⟩
  | cons b l =>
    obtain ⟨hhead, -⟩ := h.chain
    rw [hhead] at hstep
    dsimp only at hstep
    obtain ⟨hchain, hnone, hbuf, howner⟩ := finish_served status torn h
    have hnodup := (List.nodup_cons.mp h.nodup).2
    have htrans := finish_transferred status torn h.current
    right
    cases l with
    | nil =>
      have hnil : (finish s b status torn).1.idequeue = none := hchain
      rw [hnil] at hstep
      cases hstep
      exact ⟨b, [], _, rfl, ⟨hchain, hnodup, hnone, howner⟩, rfl, rfl, htrans⟩
    | cons c l =>
      rw [hchain.1] at hstep
      obtain ⟨s₂, hstart, heq⟩ := Option.map_eq_some_iff.mp hstep
      cases heq
      obtain ⟨hs₂, hcur⟩ := idestart_spec hstart
      refine ⟨b, c :: l, _, rfl, ⟨?_, hnodup, ?_, ?_⟩, rfl, rfl, htrans⟩
      · rw [hs₂]
        exact hchain
      · have hbuf₂ : s'.buf = (finish s b status torn).1.buf := by rw [hs₂]
        rw [hcur, List.head?_cons, Option.map_some, hbuf₂]
      · rw [hs₂]
        exact howner

variable [DecidableEq P] [Fintype B]

/-- **A request** goes to the end of the queue. -/
theorem iderw_spec (h : Served s l) (hwait : s.waiting p = none)
    (hstep : iderw s p b = some (s', e)) : Served s' (l ++ [b]) ∧ e = .submitted b := by
  rw [iderw] at hstep
  split at hstep
  · cases hstep
  split at hstep
  · cases hstep
  split at hstep
  · cases hstep
  next hlock _ _ =>
  rw [not_not] at hlock
  have hb : b ∉ l := h.notMem fun p' hp' => by
    have hpp : p = p' := Option.some.inj (hlock.symm.trans hp')
    rw [← hpp, hwait]
    exact nofun
  have hqueue : Chain (Function.update s.qnext b none) s.idequeue l :=
    h.chain.congr fun c hc => Function.update_of_ne (ne_of_mem_of_not_mem hc hb) _ _
  have hnodup : (l ++ [b]).Nodup :=
    h.nodup.append (List.nodup_singleton b) (List.disjoint_singleton.mpr hb)
  have howner : ∀ c ∈ l ++ [b], ∃ q, s.lock c = some q ∧
      Function.update s.waiting p (some b) q = some c ∧
      Function.update s.asleep p true q = true := by
    intro c hc
    rcases List.mem_append.mp hc with hc | hc
    · obtain ⟨q, hl, hw, hs⟩ := h.owner c hc
      have hqp : q ≠ p := by
        rintro rfl
        rw [hwait] at hw
        cases hw
      exact ⟨q, hl, by rw [Function.update_of_ne hqp, hw], by rw [Function.update_of_ne hqp, hs]⟩
    · rw [List.mem_singleton.mp hc]
      exact ⟨p, hlock, Function.update_self _ _ _, Function.update_self _ _ _⟩
  dsimp only at hstep
  split at hstep
  · next hnone =>
    obtain rfl : l = [] := by
      have hhead := h.chain.head
      rw [hnone] at hhead
      exact List.head?_eq_none_iff.mp hhead
    obtain ⟨s₂, hstart, heq⟩ := Option.map_eq_some_iff.mp hstep
    cases heq
    obtain ⟨hs₂, hcur⟩ := idestart_spec hstart
    refine ⟨⟨?_, hnodup, ?_, ?_⟩, rfl⟩
    · rw [hs₂]
      exact ⟨rfl, Function.update_self _ _ _⟩
    · have hbuf : s'.buf = s.buf := by rw [hs₂]
      rw [hcur, hbuf]
      rfl
    · rw [hs₂]
      exact howner
  · next a ha =>
    obtain ⟨z, hlast, heq⟩ := Option.map_eq_some_iff.mp hstep
    cases heq
    rw [ha] at hqueue
    have hget := hqueue.last_eq h.nodup.length_le_card
    rw [hlast] at hget
    obtain ⟨l₀, hl₀⟩ := List.getLast?_eq_some_iff.mp hget.symm
    refine ⟨⟨?_, hnodup, ?_, howner⟩, rfl⟩
    · dsimp only
      rw [ha]
      rw [hl₀] at hqueue hb ⊢
      exact hqueue.concat (hl₀ ▸ h.nodup) hb (Function.update_self _ _ _)
    · dsimp only
      have hhead : (l ++ [b]).head? = l.head? := by
        rw [List.head?_append, h.chain.head, ha]
        rfl
      rw [hhead, h.current]

/-- The steps that are neither a request nor an interrupt leave the queue alone. -/
theorem step_other {a : Action B P} (h : Served s l) (hstep : step s a = some (s', e))
    (ha : ∀ p b, a ≠ .iderw p b) (ha' : ∀ status torn, a ≠ .intr status torn) :
    Served s' l ∧ e = .other := by
  -- who does not sleep in `iderw` has no buffer in the queue
  have hmine : ∀ p b, s.waiting p = none → s.lock b = some p → b ∉ l := by
    intro p b hwait hlock
    refine h.notMem fun q hq => ?_
    rw [← Option.some.inj (hlock.symm.trans hq), hwait]
    exact nofun
  have hfree : ∀ b, s.lock b = none → b ∉ l := by
    intro b hlock
    refine h.notMem fun q hq => ?_
    rw [hlock] at hq
    cases hq
  cases a with
  | acquire p b =>
    rw [step] at hstep
    split at hstep
    · next hguard =>
      cases hstep
      refine ⟨h.frame rfl rfl rfl (fun _ _ => rfl) fun c hc q hq => ⟨?_, hq.2⟩, rfl⟩
      have hcb : c ≠ b := ne_of_mem_of_not_mem hc (hfree b hguard.2)
      exact (Function.update_of_ne hcb _ _).trans hq.1
    · cases hstep
  | recycle b dev blockno =>
    rw [step] at hstep
    dsimp only at hstep
    split at hstep
    · next hguard =>
      cases hstep
      refine ⟨h.frame rfl rfl rfl (fun c hc => ?_) fun _ _ _ hq => hq, rfl⟩
      exact Function.update_of_ne (ne_of_mem_of_not_mem hc (hfree b hguard.1)) _ _
    · cases hstep
  | modify p b data dirty =>
    rw [step] at hstep
    dsimp only at hstep
    split at hstep
    · next hguard =>
      cases hstep
      refine ⟨h.frame rfl rfl rfl (fun c hc => ?_) fun _ _ _ hq => hq, rfl⟩
      exact Function.update_of_ne (ne_of_mem_of_not_mem hc (hmine p b hguard.1 hguard.2)) _ _
    · cases hstep
  | iderw p b => exact absurd rfl (ha p b)
  | intr status torn => exact absurd rfl (ha' status torn)
  | ret p =>
    rw [step] at hstep
    split at hstep
    · cases hstep
    split at hstep
    · next hguard =>
      cases hstep
      refine ⟨h.frame rfl rfl rfl (fun _ _ => rfl) fun c hc q hq => ⟨hq.1, ?_, hq.2.2⟩, rfl⟩
      have hqp : q ≠ p := by
        rintro rfl
        rw [hguard.1] at hq
        cases hq.2.2
      exact (Function.update_of_ne hqp _ _).trans hq.2.1
    · cases hstep
  | release p b =>
    rw [step] at hstep
    split at hstep
    · next hguard =>
      cases hstep
      refine ⟨h.frame rfl rfl rfl (fun _ _ => rfl) fun c hc q hq => ⟨?_, hq.2⟩, rfl⟩
      have hcb : c ≠ b := ne_of_mem_of_not_mem hc (hmine p b hguard.1 hguard.2)
      exact (Function.update_of_ne hcb _ _).trans hq.1
    · cases hstep

/-- **A step** keeps the invariant; and it is clean just if what it has read is right. -/
theorem step_spec {a : Action B P} (hinv : Inv s os) (hstep : step s a = some (s', e)) :
    Inv s' (os ++ [e]) ∧ (Clean s a ↔ ∀ c, e = .completed c → Transferred c) := by
  obtain ⟨l, h, hfifo⟩ := hinv
  have hlists : ∀ e : Event B, submitted (os ++ [e]) = submitted os ++ submitted [e] ∧
      completed (os ++ [e]) = completed os ++ completed [e] :=
    fun e => ⟨List.filterMap_append, List.filterMap_append⟩
  rw [Inv, (hlists e).1, (hlists e).2]
  have hquiet : Served s' l ∧ e = .other →
      (∃ l, Served s' l ∧ submitted os ++ submitted [e] = completed os ++ completed [e] ++ l) ∧
        (True ↔ ∀ c, e = .completed c → Transferred c) := by
    rintro ⟨hs', rfl⟩
    refine ⟨⟨l, hs', ?_⟩, iff_of_true trivial nofun⟩
    rw [hfifo]
    simp [submitted, completed]
  cases a with
  | iderw p b =>
    rw [step] at hstep
    split at hstep
    · next hwait =>
      obtain ⟨hs', rfl⟩ := iderw_spec h hwait hstep
      refine ⟨⟨l ++ [b], hs', ?_⟩, iff_of_true trivial nofun⟩
      rw [hfifo]
      simp [submitted, completed]
    · cases hstep
  | intr status torn =>
    rcases ideintr_spec h hstep with ⟨rfl, rfl, rfl⟩ | ⟨b, l', c, rfl, hs', rfl, rfl, htrans⟩
    · refine ⟨⟨[], h, ?_⟩, iff_of_true (fun b hb => ?_) nofun⟩
      · rw [hfifo]
        simp [submitted, completed]
      · rw [← h.chain.head] at hb
        cases hb
    · refine ⟨⟨l', hs', ?_⟩, ?_⟩
      · rw [hfifo]
        simp [submitted, completed]
      · have hclean : Clean s (.intr status torn : Action B P) ↔
            ((s.buf c.buf).dirty = false → status &&& (ideDf ||| ideErr) = 0) := by
          rw [Clean, h.chain.1]
          simp
        rw [hclean, ← htrans]
        simp
  | acquire p b => exact hquiet (step_other h hstep nofun nofun)
  | recycle b dev blockno => exact hquiet (step_other h hstep nofun nofun)
  | modify p b data dirty => exact hquiet (step_other h hstep nofun nofun)
  | ret p => exact hquiet (step_other h hstep nofun nofun)
  | release p b => exact hquiet (step_other h hstep nofun nofun)

/-- **The disk queue.**  In every run, what has been completed is what was asked for first, and the
device serves the head of the rest, which is the queue.  All that was read was read from its block
just if no interrupt has found a read at the head, and an error. -/
theorem ide_run {s₀ : State B P} {is : List (Action B P)} (h : Idle s₀)
    (hrun : run step s₀ is = some (s, os)) :
    (∃ l, Chain s.qnext s.idequeue l ∧ submitted os = completed os ++ l ∧
      s.device.current = l.head?.map fun b => request (s.buf b)) ∧
    (AlongRun step Clean s₀ is ↔ ∀ e ∈ os, ∀ c, e = .completed c → Transferred c) := by
  have hstep : ∀ s os (a : Action B P) r, Inv s os → step s a = some r →
      Inv r.1 (os ++ [r.2]) := fun s os a r hinv hr => (step_spec hinv hr).1
  constructor
  · obtain ⟨l, hl, hfifo⟩ := run_history_invariant Inv hstep is s₀ [] (s, os) h.inv hrun
    exact ⟨l, hl.chain, hfifo, hl.current⟩
  · exact alongRun_iff_outputs Inv hstep (fun s os a r hinv hr => (step_spec hinv hr).2) is s₀ []
      (s, os) h.inv hrun

end Steps

/-- Two buffers, which hold zeros, and two processes. -/
def twoBufs : State (Fin 2) (Fin 2) where
  buf := fun b => ⟨false, false, 1, 10 + UInt32.ofNat b.val, Vector.replicate 512 0⟩
  qnext := fun _ => none
  idequeue := none
  lock := fun _ => none
  waiting := fun _ => none
  asleep := fun _ => false
  device := ⟨fun _ => 0, Vector.replicate 512 0, none⟩
  disk := fun _ _ => Vector.replicate 512 1
  havedisk1 := true

/-- Two reads, of which the first is completed and the second is not yet. -/
def twoReads (status : UInt8) : List (Action (Fin 2) (Fin 2)) :=
  [.acquire 0 0, .acquire 1 1, .iderw 0 0, .iderw 1 1, .intr status (Vector.replicate 512 0)]

theorem ide_run_twoReads : ∃ s os, run step twoBufs (twoReads 0x40) = some (s, os) ∧
    submitted os = [0, 1] ∧ completed os = [0] ∧
    ∀ e ∈ os, ∀ c, e = .completed c → Transferred c := by
  have hrun : (run step twoBufs (twoReads 0x40)).map (fun r => (submitted r.2, completed r.2)) =
      some ([0, 1], [0]) := by decide +kernel
  obtain ⟨⟨s, os⟩, hs, hlists⟩ := Option.map_eq_some_iff.mp hrun
  rw [Prod.mk.injEq] at hlists
  have hclean : AlongRun step Clean twoBufs (twoReads 0x40) := by
    refine AlongRun.of_forall _ fun s a ha => ?_
    simp only [twoReads, List.mem_cons, List.not_mem_nil, or_false] at ha
    rcases ha with rfl | rfl | rfl | rfl | rfl
    · trivial
    · trivial
    · trivial
    · trivial
    · exact fun _ _ _ => by decide
  exact ⟨s, os, hs, hlists.1, hlists.2, (ide_run ⟨rfl, rfl⟩ hs).2.mp hclean⟩

/-- A read that ends with an error: nothing is copied, and the buffer is valid. -/
theorem not_transferred : ¬∀ is (s : State (Fin 2) (Fin 2)) os,
    run step twoBufs is = some (s, os) → ∀ e ∈ os, ∀ c, e = .completed c → Transferred c := by
  intro hall
  have hrun : (run step twoBufs (twoReads 0x41)).map (fun r => r.2.any fun
      | .completed c => c.read && c.source.isNone && (r.1.buf c.buf).valid
      | _ => false) = some true := by decide +kernel
  obtain ⟨⟨s, os⟩, hs, hany⟩ := Option.map_eq_some_iff.mp hrun
  obtain ⟨e, he, hmatch⟩ := List.any_eq_true.mp hany
  cases e with
  | completed c =>
    simp only [Bool.and_eq_true] at hmatch
    have htrans := hall _ s os hs _ he c rfl hmatch.1.1
    rw [htrans.1] at hmatch
    cases hmatch.1.2
  | _ => cases hmatch

end Ide
end Xv6

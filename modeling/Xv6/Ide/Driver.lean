/-
# `Xv6.Ide.Driver` — the interrupt-driven disk driver

`ide.c`: the queue of requests, `idestart`, the interrupt handlers and `iderw`,
with the two controllers they talk to.  A build without `HW4_ide2` has only the
primary one; with it there is a second, the second handler `ideintr2` and the
second start routine `idestart2`.

A controller takes what the driver writes to its registers as a command, carries
it out when it likes (`execute`) and raises one interrupt for it.  The steps of
the driver are the sections under `idelock`: a call of `iderw` up to its first
`sleep`, the handlers, and the test a process makes when it has been woken.  A
step that panics is no step.

A process calls `iderw` for a buffer whose sleep-lock it holds.  While it does not
call, it may change that buffer as it likes, or give up the lock.
-/
import Xv6.Fs.Layout
import Xv6.Lib.Links
import Xv6.Lib.Trace

namespace Xv6.Ide

open Links
open Function (update)

/-! ## Buffers and commands -/

/-- `struct buf`; the links of the queue are kept with it. -/
structure Buf (P : Type) where
  /-- `B_VALID` in `flags`. -/
  valid : Bool
  /-- `B_DIRTY` in `flags`. -/
  dirty : Bool
  dev : UInt32
  blockno : UInt32
  lock : Option P
  data : Block

/-- `(b->flags & (B_VALID|B_DIRTY)) == B_VALID`. -/
def Buf.done {P : Type} (b : Buf P) : Bool := b.valid && !b.dirty

def Buf.setLock {P : Type} (b : Buf P) (l : Option P) : Buf P :=
  ⟨b.valid, b.dirty, b.dev, b.blockno, l, b.data⟩

/-- A controller; `secondary` is the one of `HW4_ide2`. -/
inductive Ctl
  | primary
  | secondary
  deriving DecidableEq

/-- What is asked for: a write comes with its data. -/
inductive Op
  | read
  | write (data : Block)

/-- What `idestart` writes to the registers of a controller. -/
structure Command where
  /-- Port `0x1f2`: number of sectors. -/
  count : UInt8
  /-- Ports `0x1f3`, `0x1f4`, `0x1f5`. -/
  lba0 : UInt8
  lba1 : UInt8
  lba2 : UInt8
  /-- Port `0x1f6`: the drive bit and the rest of the sector number. -/
  select : UInt8
  /-- Port `0x1f7`, and what `outsl` writes after it. -/
  op : Op

/-- The command for a buffer; a block is one sector. -/
def command {P : Type} (b : Buf P) : Command where
  count := 1
  lba0 := (b.blockno &&& 0xff).toUInt8
  lba1 := (b.blockno >>> 8 &&& 0xff).toUInt8
  lba2 := (b.blockno >>> 16 &&& 0xff).toUInt8
  select := (0xe0 : UInt8) ||| ((b.dev &&& 1) <<< 4).toUInt8 ||| (b.blockno >>> 24 &&& 0x0f).toUInt8
  op := if b.dirty then .write b.data else .read

namespace Command

/-- The drive that is selected. -/
def drive (c : Command) : Bool := c.select &&& 0x10 != 0

def sector (c : Command) : Nat :=
  c.lba0.toNat + 2 ^ 8 * c.lba1.toNat + 2 ^ 16 * c.lba2.toNat + 2 ^ 24 * (c.select &&& 0x0f).toNat

end Command

/-- A controller and its two drives. -/
structure Controller where
  /-- The command that was started, until its interrupt has been handled. -/
  active : Option Command
  /-- The interrupt of the command is raised. -/
  irq : Bool
  /-- What `insl` reads. -/
  data : Block
  /-- `IDE_DF` or `IDE_ERR` in the status register. -/
  err : Bool
  disk : Bool → Disk

namespace Controller

/-- A new command in the registers. -/
def start (c : Controller) (cmd : Command) : Controller :=
  ⟨some cmd, false, c.data, c.err, c.disk⟩

def ack (c : Controller) : Controller := ⟨none, false, c.data, c.err, c.disk⟩

/-- The controller carries out its command, without errors, and raises the interrupt. -/
def execute (c : Controller) (cmd : Command) : Controller :=
  match cmd.op with
  | .read => ⟨some cmd, true, c.disk cmd.drive cmd.sector, false, c.disk⟩
  | .write data =>
    ⟨some cmd, true, c.data, false,
      update c.disk cmd.drive (update (c.disk cmd.drive) cmd.sector data)⟩

end Controller

/-! ## The driver -/

/-- Where a process is: not in `iderw`, asleep in it, or woken up. -/
inductive Pc (B : Type)
  | out
  | asleep (b : B)
  | awake (b : B)
  deriving DecidableEq

structure State (P B : Type) where
  buf : B → Buf P
  /-- `idequeue` and the fields `qnext`. -/
  queue : Queue B
  ctl : Ctl → Controller
  pc : P → Pc B

variable {P B : Type}

/-- The controller that serves a device. -/
def owner (dev : UInt32) : Ctl := if dev = 2 ∨ dev = 3 then .secondary else .primary

/-- What a handler does to the buffer of the request: read the data if needed, and set the
flags. -/
def finish (c : Controller) (b : Buf P) : Buf P where
  valid := true
  dirty := false
  dev := b.dev
  blockno := b.blockno
  lock := b.lock
  data := if b.dirty = false ∧ c.err = false then c.data else b.data

namespace State

def setBuf [DecidableEq B] (s : State P B) (b : B) (x : Buf P) : State P B :=
  ⟨update s.buf b x, s.queue, s.ctl, s.pc⟩

def setQueue (s : State P B) (q : Queue B) : State P B := ⟨s.buf, q, s.ctl, s.pc⟩

def setCtl (s : State P B) (c : Ctl) (x : Controller) : State P B :=
  ⟨s.buf, s.queue, update s.ctl c x, s.pc⟩

@[simp] theorem setCtl_same (s : State P B) (c : Ctl) (x : Controller) : (s.setCtl c x).ctl c = x := by
  simp [setCtl]

@[simp] theorem setCtl_other (s : State P B) {c d : Ctl} (x : Controller) (h : d ≠ c) :
    (s.setCtl c x).ctl d = s.ctl d := by
  simp [setCtl, h]

def setPc [DecidableEq P] (s : State P B) (p : P) (x : Pc B) : State P B :=
  ⟨s.buf, s.queue, s.ctl, update s.pc p x⟩

@[simp] theorem setPc_same [DecidableEq P] (s : State P B) (p : P) (x : Pc B) : (s.setPc p x).pc p = x := by
  simp [setPc]

@[simp] theorem setPc_other [DecidableEq P] (s : State P B) {p q : P} (x : Pc B) (h : q ≠ p) :
    (s.setPc p x).pc q = s.pc q := by
  simp [setPc, h]

@[simp] theorem setBuf_same [DecidableEq B] (s : State P B) (b : B) (x : Buf P) :
    (s.setBuf b x).buf b = x := by
  simp [setBuf]

@[simp] theorem setBuf_other [DecidableEq B] (s : State P B) {b c : B} (x : Buf P) (h : c ≠ b) :
    (s.setBuf b x).buf c = s.buf c := by
  simp [setBuf, h]

/-- A command for `b` is started on a controller. -/
def startOn (s : State P B) (c : Ctl) (b : B) : Option (State P B) :=
  if FSSIZE ≤ (s.buf b).blockno.toNat then none
  else some (s.setCtl c ((s.ctl c).start (command (s.buf b))))

/-- `idestart`, in the two builds.  With `HW4_ide2` a device above 3 is ignored. -/
def idestart (ide2 : Bool) (s : State P B) (b : B) : Option (State P B) :=
  if ide2 = true ∧ 3 < (s.buf b).dev then
    if FSSIZE ≤ (s.buf b).blockno.toNat then none else some s
  else if ide2 = true then s.startOn (owner (s.buf b).dev) b
  else s.startOn .primary b

def idestart2 (s : State P B) (b : B) : Option (State P B) := s.startOn .secondary b

def wakeup [DecidableEq B] (pc : P → Pc B) (b : B) : P → Pc B :=
  fun p => if pc p = .asleep b then .awake b else pc p

/-- The part of the two handlers up to the next start: the request `b` is complete. -/
def complete [DecidableEq B] (s : State P B) (c : Ctl) (b : B) : State P B where
  buf := update s.buf b (finish (s.ctl c) (s.buf b))
  queue := s.queue.pop b
  ctl := update s.ctl c (s.ctl c).ack
  pc := wakeup s.pc b

@[simp] theorem complete_buf_same [DecidableEq B] (s : State P B) (c : Ctl) (b : B) :
    (s.complete c b).buf b = finish (s.ctl c) (s.buf b) := by
  simp [complete]

@[simp] theorem complete_buf_other [DecidableEq B] (s : State P B) (c : Ctl) {b d : B} (h : d ≠ b) :
    (s.complete c b).buf d = s.buf d := by
  simp [complete, h]

/-- The interrupt handler of a controller, with its start routine. -/
def handler [DecidableEq B] (c : Ctl) (start : State P B → B → Option (State P B))
    (s : State P B) : Option (State P B) :=
  match s.queue.head with
  | none => some (s.setCtl c (s.ctl c).ack)
  | some b =>
    let s' := s.complete c b
    match s'.queue.head with
    | none => some s'
    | some b' => start s' b'

def ideintr [DecidableEq B] (ide2 : Bool) : State P B → Option (State P B) :=
  handler .primary (idestart ide2)

def ideintr2 [DecidableEq B] : State P B → Option (State P B) := handler .secondary idestart2


/-- Start the disk if necessary. -/
def startFirst [DecidableEq B] (ide2 : Bool) (s : State P B) (b : B) : Option (State P B) :=
  if s.queue.head = some b then s.idestart ide2 b else some s

/-- The test of the loop in `iderw`: sleep, or go on to the end. -/
def await [DecidableEq P] (s : State P B) (p : P) (b : B) : State P B :=
  s.setPc p (if (s.buf b).done = true then .out else .asleep b)

/-- `iderw` up to its first `sleep`. -/
def iderw [DecidableEq P] [DecidableEq B] [Fintype B] (ide2 havedisk1 : Bool) (s : State P B)
    (p : P) (b : B) : Option (State P B) :=
  if (s.buf b).lock = none then none
  else if (s.buf b).done = true then none
  else if (s.buf b).dev ≠ 0 ∧ havedisk1 = false then none
  else (s.queue.append (Fintype.card B + 1) b).bind fun q =>
    ((s.setQueue q).startFirst ide2 b).map fun s => s.await p b

end State

/-! ## The machine -/

inductive Event (P B : Type)
  /-- `acquiresleep` and `releasesleep` of a buffer. -/
  | lock (p : P) (b : B)
  | unlock (p : P) (b : B)
  /-- The holder of a buffer stores to it. -/
  | store (p : P) (b : B) (valid dirty : Bool) (dev blockno : UInt32) (data : Block)
  | iderw (p : P) (b : B)
  /-- A process that was woken returns from `iderw`, or sleeps again. -/
  | resume (p : P)
  /-- A controller carries out its command. -/
  | execute (c : Ctl)
  | ideintr
  | ideintr2

/-- A process that is not in `iderw` and holds the buffer. -/
def State.Holder (s : State P B) (p : P) (b : B) : Prop :=
  s.pc p = .out ∧ (s.buf b).lock = some p

instance [DecidableEq P] [DecidableEq B] (s : State P B) (p : P) (b : B) :
    Decidable (s.Holder p b) := inferInstanceAs (Decidable (_ ∧ _))

section

variable [DecidableEq P] [DecidableEq B] [Fintype B]

def step (ide2 havedisk1 : Bool) (s : State P B) : Event P B → Option (State P B)
  | .lock p b =>
    if s.pc p = .out ∧ (s.buf b).lock = none then
      some (s.setBuf b ((s.buf b).setLock (some p)))
    else none
  | .unlock p b =>
    if s.Holder p b then
      some (s.setBuf b ((s.buf b).setLock none))
    else none
  | .store p b valid dirty dev blockno data =>
    if s.Holder p b then
      some (s.setBuf b ⟨valid, dirty, dev, blockno, some p, data⟩)
    else none
  | .iderw p b => if s.Holder p b then s.iderw ide2 havedisk1 p b else none
  | .resume p =>
    match s.pc p with
    | .awake b => some (s.await p b)
    | _ => none
  | .execute c =>
    match (s.ctl c).active, (s.ctl c).irq with
    | some cmd, false => some (s.setCtl c ((s.ctl c).execute cmd))
    | _, _ => none
  | .ideintr => if (s.ctl .primary).irq = true then s.ideintr ide2 else none
  | .ideintr2 => if ide2 = true ∧ (s.ctl .secondary).irq = true then s.ideintr2 else none

/-- The machine after `ideinit`: no requests, and nothing is on. -/
def boot (buf : B → Buf P) (disk : Ctl → Bool → Disk) : State P B where
  buf b := (buf b).setLock none
  queue := ⟨none, fun _ => none⟩
  ctl c := ⟨none, false, Bytes.Buffer.zero, false, disk c⟩
  pc _ := .out

def Runs (ide2 havedisk1 : Bool) (buf : B → Buf P) (disk : Ctl → Bool → Disk)
    (es : List (Event P B)) (s : State P B) : Prop :=
  Trace.Run (step ide2 havedisk1) (boot buf disk) es s

end

/-- Empty buffers, and disks of zeros. -/
def blankBuf : Fin 2 → Buf (Fin 2) := fun _ => ⟨false, false, 0, 0, none, Bytes.Buffer.zero⟩

def blankDisk : Ctl → Bool → Disk := fun _ _ _ => Bytes.Buffer.zero

end Xv6.Ide

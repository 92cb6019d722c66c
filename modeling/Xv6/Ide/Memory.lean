/-
# `Xv6.Ide.Memory` — disks in memory

`memide.c` is a driver for a disk that is an array: its `iderw` is one copy.  The
machine of this module has such a disk for each drive of a controller.  A process
makes a call, later the call is served by that copy, first come first served, and
then the process returns.

A command for a controller says what the buffer says, so that what the controller
and the interrupt handler do together is that copy (`serveOn_execute`).
-/
import Xv6.Ide.Driver

namespace Xv6.Ide

open Function (update)

/-! ## `memide.c` -/

/-- The panics of `iderw` in `memide.c`. -/
inductive MemPanic
  | notLocked
  | nothingToDo
  | notDisk1
  | outOfRange
  deriving DecidableEq

/-- `iderw` of `memide.c`, on a disk of `disksize` blocks. -/
def memIderw {P : Type} (disksize : Nat) (b : Buf P) (memdisk : Disk) :
    Except MemPanic (Buf P × Disk) :=
  if b.lock = none then .error .notLocked
  else if b.done = true then .error .nothingToDo
  else if b.dev ≠ 1 then .error .notDisk1
  else if disksize ≤ b.blockno.toNat then .error .outOfRange
  else if b.dirty = true then
    .ok (⟨true, false, b.dev, b.blockno, b.lock, b.data⟩, update memdisk b.blockno.toNat b.data)
  else .ok (⟨true, b.dirty, b.dev, b.blockno, b.lock, memdisk b.blockno.toNat⟩, memdisk)

/-- A call that does not panic. -/
theorem memIderw_ok {P : Type} {n : Nat} {b : Buf P} (hlock : b.lock ≠ none) (hdone : b.done = false)
    (hdev : b.dev = 1) (hlt : b.blockno.toNat < n) (memdisk : Disk) : memIderw n b memdisk =
      if b.dirty = true then
        .ok (⟨true, false, b.dev, b.blockno, b.lock, b.data⟩, update memdisk b.blockno.toNat b.data)
      else .ok (⟨true, b.dirty, b.dev, b.blockno, b.lock, memdisk b.blockno.toNat⟩, memdisk) := by
  unfold memIderw
  rw [if_neg hlock, if_neg (Bool.eq_false_iff.mp hdone), if_neg (not_not.mpr hdev),
    if_neg (Nat.not_le.mpr hlt)]

def Buf.setDev {P : Type} (b : Buf P) (dev : UInt32) : Buf P :=
  ⟨b.valid, b.dirty, dev, b.blockno, b.lock, b.data⟩

/-- The drive bit of a device. -/
def driveOf (dev : UInt32) : Bool := dev &&& 1 != 0

/-- One memory disk for each drive; `memide.c` calls its only disk 1. -/
def serveOn {P : Type} (b : Buf P) (disk : Bool → Disk) :
    Except MemPanic (Buf P × (Bool → Disk)) :=
  (memIderw FSSIZE (b.setDev 1) (disk (driveOf b.dev))).map fun r =>
    (r.1.setDev b.dev, update disk (driveOf b.dev) r.2)

/-! ## The machine on memory disks -/

inductive MemPc (B : Type)
  | out
  | called (b : B)
  | served (b : B)
  deriving DecidableEq

structure MemState (P B : Type) where
  buf : B → Buf P
  disk : Bool → Disk
  /-- The calls that were not served yet. -/
  calls : List (P × B)
  pc : P → MemPc B

inductive MemEvent (P B : Type)
  | lock (p : P) (b : B)
  | unlock (p : P) (b : B)
  | store (p : P) (b : B) (valid dirty : Bool) (dev blockno : UInt32) (data : Block)
  | call (p : P) (b : B)
  | serve
  | ret (p : P)

section

variable {P B : Type} [DecidableEq P] [DecidableEq B]

/-- A process that makes no call and holds the buffer. -/
def MemState.Holder (t : MemState P B) (p : P) (b : B) : Prop :=
  t.pc p = .out ∧ (t.buf b).lock = some p

instance (t : MemState P B) (p : P) (b : B) : Decidable (t.Holder p b) :=
  inferInstanceAs (Decidable (_ ∧ _))

def MemState.setBuf (t : MemState P B) (b : B) (x : Buf P) : MemState P B :=
  ⟨update t.buf b x, t.disk, t.calls, t.pc⟩

/-- One step; the first call is served first. -/
def memStep (t : MemState P B) : MemEvent P B → Option (MemState P B)
  | .lock p b =>
    if t.pc p = .out ∧ (t.buf b).lock = none then some (t.setBuf b ((t.buf b).setLock (some p)))
    else none
  | .unlock p b => if t.Holder p b then some (t.setBuf b ((t.buf b).setLock none)) else none
  | .store p b valid dirty dev blockno data =>
    if t.Holder p b then some (t.setBuf b ⟨valid, dirty, dev, blockno, some p, data⟩) else none
  | .call p b =>
    if t.Holder p b then
      some ⟨t.buf, t.disk, t.calls ++ [(p, b)], update t.pc p (.called b)⟩
    else none
  | .serve =>
    match t.calls with
    | [] => none
    | (p, b) :: calls =>
      match serveOn (t.buf b) t.disk with
      | .ok (x, disk) =>
        some ⟨update t.buf b x, disk, calls, update t.pc p (.served b)⟩
      | .error _ => none
  | .ret p =>
    match t.pc p with
    | .served _ => some ⟨t.buf, t.disk, t.calls, update t.pc p .out⟩
    | _ => none

def memBoot (buf : B → Buf P) (disk : Bool → Disk) : MemState P B where
  buf b := (buf b).setLock none
  disk := disk
  calls := []
  pc _ := .out

end

/-! ## Commands say what the buffer says -/

theorem and_one (w : UInt32) : w &&& 1 = 0 ∨ w &&& 1 = 1 := by
  have h : (w &&& 1).toNat = w.toNat % 2 := by
    exact Nat.and_two_pow_sub_one_eq_mod w.toNat 1
  rcases Nat.mod_two_eq_zero_or_one w.toNat with h₀ | h₁
  · exact .inl (UInt32.toNat_inj.mp (h.trans h₀))
  · exact .inr (UInt32.toNat_inj.mp (h.trans h₁))

theorem low_byte (w : UInt32) : (w &&& 0xff).toUInt8.toNat = w.toNat % 2 ^ 8 := by
  rw [UInt32.toNat_toUInt8, UInt32.toNat_and,
    show (0xff : UInt32).toNat = 2 ^ 8 - 1 from rfl, Nat.and_two_pow_sub_one_eq_mod]
  exact Nat.mod_mod ..

variable {P B : Type}

/-- The registers hold the block number. -/
theorem command_sector {b : Buf P} (hb : b.blockno.toNat < FSSIZE) :
    (command b).sector = b.blockno.toNat := by
  have hlt : b.blockno.toNat < 1000 := hb
  have h16 : b.blockno >>> 16 = 0 := by
    refine UInt32.toNat_inj.mp ?_
    rw [UInt32.toNat_shiftRight]
    exact Nat.shiftRight_eq_zero _ _ (by simp; omega)
  have h24 : b.blockno >>> 24 = 0 := by
    refine UInt32.toNat_inj.mp ?_
    rw [UInt32.toNat_shiftRight]
    exact Nat.shiftRight_eq_zero _ _ (by simp; omega)
  have h8 : (b.blockno >>> 8).toNat = b.blockno.toNat / 2 ^ 8 := by
    exact Nat.shiftRight_eq_div_pow ..
  have hselect : ((command b).select &&& 0x0f).toNat = 0 := by
    show (((0xe0 : UInt8) ||| ((b.dev &&& 1) <<< 4).toUInt8 |||
      (b.blockno >>> 24 &&& 0x0f).toUInt8) &&& 0x0f).toNat = 0
    rw [h24]
    rcases and_one b.dev with h | h <;> rw [h] <;> rfl
  show (b.blockno &&& 0xff).toUInt8.toNat + 2 ^ 8 * (b.blockno >>> 8 &&& 0xff).toUInt8.toNat +
    2 ^ 16 * (b.blockno >>> 16 &&& 0xff).toUInt8.toNat + 2 ^ 24 * ((command b).select &&& 0x0f).toNat = _
  rw [hselect, low_byte, low_byte, low_byte, h8, h16]
  show b.blockno.toNat % 256 + 256 * (b.blockno.toNat / 256 % 256) + 65536 * 0 + 16777216 * 0 = _
  omega

theorem command_drive {b : Buf P} (hb : b.blockno.toNat < FSSIZE) :
    (command b).drive = driveOf b.dev := by
  have hlt : b.blockno.toNat < 1000 := hb
  have h24 : b.blockno >>> 24 = 0 := by
    refine UInt32.toNat_inj.mp ?_
    rw [UInt32.toNat_shiftRight]
    exact Nat.shiftRight_eq_zero _ _ (by simp; omega)
  show (((0xe0 : UInt8) ||| ((b.dev &&& 1) <<< 4).toUInt8 |||
      (b.blockno >>> 24 &&& 0x0f).toUInt8) &&& 0x10 != 0) = (b.dev &&& 1 != 0)
  rw [h24]
  rcases and_one b.dev with h | h <;> rw [h] <;> rfl

/-- What the controller and the interrupt handler do together is one copy. -/
theorem serveOn_execute {b : Buf P} (hlock : b.lock ≠ none) (hdone : b.done = false)
    (hlt : b.blockno.toNat < FSSIZE) (c : Controller) : serveOn b c.disk =
      .ok (finish (c.execute (command b)) b, (c.execute (command b)).disk) := by
  have hsector := command_sector hlt
  have hdrive := command_drive hlt
  unfold serveOn
  rw [memIderw_ok (b := b.setDev 1) hlock hdone rfl hlt]
  unfold Controller.execute finish
  cases hdirty : b.dirty with
  | true =>
    rw [show (command b).op = .write b.data from if_pos hdirty, hsector, hdrive,
      if_pos (show (b.setDev 1).dirty = true from hdirty)]
    rfl
  | false =>
    rw [show (command b).op = .read from if_neg (by rw [hdirty]; nofun), hsector, hdrive,
      if_neg (show ¬ (b.setDev 1).dirty = true by rw [show (b.setDev 1).dirty = false from hdirty]; nofun)]
    show Except.ok (_, update c.disk (driveOf b.dev) (c.disk (driveOf b.dev))) = _
    rw [Function.update_eq_self]
    show Except.ok (Buf.mk _ b.dirty _ _ _ _, _) = _
    rw [hdirty]
    rfl

end Xv6.Ide

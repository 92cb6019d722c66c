/-
# `Xv6.Boot.Mp` — the entries of the MP configuration table

The loop of `mpinit` (`mp.c`).  Pointers into the table are offsets from its start, and
`conf` gives the bytes from there on, also those behind the table: the last entry may run
over its end.  In the `default` case `break` leaves the `switch` only.  The cursor has not
moved, so the next turn finds the same entry, and the loop never ends.
-/
import Mathlib.Data.UInt
import Mathlib.Logic.Function.Iterate

namespace Xv6.Boot

def MPPROC : UInt8 := 0
def MPBUS : UInt8 := 1
def MPIOAPIC : UInt8 := 2
def MPIOINTR : UInt8 := 3
def MPLINTR : UInt8 := 4

/-- What the loop changes: the cursor, `ismp`, `cpus[i].apicid` for the `i` below `ncpu`, and
`ioapicid`. -/
structure Scan where
  p : Nat
  ismp : Bool
  apicid : List UInt8
  ioapicid : UInt8

/-- `conf->length`. -/
def length (conf : Nat → UInt8) : Nat := (conf 4).toNat + 256 * (conf 5).toNat

/-- Before the loop: the cursor is behind the header, of 44 bytes. -/
def start (ioapicid : UInt8) : Scan := ⟨44, true, [], ioapicid⟩

/-- The entry types of `mp.h`. -/
def Listed (t : UInt8) : Prop :=
  t = MPPROC ∨ t = MPIOAPIC ∨ t = MPBUS ∨ t = MPIOINTR ∨ t = MPLINTR

instance (t : UInt8) : Decidable (Listed t) := inferInstanceAs (Decidable (_ ∨ _))

variable {conf : Nat → UInt8} {s : Scan}

end Xv6.Boot

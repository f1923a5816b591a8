import DisplayList.Address
import DisplayList.Text.Hex

/-!
# Memory faults

The three ways in which an access to guest memory can fail, and their texts.
-/

namespace DisplayList.Memory

/-- Why an access to guest memory failed. -/
inductive Fault where
  /-- No region holds the address. -/
  | unmapped (address : Address)
  /-- The access starts inside a region and runs past its end. -/
  | outOfBounds (address : Address) (length : Nat)
  /-- A cursor cannot move in steps of this many bytes. -/
  | invalidStep (step : UInt32)
  deriving DecidableEq, Repr

/-- The text of a fault. -/
def Fault.message : Fault → String
  | unmapped a => s!"unmapped guest address 0x{Text.hex 8 a.toNat}"
  | outOfBounds a n => s!"guest access out of bounds (addr=0x{Text.hex 8 a.toNat}, len={n})"
  | invalidStep s => s!"unsupported cursor step of {s.toNat} bytes"

end DisplayList.Memory

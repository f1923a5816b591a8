/-!
# Guest addresses

A guest address has 32 bits, of which the two highest select an alias of the same memory. An
instruction address is moreover a multiple of four: the low bits of any other address are dropped.
The relative registers and the three ways to reach a branch target are here too.
-/

namespace DisplayList

/-- A guest address, alias bits included. -/
abbrev Address := UInt32

namespace Address

/-- The address with its alias bits cleared. -/
def canonical (a : Address) : Address :=
  a &&& 0x3FFFFFFF

/-- The instruction address at or below `a`, with its alias bits cleared. -/
def aligned (a : Address) : Address :=
  a &&& 0x3FFFFFFC

end Address

/-- The relative addressing registers. -/
structure Registers where
  /-- The high byte of relative targets, in place. -/
  base : UInt32 := 0
  /-- What is added to a target that is relative with offset. -/
  offset : UInt32 := 0
  deriving DecidableEq, Repr

/-- How a jump or a call finds its target. -/
inductive Mode where
  | absolute
  | relative
  | relativeOffset
  deriving DecidableEq, Repr

/-- The target of a branch with argument `arg`, its alias bits cleared. -/
def Mode.target (mode : Mode) (r : Registers) (arg : UInt32) : Address :=
  match mode with
  | .absolute => Address.canonical arg
  | .relative => Address.canonical (r.base ||| arg)
  | .relativeOffset => Address.canonical ((r.base ||| arg) + r.offset)

end DisplayList

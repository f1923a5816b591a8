import DisplayList.Address

/-!
# The memory map

Three regions of guest memory can hold command words. Each is found under every alias of its
addresses.
-/

namespace DisplayList

/-- A mapped region of guest memory. -/
inductive Region where
  | scratchpad
  | vram
  | ram
  deriving DecidableEq, Repr

namespace Region

/-- The first byte of the region. -/
def first : Region → Address
  | scratchpad => 0x00010000
  | vram => 0x04000000
  | ram => 0x08000000

/-- The last byte of the region. -/
def last : Region → Address
  | scratchpad => 0x00013FFF
  | vram => 0x041FFFFF
  | ram => 0x09FFFFFF

/-- The number of bytes of the region. -/
def size (r : Region) : Nat :=
  r.last.toNat - r.first.toNat + 1

theorem first_add_size (r : Region) : r.first.toNat + r.size = r.last.toNat + 1 := by
  cases r <;> rfl

/-- The name under which the region is shown. -/
def name : Region → String
  | scratchpad => "Scratchpad"
  | vram => "Vram"
  | ram => "Ram"

/-- Every region, from the lowest address up. -/
def all : List Region :=
  [scratchpad, vram, ram]

/-- Whether `a` names a byte of the region, under any alias. -/
def holds (r : Region) (a : Address) : Bool :=
  r.first ≤ Address.canonical a && Address.canonical a ≤ r.last

/-- The region of the byte at `a`, if it is mapped. -/
def of? (a : Address) : Option Region :=
  all.find? (·.holds a)

end Region

end DisplayList

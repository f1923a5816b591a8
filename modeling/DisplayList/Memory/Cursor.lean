import DisplayList.Memory.Basic

/-!
# Cursors

A cursor reads guest memory one element after the other and can be moved either way. Its address
wraps around at 2^32, and is checked only when something is read.
-/

namespace DisplayList

/-- How many bytes one element of a cursor has. -/
inductive Width where
  | byte
  | half
  | word
  deriving DecidableEq, Repr

namespace Width

/-- The number of bytes of an element. -/
def bytes : Width → Nat
  | byte => 1
  | half => 2
  | word => 4

/-- The width of elements of `step` bytes, if there is one. -/
def ofStep? (step : UInt32) : Option Width :=
  [byte, half, word].find? fun w => w.bytes == step.toNat

end Width

/-- A repositionable reader of guest memory. -/
structure Cursor where
  /-- The address of the next element. -/
  address : Address
  width : Width
  deriving DecidableEq, Repr

namespace Cursor

/-- A cursor at `a` that moves in steps of `step` bytes. -/
def openAt (a : Address) (step : UInt32) : Except Memory.Fault Cursor :=
  match Width.ofStep? step with
  | none => .error (.invalidStep step)
  | some width =>
    let a := Address.canonical a
    if Memory.isMapped a then .ok ⟨a, width⟩ else .error (.unmapped a)

/-- The cursor moved by `n` elements, backwards if `n` is negative. -/
def advance (c : Cursor) (n : Int) : Cursor :=
  { c with address := UInt32.ofInt (c.address.toNat + n * c.width.bytes) }

theorem toNat_advance (c : Cursor) (n : Int) :
    ((c.advance n).address.toNat : Int) =
      (c.address.toNat + n * c.width.bytes) % 0x100000000 := by
  have h := Int.emod_nonneg (c.address.toNat + n * c.width.bytes) (b := 0x100000000) (by decide)
  have h' := Int.emod_lt_of_pos (c.address.toNat + n * c.width.bytes) (b := 0x100000000) (by decide)
  simp only [advance, UInt32.ofInt, UInt32.toNat_ofNat']
  omega

theorem advance_advance (c : Cursor) (m n : Int) :
    (c.advance m).advance n = c.advance (m + n) := by
  have h : ((c.advance m).advance n).address = (c.advance (m + n)).address := by
    apply UInt32.toNat_inj.1
    apply Int.ofNat_inj.1
    rw [toNat_advance, toNat_advance, toNat_advance]
    simp only [advance, Int.add_mul, Int.emod_add_emod, Int.add_assoc]
  simpa [advance] using h

/-- The element under the cursor and the cursor past it. -/
def read (m : Memory) (c : Cursor) : Except Memory.Fault (UInt32 × Cursor) :=
  (m.read c.address c.width.bytes).map fun v => (v, c.advance 1)

end Cursor

end DisplayList

import DisplayList.Memory.Bank
import DisplayList.Memory.Fault

/-!
# Guest memory

Guest memory is sparse: each region has a bank of pages, and a page is set aside when a byte of it
is first written. An access names a run of bytes, which must lie inside one region; it is located
there and handed to the bank of the region. An access that does not fit fails and changes nothing.
-/

namespace DisplayList

/-- Sparse guest memory: the pages of the three regions. -/
structure Memory where
  scratchpad : Memory.Bank .scratchpad
  vram : Memory.Bank .vram
  ram : Memory.Bank .ram

namespace Memory

/-- Memory in which nothing was written. -/
def empty : Memory :=
  ⟨.empty, .empty, .empty⟩

instance : Inhabited Memory := ⟨empty⟩

/-- The bank of a region. -/
def bank (m : Memory) : (r : Region) → Bank r
  | .scratchpad => m.scratchpad
  | .vram => m.vram
  | .ram => m.ram

/-- Memory with another bank for a region. -/
def setBank (m : Memory) : {r : Region} → Bank r → Memory
  | .scratchpad, bank => { m with scratchpad := bank }
  | .vram, bank => { m with vram := bank }
  | .ram, bank => { m with ram := bank }

section Banks

variable {r r' : Region} (m : Memory)

@[simp] theorem bank_setBank (bank : Bank r) : (m.setBank bank).bank r = bank := by
  cases r <;> rfl

theorem bank_setBank_of_ne (h : r' ≠ r) (bank : Bank r) :
    (m.setBank bank).bank r' = m.bank r' := by
  cases r <;> cases r' <;> first | rfl | exact absurd rfl h

@[simp] theorem setBank_bank : m.setBank (m.bank r) = m := by
  cases r <;> rfl

@[simp] theorem setBank_setBank (bank bank' : Bank r) :
    (m.setBank bank).setBank bank' = m.setBank bank' := by
  cases r <;> rfl

end Banks

/-- The number of pages set aside. -/
def pageCount (m : Memory) : Nat :=
  m.scratchpad.count + m.vram.count + m.ram.count

/-! ## Accesses -/

/-- A run of `length` bytes inside one region. -/
structure Extent (length : Nat) where
  region : Region
  /-- How far into the region the run begins. -/
  offset : Nat
  fits : offset + length ≤ region.size

/-- The `length` bytes at `a`, which must lie inside one region. -/
def locate (a : Address) (length : Nat) : Except Fault (Extent length) :=
  let a := Address.canonical a
  match Region.of? a with
  | none => .error (.unmapped a)
  | some region =>
    let offset := a.toNat - region.first.toNat
    if fits : offset + length ≤ region.size then .ok { region, offset, fits }
    else .error (.outOfBounds a length)

/-- Whether some region holds `a`. -/
def isMapped (a : Address) : Bool :=
  (Region.of? a).isSome

/-- The `length` bytes at `a`. -/
def readBytes (m : Memory) (a : Address) (length : Nat) : Except Fault (List UInt8) :=
  (locate a length).map fun x => (m.bank x.region).read x.offset length x.fits

/-- Memory with the bytes `bs` at `a`. -/
def writeBytes (m : Memory) (a : Address) (bs : List UInt8) : Except Fault Memory :=
  (locate a bs.length).map fun x =>
    m.setBank ((m.bank x.region).write x.offset bs x.fits)

end Memory

/-! ## Words -/

namespace Word

/-- The number whose bytes are `bs`, lowest first. -/
def ofBytes : List UInt8 → UInt32
  | [] => 0
  | b :: bs => b.toUInt32 + 256 * ofBytes bs

/-- The four bytes of a word, lowest first. -/
def bytes (w : UInt32) : List UInt8 :=
  [w.toUInt8, (w >>> 8).toUInt8, (w >>> 16).toUInt8, (w >>> 24).toUInt8]

end Word

namespace Memory

/-- The number held by the `length` bytes at `a`, lowest byte first. -/
def read (m : Memory) (a : Address) (length : Nat) : Except Fault UInt32 :=
  (m.readBytes a length).map Word.ofBytes

/-- The word at `a`. -/
def readWord (m : Memory) (a : Address) : Except Fault UInt32 :=
  m.read a 4

/-- Memory with the word `w` at `a`. -/
def writeWord (m : Memory) (a : Address) (w : UInt32) : Except Fault Memory :=
  m.writeBytes a (Word.bytes w)

/-- Memory with the words `ws` from `a` on. -/
def writeWords (m : Memory) (a : Address) (ws : List UInt32) : Except Fault Memory :=
  m.writeBytes a (ws.flatMap Word.bytes)

end Memory

end DisplayList

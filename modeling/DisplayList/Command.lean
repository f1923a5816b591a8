import DisplayList.Address

/-!
# Command words

The eight high bits of a word are its opcode and the rest is its argument. Eleven opcodes steer the
list itself; every other word is left to whoever draws.
-/

namespace DisplayList

/-- The word with opcode `op` and argument `arg`, which is cut to 24 bits. -/
def commandWord (op : UInt8) (arg : UInt32) : UInt32 :=
  (op.toUInt32 <<< 24) ||| (arg &&& 0x00FFFFFF)

/-- A command word, decoded. -/
inductive Command where
  | nop
  | jump (arg : UInt32)
  /-- Jumps unless the last bounding box was visible. -/
  | branchHidden (arg : UInt32)
  | call (arg : UInt32)
  | ret
  | stop (arg : UInt32)
  | signal (behavior signal : UInt32)
  | finish (arg : UInt32)
  | base (arg : UInt32)
  | offset (arg : UInt32)
  | origin
  /-- A word for whoever draws. -/
  | draw (word : UInt32)
  deriving DecidableEq, Repr

namespace Command

/-- The opcode of a word. -/
def opcode (w : UInt32) : UInt8 :=
  (w >>> 24).toUInt8

/-- The argument of a word. -/
def argument (w : UInt32) : UInt32 :=
  w &&& 0x00FFFFFF

/-- The command that a word stands for. -/
def decode (w : UInt32) : Command :=
  let arg := argument w
  match opcode w with
  | 0x00 => .nop
  | 0x08 => .jump arg
  | 0x09 => .branchHidden arg
  | 0x0A => .call arg
  | 0x0B => .ret
  | 0x0C => .stop arg
  | 0x0E => .signal ((arg >>> 16) &&& 0xFF) (arg &&& 0xFFFF)
  | 0x0F => .finish arg
  | 0x10 => .base arg
  | 0x13 => .offset arg
  | 0x14 => .origin
  | _ => .draw w

end Command

/-! ## Signals

A SIGNAL word either asks for a callback or, together with the END word after it, transfers
control. -/

/-- What a SIGNAL word does once the END word after it is reached. -/
inductive Transfer where
  | jump (mode : Mode)
  | call (mode : Mode)
  | ret
  | pause
  deriving DecidableEq, Repr

namespace Signal

/-- Whether a signal of this behavior makes a callback. -/
def calls (behavior : UInt32) : Bool :=
  behavior == 0x01 || behavior == 0x02 || behavior == 0x03 || behavior == 0x08

/-- What a signal of this behavior does at the END word after it, if anything. -/
def transfer? (behavior : UInt32) : Option Transfer :=
  match behavior with
  | 0x03 => some .pause
  | 0x10 => some (.jump .absolute)
  | 0x11 => some (.call .absolute)
  | 0x12 => some .ret
  | 0x13 => some (.jump .relative)
  | 0x14 => some (.call .relative)
  | 0x15 => some (.jump .relativeOffset)
  | 0x16 => some (.call .relativeOffset)
  | _ => none

/-- The target that a signal and the argument of the END word after it name together. -/
def target (signal arg : UInt32) : UInt32 :=
  ((signal &&& 0xFFFF) <<< 16) ||| (arg &&& 0xFFFF)

end Signal

end DisplayList

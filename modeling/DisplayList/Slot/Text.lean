import DisplayList.Slot.Basic

/-!
# Texts of a slot

The text that shows a list, and its shorter diagnostic form.
-/

namespace DisplayList.Slot

/-- The text of a list. -/
def text (s : Slot) : String :=
  let id := Text.hexUpper 1 s.id
  let list := Text.hexUpper 8 s.list.toNat
  let pc := Text.hexUpper 8 s.pc.toNat
  let stall := Text.hexUpper 8 s.stall.toNat
  let callbackId := Text.hexUpper 1 s.callbackId.toUInt32.toNat
  s!"PspGeList[id=0x{id}, status={s.status.name}, list=0x{list}, pc=0x{pc}, stall=0x{stall}, " ++
  s!"cbid=0x{callbackId}, ended={s.flags.ended}, finished={s.flags.finished}, " ++
  s!"paused={s.flags.paused}, restarted={s.flags.restarted}, reset={s.flags.reset}]"

/-- The diagnostic text of a list. -/
def diagnostic (s : Slot) : String :=
  s!"DisplayList \x7b id: {s.id}, status: {s.status.label}, list_addr: {s.list.toNat}, " ++
  s!"pc: {s.pc.toNat}, stall_addr: {s.stall.toNat}, stack_depth: {s.calls.depth}, .. \x7d"

end DisplayList.Slot

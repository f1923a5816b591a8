import DisplayList.Proofs.Beside

/-!
# What an action does to a slot

Whatever an action is, what it makes of a slot depends on that slot and on memory alone. All that is
proved of the slots of a front end, for every action, is proved of `Action.onto`.

* `slot_setSlot`, `setSlot_slot`: reading and writing slots;
* **`slot_perform`**, `slots_tell`: what actions and reports make of a slot.
-/

namespace DisplayList

namespace FrontEnd

variable (w : FrontEnd) (i j : Nat) (s : Slot)

theorem slot_setSlot :
    (w.setSlot i s).slot j = if j = i ∧ i < w.slots.size then s else w.slot j := by
  unfold setSlot slot
  simp only [Array.getD_eq_getD_getElem?, Array.getElem?_setIfInBounds]
  by_cases h : i = j
  · subst h
    by_cases hi : i < w.slots.size
    · simp [hi]
    · simp [hi]
  · have h' : j ≠ i := fun he => h he.symm
    simp [h, h']

theorem slot_setSlot_self {w : FrontEnd} {i : Nat} {s : Slot} (hi : i < w.slots.size) :
    (w.setSlot i s).slot i = s := by
  rw [slot_setSlot, if_pos ⟨rfl, hi⟩]

@[simp] theorem setSlot_slot : w.setSlot i (w.slot i) = w := by
  have h : w.slots.setIfInBounds i (w.slot i) = w.slots := by
    apply Array.ext_getElem?
    intro k
    unfold slot
    rw [Array.getElem?_setIfInBounds]
    by_cases hk : i = k
    · subst hk
      by_cases hi : i < w.slots.size
      · simp [hi]
      · simp [hi]
    · simp [hk]
  unfold setSlot
  rw [h]

@[simp] theorem setSlot_setSlot (s' : Slot) : (w.setSlot i s).setSlot i s' = w.setSlot i s' := by
  unfold setSlot
  dsimp only
  rw [Array.setIfInBounds_setIfInBounds]

theorem slot_of_le (h : w.slots.size ≤ i) : w.slot i = Slot.new i := by
  unfold slot
  simp [Array.getD_eq_getD_getElem?, Array.getElem?_eq_none h]

@[simp] theorem size_setSlot : (w.setSlot i s).slots.size = w.slots.size := by
  simp [setSlot]

theorem slot_congr {v : FrontEnd} (h : v.slots = w.slots) : v.slot i = w.slot i := by
  unfold slot
  rw [h]

theorem tellEngine_frame (n : Notice) : ∃ queue, w.tellEngine i n = { w with queue } := by
  cases n with
  | reset => exact ⟨_, rfl⟩
  | submitted p => exact ⟨_, rfl⟩
  | _ => exact ⟨w.queue, rfl⟩

theorem tellRenderer_frame (r : Renderer) (n : Notice) :
    ∃ events journal, w.tellRenderer r i n = { w with events, journal } := by
  cases r with
  | channel =>
    unfold tellRenderer
    dsimp only
    split
    · exact ⟨_, w.journal, rfl⟩
    · exact ⟨w.events, w.journal, rfl⟩
  | recorder label => exact ⟨w.events, _, rfl⟩
  | inert => exact ⟨w.events, w.journal, rfl⟩

theorem notify_frame (n : Notice) :
    ∃ queue events journal, w.notify i n = { w with queue, events, journal } := by
  have he : ∃ queue events journal, w.tellEngine i n = { w with queue, events, journal } := by
    obtain ⟨queue, h⟩ := tellEngine_frame w i n
    exact ⟨queue, w.events, w.journal, h⟩
  have hr : ∀ r, ∃ queue events journal,
      w.tellRenderer r i n = { w with queue, events, journal } := by
    intro r
    obtain ⟨events, journal, h⟩ := tellRenderer_frame w i r n
    exact ⟨w.queue, events, journal, h⟩
  unfold notify
  split
  · exact he
  · exact hr _
  · split
    · obtain ⟨queue, h⟩ := tellEngine_frame w i .reset
      obtain ⟨events, journal, h'⟩ := tellRenderer_frame (w.tellEngine i .reset) i _ .reset
      exact ⟨queue, events, journal, by rw [h', h]⟩
    · exact he
    · exact hr _
    · exact he

theorem tell_frame (r : Report) : ∃ host journal, (w.tell r).2 = { w with host, journal } := by
  unfold tell
  split
  · exact ⟨_, _, rfl⟩
  · exact ⟨w.host, w.journal, rfl⟩

@[simp] theorem slots_notify (n : Notice) : (w.notify i n).slots = w.slots := by
  obtain ⟨queue, events, journal, h⟩ := notify_frame w i n
  rw [h]

@[simp] theorem slots_tell (r : Report) : (w.tell r).2.slots = w.slots := by
  obtain ⟨host, journal, h⟩ := tell_frame w r
  rw [h]

@[simp] theorem slot_tell (r : Report) : (w.tell r).2.slot i = w.slot i :=
  slot_congr w i (slots_tell w r)

end FrontEnd

theorem lt_size {w : FrontEnd} {j : Nat} (h : (w.slot j).isDone = false) : j < w.slots.size := by
  by_cases hj : j < w.slots.size
  · exact hj
  · rw [FrontEnd.slot_of_le w j (by omega)] at h
    cases h

namespace Action

/-- What an action makes of the slot at position `i`. -/
def onto (a : Action) (i : Nat) (m : Memory) (s : Slot) : Slot :=
  match a with
  | change j c => if j = i then (c.perform s).2 else s
  | await j => if j = i then { s with wake := s.wake.take.2 } else s
  | access j a => if j = i then (s.tryAccess m a).2 else s
  | accessWith j address c a => if j = i then (s.accessWith m address c a).2 else s
  | _ => s

theorem onto_change (i j : Nat) (c : Change) (m : Memory) (s : Slot) :
    (change j c).onto i m s = if j = i then (c.perform s).2 else s := rfl

theorem perform_write_ok {w : FrontEnd} {a : Address} {ws : List UInt32} {m : Memory}
    (h : w.memory.writeWords a ws = .ok m) :
    (write a ws).perform w = (.ok (), { w with memory := m }) := by
  unfold perform
  dsimp only
  rw [h]

theorem perform_write_error {w : FrontEnd} {a : Address} {ws : List UInt32} {f : Memory.Fault}
    (h : w.memory.writeWords a ws = .error f) : (write a ws).perform w = (.error f, w) := by
  unfold perform
  dsimp only
  rw [h]

theorem write_frame (w : FrontEnd) (a : Address) (ws : List UInt32) :
    ∃ memory, ((write a ws).perform w).2 = { w with memory } := by
  simp only [perform]
  split
  · exact ⟨_, rfl⟩
  · exact ⟨w.memory, rfl⟩

theorem slot_onSlot {α : Type} (w : FrontEnd) (i j : Nat) (f : Slot → α × Slot) :
    (onSlot w i f).2.slot j =
      if j < w.slots.size then if i = j then (f (w.slot j)).2 else w.slot j else w.slot j := by
  unfold onSlot
  rw [FrontEnd.slot_setSlot]
  by_cases h : j = i
  · subst h
    simp
  · have h' : i ≠ j := fun he => h he.symm
    simp [h, h']

/-- **What an action makes of a slot.** -/
theorem slot_perform (a : Action) (w : FrontEnd) (i : Nat) :
    (a.perform w).2.slot i =
      if i < w.slots.size then a.onto i w.memory (w.slot i) else w.slot i := by
  cases a with
  | change j c => exact slot_onSlot ..
  | await j => exact slot_onSlot ..
  | access j a => exact slot_onSlot ..
  | accessWith j address c a => exact slot_onSlot ..
  | notify j n =>
    have h := FrontEnd.slot_congr w i (FrontEnd.slots_notify w j n)
    exact h.trans (ite_self _).symm
  | write a ws =>
    obtain ⟨memory, h⟩ := write_frame w a ws
    have hs : ((write a ws).perform w).2.slots = w.slots := by rw [h]
    exact (FrontEnd.slot_congr w i hs).trans (ite_self _).symm
  | _ => exact (ite_self _).symm

@[simp] theorem size_perform (a : Action) (w : FrontEnd) :
    (a.perform w).2.slots.size = w.slots.size := by
  cases a with
  | change j c => exact FrontEnd.size_setSlot ..
  | await j => exact FrontEnd.size_setSlot ..
  | access j a => exact FrontEnd.size_setSlot ..
  | accessWith j address c a => exact FrontEnd.size_setSlot ..
  | notify j n => exact congrArg Array.size (FrontEnd.slots_notify w j n)
  | write a ws =>
    obtain ⟨memory, h⟩ := write_frame w a ws
    rw [h]
  | _ => rfl

theorem slot_perform_of {a : Action} {w : FrontEnd} {i : Nat} {P : Slot → Prop}
    (h : P (w.slot i)) (ha : P (a.onto i w.memory (w.slot i))) : P ((a.perform w).2.slot i) := by
  rw [slot_perform]
  split
  · exact ha
  · exact h

end Action

namespace Process

variable {α : Type} {p q : Process α} {w u : FrontEnd} {t : List Move}

theorem size_anybody (h : Anybody w u) : u.slots.size = w.slots.size := by
  cases h with
  | act ha => exact Action.size_perform ..
  | tell r => exact congrArg Array.size (FrontEnd.slots_tell w r)

theorem size_after (m : Move) : m.after.slots.size = m.before.slots.size := by
  cases m with
  | act a w => exact Action.size_perform ..
  | report r w => exact congrArg Array.size (FrontEnd.slots_tell w r)

theorem goes_size (h : Goes Anybody p w t q u) :
    u.slots.size = w.slots.size ∧ ∀ m ∈ t, m.before.slots.size = w.slots.size := by
  induction h with
  | stay => exact ⟨rfl, by simp⟩
  | other ho _ ih =>
    rw [← size_anybody ho]
    exact ih
  | @act a k q w u t _ ih =>
    rw [Action.size_perform] at ih
    exact ⟨ih.1, List.forall_mem_cons.2 ⟨rfl, ih.2⟩⟩
  | @report r k q w u t _ ih =>
    rw [FrontEnd.slots_tell] at ih
    exact ⟨ih.1, List.forall_mem_cons.2 ⟨rfl, ih.2⟩⟩
  | loop _ ih => exact ih

end Process

end DisplayList

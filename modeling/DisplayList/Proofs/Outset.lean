import DisplayList.Proofs.Aligned
import DisplayList.Proofs.Submitting

/-!
# The status of a list that has not run

A list is ready with a status, stalled or queued, and the status reported of it is compared with its
instruction address anew. The two comparisons differ in one point: an address of zero is no stall
address for the second one, but the first one takes it for one.

* `Change.LeavesStatus`, `Action.status_of_leaves`: what leaves the status of a list alone;
* `Untouched`: a list that no engine has run and that is where it was;
* **`reported_outset_iff`**: where the status it was given is the right one, and what is reported of
  it later;
* **`drawing_outset`**: a list that never ran, reported as drawing.
-/

namespace DisplayList

namespace Slot

variable (s : Slot) (sub : Submission)

/-- **The status that a list starts with.** -/
theorem status_init : (s.init sub).status =
    if Address.aligned sub.list = Address.aligned sub.stall then .stallReached else .queued := by
  obtain ⟨f, hf⟩ := s.init_frame sub
  rw [hf]

theorem pc_init : (s.init sub).pc = Address.aligned sub.list := by
  obtain ⟨f, hf⟩ := s.init_frame sub
  rw [hf]

theorem stall_init : (s.init sub).stall = Address.aligned sub.stall := by
  obtain ⟨f, hf⟩ := s.init_frame sub
  rw [hf]

end Slot

/-- All that is left of its two addresses is zero: the list starts at address zero, and no stall
address is set. -/
def Submission.AllZero (sub : Submission) : Prop :=
  Address.aligned sub.list = 0 ∧ Address.aligned sub.stall = 0

instance (sub : Submission) : Decidable sub.AllZero :=
  inferInstanceAs (Decidable (_ ∧ _))

theorem Submission.meets_iff {sub : Submission} (h : ¬ sub.AllZero) :
    Address.aligned sub.list = Address.aligned sub.stall ↔
      (Address.aligned sub.list == Address.aligned sub.stall && Address.aligned sub.stall != 0)
        = true := by
  rw [Bool.and_eq_true, beq_iff_eq, bne_iff_ne]
  exact ⟨fun heq => ⟨heq, fun hstall => h ⟨heq.trans hstall, hstall⟩⟩, And.left⟩

/-! ## What leaves the status alone -/

namespace Change

/-- The change leaves the status as it is. -/
def LeavesStatus : Change → Prop
  | init _ | reset | setStatus _ => False
  | _ => True

theorem status_perform {c : Change} (h : c.LeavesStatus) (s : Slot) :
    (c.perform s).2.status = s.status := by
  have hbranch : c.Branches → (c.perform s).2.status = s.status := fun hc =>
    hc.keeps (f := Slot.status) (fun _ _ _ _ => rfl) s
  have hstall : c.SetsStall → (c.perform s).2.status = s.status := fun hc =>
    hc.keeps (f := Slot.status) (fun _ _ _ => rfl) s
  cases c with
  | init | reset | setStatus => exact h.elim
  | moveTo | call | ret => exact hbranch trivial
  | moveStall | moveStallWith => exact hstall trivial
  | _ => rfl

end Change

namespace Action

/-- The action leaves the status of the list at position `i` as it is: no engine runs it, and it is
neither reset nor submitted anew. -/
def LeavesStatus (i : Nat) : Action → Prop
  | change j c => j = i → c.LeavesStatus
  | _ => True

theorem status_of_leaves {i : Nat} {a : Action} (h : a.LeavesStatus i) (w : FrontEnd) :
    ((a.perform w).2.slot i).status = (w.slot i).status := by
  refine slot_perform_of (P := fun s => s.status = (w.slot i).status) rfl ?_
  by_cases hchange : ∃ c, a = .change i c
  · obtain ⟨c, rfl⟩ := hchange
    rw [onto_change, if_pos rfl, Change.status_perform (h rfl)]
  · obtain ⟨pc, fetcher, wake, hs⟩ := onto_frame (fun c hc => hchange ⟨c, hc⟩) w.memory (w.slot i)
    rw [hs]

end Action

/-! ## A list that has not run -/

open Process

variable {i : Nat} {sub : Submission} {w v u : FrontEnd}

theorem status_somebody (h : Somebody (Action.LeavesStatus i) v u) :
    (u.slot i).status = (v.slot i).status := by
  cases h with
  | act ha => exact Action.status_of_leaves ha v
  | tell r => rw [FrontEnd.slot_tell]

theorem status_unrun (h : Relation.ReflTransGen (Somebody (Action.LeavesStatus i)) v u) :
    (u.slot i).status = (v.slot i).status := by
  induction h with
  | refl => rfl
  | tail _ hlast ih => exact (status_somebody hlast).trans ih

/-- From `v` to `u` no engine has run the list at position `i`, and it is where it was and may run
as far as it might. -/
structure Untouched (i : Nat) (v u : FrontEnd) : Prop where
  unrun : Relation.ReflTransGen (Somebody (Action.LeavesStatus i)) v u
  pc : (u.slot i).pc = (v.slot i).pc
  stall : (u.slot i).stall = (v.slot i).stall

theorem Untouched.reported (h : Untouched i v u) : (u.slot i).reported = (v.slot i).reported := by
  have hstalled : (u.slot i).isStalled = (v.slot i).isStalled := by
    unfold Slot.isStalled
    rw [h.pc, h.stall]
  unfold Slot.reported
  rw [status_unrun h.unrun, hstalled]

namespace Slot

variable (s : Slot)

theorem isStalled_init : (s.init sub).isStalled =
    (Address.aligned sub.list == Address.aligned sub.stall && Address.aligned sub.stall != 0) := by
  unfold isStalled
  rw [s.pc_init, s.stall_init]

theorem status_init_of_not_allZero (h : ¬ sub.AllZero) :
    (s.init sub).status = if (s.init sub).isStalled then .stallReached else .queued := by
  rw [s.status_init, s.isStalled_init]
  simp only [Submission.meets_iff h]

theorem reported_init_of_not_allZero (h : ¬ sub.AllZero) :
    (s.init sub).reported = (s.init sub).status := by
  unfold reported
  rw [s.status_init_of_not_allZero h]
  cases (s.init sub).isStalled <;> rfl

theorem init_of_allZero (h : sub.AllZero) :
    (s.init sub).status = .stallReached ∧ (s.init sub).isStalled = false := by
  rw [s.status_init, s.isStalled_init, h.1, h.2]
  exact ⟨rfl, rfl⟩

theorem reported_init_of_allZero (h : sub.AllZero) : (s.init sub).reported = .drawing := by
  obtain ⟨hstatus, hstalled⟩ := s.init_of_allZero h
  unfold reported
  rw [hstatus, hstalled]
  rfl

/-- **Where the status that a list starts with is the right one.** -/
theorem status_init_iff : (s.init sub).status =
    (if (s.init sub).isStalled then .stallReached else .queued) ↔ ¬ sub.AllZero := by
  refine ⟨fun hstatus hzero => ?_, s.status_init_of_not_allZero⟩
  obtain ⟨hreached, hstalled⟩ := s.init_of_allZero hzero
  rw [hreached, hstalled] at hstatus
  cases hstatus

/-- **Where a list that has not run is reported as queued or stalled.** -/
theorem reported_init_iff :
    (s.init sub).reported = .queued ∨ (s.init sub).reported = .stallReached ↔ ¬ sub.AllZero := by
  constructor
  · intro hreported hzero
    rw [s.reported_init_of_allZero hzero] at hreported
    rcases hreported with h | h <;> cases h
  · intro hzero
    rw [s.reported_init_of_not_allZero hzero, s.status_init]
    split
    · exact .inr rfl
    · exact .inl rfl

end Slot

/-- **The status of a list that has not run.** Whatever was in the slot before, the status that a
list starts with is the one that its addresses call for, and as long as no engine has run the list
and nobody has moved it or its stall address it is reported as queued or stalled, exactly if its
addresses are not both zero; otherwise it is reported as drawing. -/
theorem reported_outset_iff (hi : i < w.slots.size)
    (hv : v = ((Action.change i (.init sub)).perform w).2) (hu : Untouched i v u) :
    ((v.slot i).status = (if (v.slot i).isStalled then .stallReached else .queued) ↔
      ¬ sub.AllZero) ∧
    ((u.slot i).reported = .queued ∨ (u.slot i).reported = .stallReached ↔ ¬ sub.AllZero) ∧
    (sub.AllZero → (v.slot i).status = .stallReached ∧ (u.slot i).reported = .drawing) := by
  have hslot : v.slot i = (w.slot i).init sub := by
    rw [hv, Action.slot_perform, if_pos hi, Action.onto_change, if_pos rfl]
    rfl
  rw [hu.reported, hslot]
  exact ⟨Slot.status_init_iff _, Slot.reported_init_iff _, fun hzero =>
    ⟨(Slot.init_of_allZero _ hzero).1, Slot.reported_init_of_allZero _ hzero⟩⟩

/-- A slot with a list that was paused on its way. -/
def pausedSlot : Slot where
  id := 0
  list := 0x08900000
  stall := 0x08900040
  pc := 0x08900010
  status := .drawing
  flags := { Flags.fresh with paused := true }

/-- A front end with that slot. -/
def usedSlot : FrontEnd where
  slots := #[pausedSlot]
  poolSize := 1

/-- A submission whose two addresses are one, with different low bits and aliases. -/
def mirroredStart : Submission := ⟨0x48800002, 0x08800001, 7, none⟩

/-- What happens to the list meanwhile: its stall address is moved on and back again, and whoever
waits for it is woken. -/
def meanwhile : List Action :=
  [.change 0 (.moveStall 0x08800010), .change 0 .postWake, .change 0 (.moveStall 0x48800000)]

theorem reported_outset_iff_mirrored :
    let v := ((Action.change 0 (.init mirroredStart)).perform usedSlot).2
    let u := meanwhile.foldl (fun w a => (a.perform w).2) v
    Untouched 0 v u ∧ ¬ mirroredStart.AllZero ∧
      (v.slot 0).status = (if (v.slot 0).isStalled then .stallReached else .queued) ∧
      (u.slot 0).reported = .stallReached := by
  intro v u
  have hu : Untouched 0 v u :=
    ⟨.tail (.tail (.tail .refl (.act (fun _ => trivial) _)) (.act (fun _ => trivial) _))
      (.act (fun _ => trivial) _), rfl, rfl⟩
  have hzero : ¬ mirroredStart.AllZero := by decide
  obtain ⟨hstatus, -, -⟩ := reported_outset_iff (by decide) rfl hu
  exact ⟨hu, hzero, hstatus.2 hzero, rfl⟩

/-- **A list that never ran is reported as drawing**: one at address zero without a stall address.
It is stored as stalled, though it has not reached a stall address. -/
theorem drawing_outset :
    let v := ((Action.change 0 (.init ⟨0, 0, 0, none⟩)).perform usedSlot).2
    (v.slot 0).status = .stallReached ∧ (v.slot 0).isStalled = false ∧
      (v.slot 0).reported = .drawing :=
  ⟨rfl, rfl, rfl⟩

end DisplayList

import DisplayList.Proofs.Steering

/-!
# What nobody sees of a slot

Two things stay in a slot for good, whatever becomes of it: the frames that calls left behind in the
array of its stack, and how many cursors were found for it. Nothing that is done to a slot, and
nothing that it answers, depends on them.

* `CallStack.map_toList_push`, `map_toList_pop?`: a stack does what its live frames say;
* `Slot.rest`, `Slot.Alike`: slots with the same live frames that are the same in all else;
* `Slot.Respects`: steps that answer alike slots in the same way and leave them alike;
  **`respects_perform`**, `respects_tryAccess`, `respects_accessWith`;
* **`Slot.alike_init`**: a submission leaves of a slot nothing but its number.
-/

namespace DisplayList

/-! ## Stacks -/

namespace CallStack

theorem map_toList_push (s : CallStack) (f : Frame) :
    (s.push f).map toList =
      if s.toList.length = capacity then .error (.overflow capacity)
      else .ok (s.toList ++ [f]) := by
  rw [length_toList]
  cases h : s.push f with
  | error e =>
    obtain ⟨hd, rfl⟩ := push_eq_error_iff.1 h
    simp [hd, Except.map]
  | ok t =>
    have hd : s.depth ≠ capacity := fun hd => by
      have he := (push_eq_error_iff (f := f)).2 ⟨hd, rfl⟩
      simp [h] at he
    simp [hd, Except.map, toList_of_push h]

theorem map_toList_pop? (s : CallStack) :
    s.pop?.map (fun x => (x.1, x.2.toList)) =
      s.toList.getLast?.map fun f => (f, s.toList.dropLast) := by
  cases h : s.pop? with
  | none => simp [pop?_eq_none_iff.1 h]
  | some x => simp [toList_of_pop? h]

end CallStack

/-! ## Fetchers -/

namespace Fetcher

variable (f : Fetcher)

/-- The fetcher but for the number of cursors found. -/
def rest : Fetcher := { f with found := 0 }

@[simp] theorem rest_clear : f.clear.rest = {} := rfl

@[simp] theorem rest_setWindow (w : Window) : (f.setWindow w).rest = f.rest.setWindow w := rfl

@[simp] theorem wanted_rest (pc : Address) : f.rest.wanted pc = f.wanted pc := rfl

@[simp] theorem cursor?_rest : f.rest.cursor? = f.cursor? := rfl

@[simp] theorem rest_setCursor (c : Cursor) : (f.setCursor c).rest = f.rest.setCursor c := by
  obtain ⟨source, window, found⟩ := f
  cases source <;> rfl

theorem rest_leaveWindow (old new : Address) :
    (f.leaveWindow old new).rest = f.rest.leaveWindow old new := by
  obtain ⟨source, window, found⟩ := f
  unfold leaveWindow
  dsimp only [rest]
  split
  · cases source <;> rfl
  · rfl

@[simp] theorem rest_follow (old new : Address) :
    (f.follow old new).rest = f.rest.follow old new := by
  obtain ⟨source, window, found⟩ := f
  cases window with
  | none => exact rest_leaveWindow ..
  | some w =>
    unfold follow
    dsimp only [rest]
    split
    · rfl
    · exact rest_leaveWindow ..

theorem map_rest_install? (pc a : Address) (c : Cursor) :
    (f.rest.install? pc a c).map rest = (f.install? pc a c).map rest := by
  unfold install?
  rw [wanted_rest]
  cases f.wanted pc with
  | none => rfl
  | some b => by_cases h : b = a <;> simp [h, rest]

end Fetcher

/-! ## Slots -/

namespace Slot

/-- The rest of the slot: all but its calls and the number of cursors found. -/
def rest (s : Slot) : Slot := { s with calls := .empty, fetcher := s.fetcher.rest }

/-- The slots have the same live frames and differ at most in dead ones and in the number of
cursors found. -/
structure Alike (s s' : Slot) : Prop where
  rest : s.rest = s'.rest
  calls : s.calls.toList = s'.calls.toList

theorem Alike.refl (s : Slot) : s.Alike s := ⟨rfl, rfl⟩

namespace Alike

variable {s s' : Slot} (h : s.Alike s')

include h

theorem id : s.id = s'.id := (congrArg Slot.id h.rest :)

theorem list : s.list = s'.list := (congrArg Slot.list h.rest :)

theorem stall : s.stall = s'.stall := (congrArg Slot.stall h.rest :)

theorem callbackId : s.callbackId = s'.callbackId := (congrArg Slot.callbackId h.rest :)

theorem pc : s.pc = s'.pc := (congrArg Slot.pc h.rest :)

theorem status : s.status = s'.status := (congrArg Slot.status h.rest :)

theorem flags : s.flags = s'.flags := (congrArg Slot.flags h.rest :)

theorem fetcher : s.fetcher.rest = s'.fetcher.rest := (congrArg Slot.fetcher h.rest :)

theorem isStalled : s.isStalled = s'.isStalled := (congrArg Slot.isStalled h.rest :)

theorem reported : s.reported = s'.reported := (congrArg Slot.reported h.rest :)

theorem isDone : s.isDone = s'.isDone := (congrArg Slot.isDone h.rest :)

theorem isInUse (list stack : Address) : s.isInUse list stack = s'.isInUse list stack :=
  (congrArg (Slot.isInUse · list stack) h.rest :)

theorem depth : s.calls.depth = s'.calls.depth := by
  rw [← CallStack.length_toList, ← CallStack.length_toList, h.calls]

theorem text : s.text = s'.text := (congrArg Slot.text h.rest :)

theorem diagnostic : s.diagnostic = s'.diagnostic := by
  unfold Slot.diagnostic
  rw [h.id, h.status, h.list, h.pc, h.stall, h.depth]

end Alike

/-! ## Steps -/

/-- The step answers alike slots in the same way, and leaves them alike. -/
def Respects {α : Type} (f : Slot → α × Slot) : Prop :=
  ∀ s s', s.Alike s' → (f s).1 = (f s').1 ∧ (f s).2.Alike (f s').2

theorem respects_of_rest {α : Type} {f : Slot → α × Slot} (h₁ : ∀ s, (f s).1 = (f s.rest).1)
    (h₂ : ∀ s, (f s).2.rest = (f s.rest).2.rest) (h₃ : ∀ s, (f s).2.calls = s.calls) :
    Respects f := by
  intro s s' h
  refine ⟨?_, ?_, ?_⟩
  · rw [h₁ s, h₁ s', h.rest]
  · rw [h₂ s, h₂ s', h.rest]
  · rw [h₃, h₃, h.calls]

theorem rest_moveTo (s : Slot) (a : Address) : (s.moveTo a).rest = s.rest.moveTo a := by
  unfold moveTo
  by_cases h : s.pc = Address.aligned a
  · simp [rest, h]
  · simp [rest, h]

theorem calls_moveTo (s : Slot) (a : Address) : (s.moveTo a).calls = s.calls := by
  unfold moveTo
  dsimp only
  split <;> rfl

theorem Alike.moveTo {s s' : Slot} (h : s.Alike s') (a : Address) :
    (s.moveTo a).Alike (s'.moveTo a) where
  rest := by rw [rest_moveTo, rest_moveTo, h.rest]
  calls := by rw [calls_moveTo, calls_moveTo, h.calls]

theorem Alike.withCalls {s s' : Slot} (h : s.Alike s') {calls calls' : CallStack}
    (hc : calls.toList = calls'.toList) : { s with calls }.Alike { s' with calls := calls' } where
  rest := h.rest
  calls := hc

theorem respects_call (target : Address) (offset : UInt32) :
    Respects (Change.perform · (.call target offset)) := by
  intro s s' h
  have hp : (s.calls.push ⟨s.pc, offset⟩).map CallStack.toList =
      (s'.calls.push ⟨s'.pc, offset⟩).map CallStack.toList := by
    rw [CallStack.map_toList_push, CallStack.map_toList_push, h.calls, h.pc]
  unfold Change.perform
  dsimp only [call]
  cases hs : s.calls.push ⟨s.pc, offset⟩ <;> cases hs' : s'.calls.push ⟨s'.pc, offset⟩ <;>
    rw [hs, hs'] at hp <;> simp only [Except.map, reduceCtorEq, Except.error.injEq,
      Except.ok.injEq] at hp
  · exact ⟨congrArg Except.error hp, h⟩
  · exact ⟨rfl, (h.withCalls hp).moveTo target⟩

theorem respects_ret : Respects (Change.perform · .ret) := by
  intro s s' h
  have hp : s.calls.pop?.map (fun x => (x.1, x.2.toList)) =
      s'.calls.pop?.map fun x => (x.1, x.2.toList) := by
    rw [CallStack.map_toList_pop?, CallStack.map_toList_pop?, h.calls]
  unfold Change.perform
  dsimp only [ret?]
  cases hs : s.calls.pop? <;> cases hs' : s'.calls.pop? <;> rw [hs, hs'] at hp <;>
    simp only [Option.map_none, Option.map_some, reduceCtorEq, Option.some.injEq,
      Prod.mk.injEq] at hp
  · exact ⟨rfl, h⟩
  · simp only [Option.map_some, hp.1]
    exact ⟨trivial, (h.withCalls hp.2).moveTo _⟩

/-- **A submission** leaves of a slot nothing but its number. -/
theorem alike_init {s s' : Slot} (h : s.id = s'.id) (sub : Submission) :
    (s.init sub).Alike (s'.init sub) where
  rest := by
    unfold init moveTo
    dsimp only [clear]
    generalize Address.aligned sub.list = list
    by_cases hl : (0 : Address) = Address.aligned list
    · simp [rest, h, hl, Wake.clear]
    · simp [rest, h, hl, Wake.clear]
  calls := by
    simp only [init, calls_moveTo]
    rfl

theorem respects_moveStall (a : Address) : Respects (·.moveStall a) := by
  intro s s' h
  unfold moveStall
  dsimp only
  rw [h.stall]
  by_cases hs : s'.stall = Address.aligned a
  · simp only [hs, if_true]
    exact ⟨trivial, h⟩
  · simp only [hs, if_false]
    have hb := congrArg (fun s : Slot => { s with stall := Address.aligned a }) h.rest
    exact ⟨trivial, hb, h.calls⟩

theorem respects_moveStallWith (a : Address) (w : Window) : Respects (·.moveStallWith a w) := by
  intro s s' h
  obtain ⟨hr, hs⟩ := respects_moveStall a s s' h
  unfold moveStallWith
  refine ⟨hr, ?_, hs.calls⟩
  have hb : ∀ s : Slot, { s with fetcher := (s.fetcher.setWindow w).follow s.pc s.pc }.rest =
      { s.rest with fetcher := (s.rest.fetcher.setWindow w).follow s.pc s.pc } := by
    intro s
    simp [rest]
  exact (hb _).trans ((congrArg (fun s =>
    { s with fetcher := (s.fetcher.setWindow w).follow s.pc s.pc }) hs.rest).trans (hb _).symm)

/-- **Changes** of alike slots. -/
theorem respects_perform (c : Change) : Respects (Change.perform · c) := by
  cases c with
  | init sub => exact fun s s' h => ⟨rfl, alike_init h.id sub⟩
  | reset => exact fun s s' h => ⟨rfl, (congrArg Slot.reset h.rest :), rfl⟩
  | moveTo a => exact fun s s' h => ⟨rfl, h.moveTo a⟩
  | call target offset => exact respects_call target offset
  | ret => exact respects_ret
  | moveStall a => exact respects_moveStall a
  | moveStallWith a w => exact respects_moveStallWith a w
  | _ => exact respects_of_rest (fun _ => rfl) (fun _ => rfl) fun _ => rfl

/-! ## Accesses -/

theorem access_rest (s : Slot) (m : Memory) (a : Access) :
    s.rest.access m a = ((s.access m a).1, (s.access m a).2.rest) := by
  have hc : s.rest.fetcher.cursor? = s.fetcher.cursor? := s.fetcher.cursor?_rest
  cases a <;> simp only [access, hc] <;> cases s.fetcher.cursor?
  case next.some c => cases hr : c.read m <;> simp [rest, hr]
  case previous.some c => cases hr : (c.advance (-2)).read m <;> simp [rest, hr]
  case rewind.some n c => simp [rest]
  all_goals rfl

theorem calls_access (s : Slot) (m : Memory) (a : Access) : (s.access m a).2.calls = s.calls := by
  obtain ⟨pc, fetcher, h⟩ := access_frame s m a
  rw [h]

theorem respects_access (m : Memory) (a : Access) : Respects (·.access m a) :=
  respects_of_rest (fun s => by rw [access_rest]) (fun s => by rw [access_rest]; rfl)
    (calls_access · m a)

theorem respects_tryAccess (m : Memory) (a : Access) : Respects (·.tryAccess m a) := by
  intro s s' h
  have hw : s.fetcher.wanted s.pc = s'.fetcher.wanted s'.pc :=
    (congrArg (fun s => s.fetcher.wanted s.pc) h.rest :)
  unfold tryAccess
  dsimp only
  rw [hw]
  cases s'.fetcher.wanted s'.pc with
  | some address => exact ⟨rfl, h⟩
  | none =>
    obtain ⟨hr, hs⟩ := respects_access m a s s' h
    exact ⟨congrArg Sum.inr hr, hs⟩

theorem respects_accessWith (m : Memory) (address : Address) (c : Cursor) (a : Access) :
    Respects (·.accessWith m address c a) := by
  intro s s' h
  have hi : (s.fetcher.install? s.pc address c).map Fetcher.rest =
      (s'.fetcher.install? s'.pc address c).map Fetcher.rest := by
    rw [← Fetcher.map_rest_install?, h.fetcher, h.pc, Fetcher.map_rest_install?]
  unfold accessWith
  dsimp only
  cases hf : s.fetcher.install? s.pc address c <;>
    cases hf' : s'.fetcher.install? s'.pc address c <;> rw [hf, hf'] at hi <;>
    simp only [Option.map_none, Option.map_some, reduceCtorEq, Option.some.injEq] at hi
  · exact ⟨rfl, h⟩
  next fetcher fetcher' =>
    have hs : { s with fetcher }.Alike { s' with fetcher := fetcher' } := by
      refine ⟨?_, h.calls⟩
      have hb := congrArg (fun s : Slot => { s with fetcher := fetcher.rest }) h.rest
      simpa only [rest, ← hi] using hb
    obtain ⟨hr, hs⟩ := respects_access m a _ _ hs
    exact ⟨congrArg some hr, hs⟩

end Slot

end DisplayList

import DisplayList.Proofs.Abreast
import DisplayList.Proofs.Alike
import DisplayList.Proofs.Aligned

/-!
# Addresses that name the same memory

The two highest bits of an address select an alias. The registers and the frames of the call stacks
keep them as they were given, and so two front ends may differ in them; an instruction address has
none.

* `Address.Shadows`, `Registers.Shadows`: the same but for the alias bits;
  **`Mode.target_shadows`**: branches lead to the same place;
* `Slot.Shadows`, `Change.Shadows`, **`Slot.Shadows.perform`**: changes of lists whose frames are
  the same but for the alias bits;
* `Slot.Shadows.tryAccess`, `Slot.Shadows.accessWith`: accesses.
-/

namespace DisplayList

/-! ## Addresses -/

/-- The addresses are the same but for the alias bits. -/
def Address.Shadows (a b : Address) : Prop :=
  Address.canonical a = Address.canonical b

instance (a b : Address) : Decidable (Address.Shadows a b) :=
  inferInstanceAs (Decidable (Address.canonical a = Address.canonical b))

namespace Address.Shadows

variable {a b : Address}

theorem refl (a : Address) : Shadows a a := rfl

theorem toNat (h : Shadows a b) : a.toNat % 2 ^ 30 = b.toNat % 2 ^ 30 := by
  rw [← toNat_canonical, ← toNat_canonical, h]

theorem aligned (h : Shadows a b) : Address.aligned a = Address.aligned b := by
  have h' := h.toNat
  rw [← UInt32.toNat_inj, toNat_aligned, toNat_aligned]
  omega

theorem add {c d : Address} (h : Shadows a b) (h' : Shadows c d) : Shadows (a + c) (b + d) := by
  have hab := h.toNat
  have hcd := h'.toNat
  unfold Shadows
  rw [← UInt32.toNat_inj, toNat_canonical, toNat_canonical, UInt32.toNat_add, UInt32.toNat_add]
  omega

theorem or (h : Shadows a b) (c : UInt32) : Shadows (a ||| c) (b ||| c) := by
  unfold Shadows
  rw [← UInt32.toNat_inj, toNat_canonical, toNat_canonical, UInt32.toNat_or, UInt32.toNat_or,
    Nat.or_mod_two_pow, Nat.or_mod_two_pow, h.toNat]

end Address.Shadows

/-- The registers are the same but for the alias bits. -/
structure Registers.Shadows (r s : Registers) : Prop where
  base : Address.Shadows r.base s.base
  offset : Address.Shadows r.offset s.offset

theorem Registers.Shadows.refl (r : Registers) : r.Shadows r := ⟨rfl, rfl⟩

/-- **Branches lead to the same place.** -/
theorem Mode.target_shadows {r s : Registers} (h : r.Shadows s) (mode : Mode) (arg : UInt32) :
    mode.target r arg = mode.target s arg := by
  cases mode with
  | absolute => rfl
  | relative => exact h.base.or arg
  | relativeOffset => exact (h.base.or arg).add h.offset

/-! ## Lists -/

/-- The frames go back to the same place, with offsets that are the same but for the alias bits. -/
structure Frame.Shadows (f g : Frame) : Prop where
  returnPc : f.returnPc = g.returnPc
  offset : Address.Shadows f.offset g.offset

/-- The lists are the same but for the alias bits of the offsets in their frames. -/
structure Slot.Shadows (s s' : Slot) : Prop where
  rest : { s with calls := .empty } = { s' with calls := .empty }
  calls : List.Forall₂ Frame.Shadows s.calls.toList s'.calls.toList

namespace Slot

variable {s s' : Slot}

theorem Shadows.refl (s : Slot) : s.Shadows s :=
  ⟨rfl, List.forall₂_same.2 fun _ _ => ⟨rfl, rfl⟩⟩

namespace Shadows

variable (h : s.Shadows s')

include h

theorem id : s.id = s'.id := (congrArg Slot.id h.rest :)

theorem stall : s.stall = s'.stall := (congrArg Slot.stall h.rest :)

theorem callbackId : s.callbackId = s'.callbackId := (congrArg Slot.callbackId h.rest :)

theorem pc : s.pc = s'.pc := (congrArg Slot.pc h.rest :)

theorem status : s.status = s'.status := (congrArg Slot.status h.rest :)

theorem flags : s.flags = s'.flags := (congrArg Slot.flags h.rest :)

theorem fetcher : s.fetcher = s'.fetcher := (congrArg Slot.fetcher h.rest :)

theorem isStalled : s.isStalled = s'.isStalled := (congrArg Slot.isStalled h.rest :)

theorem reported : s.reported = s'.reported := (congrArg Slot.reported h.rest :)

theorem isDone : s.isDone = s'.isDone := (congrArg Slot.isDone h.rest :)

theorem isInUse (list stack : Address) : s.isInUse list stack = s'.isInUse list stack :=
  (congrArg (Slot.isInUse · list stack) h.rest :)

theorem depth : s.calls.depth = s'.calls.depth := by
  rw [← CallStack.length_toList, ← CallStack.length_toList, h.calls.length_eq]

theorem text : s.text = s'.text := (congrArg Slot.text h.rest :)

theorem diagnostic : s.diagnostic = s'.diagnostic := by
  have hlist : s.list = s'.list := (congrArg Slot.list h.rest :)
  unfold Slot.diagnostic
  rw [h.id, h.status, hlist, h.pc, h.stall, h.depth]

theorem update {α : Type} (f : Slot → α × Slot)
    (h₁ : ∀ s, (f s).1 = (f { s with calls := .empty }).1 := by exact fun _ => rfl)
    (h₂ : ∀ s, { (f s).2 with calls := .empty } = (f { s with calls := .empty }).2 := by
      exact fun _ => rfl)
    (h₃ : ∀ s, (f s).2.calls = s.calls := by exact fun _ => rfl) :
    (f s).1 = (f s').1 ∧ (f s).2.Shadows (f s').2 := by
  refine ⟨?_, ?_, ?_⟩
  · rw [h₁ s, h₁ s', h.rest]
  · rw [h₂ s, h₂ s', h.rest]
  · rw [h₃, h₃]
    exact h.calls

theorem moveTo (a : Address) : (s.moveTo a).Shadows (s'.moveTo a) := by
  refine (h.update (fun s => ((), s.moveTo a)) (fun _ => rfl) (fun s => ?_)
    (calls_moveTo · a)).2
  unfold Slot.moveTo
  by_cases hpc : s.pc = Address.aligned a
  · simp [hpc]
  · simp [hpc]

theorem withCalls {calls calls' : CallStack}
    (hc : List.Forall₂ Frame.Shadows calls.toList calls'.toList) :
    { s with calls }.Shadows { s' with calls := calls' } :=
  ⟨h.rest, hc⟩

end Shadows

end Slot

/-! ## Changes -/

/-- The submissions are the same but for the alias bits of the address of the list and of its stall
address. -/
structure Submission.Shadows (a b : Submission) : Prop where
  list : Address.Shadows a.list b.list
  stall : Address.Shadows a.stall b.stall
  callbackId : a.callbackId = b.callbackId
  params : a.params = b.params

namespace Change

/-- The changes are the same but for alias bits. -/
inductive Shadows : Change → Change → Prop
  | refl (c : Change) : Shadows c c
  | init {sub sub' : Submission} : sub.Shadows sub' → Shadows (.init sub) (.init sub')
  | call (target : Address) {offset offset' : UInt32} : Address.Shadows offset offset' →
    Shadows (.call target offset) (.call target offset')
  | moveStall {a b : Address} : Address.Shadows a b → Shadows (.moveStall a) (.moveStall b)
  | moveStallWith {a b : Address} (w : Window) : Address.Shadows a b →
    Shadows (.moveStallWith a w) (.moveStallWith b w)

end Change

namespace Slot

variable {s s' : Slot}

theorem init_shadows (s : Slot) {a b : Submission} (h : a.Shadows b) : s.init a = s.init b := by
  unfold init
  dsimp only
  rw [h.list.aligned, h.stall.aligned, h.callbackId, h.params]

theorem moveStall_shadows (s : Slot) {a b : Address} (h : Address.Shadows a b) :
    s.moveStall a = s.moveStall b := by
  unfold moveStall
  rw [h.aligned]

theorem moveStallWith_shadows (s : Slot) {a b : Address} (h : Address.Shadows a b) (w : Window) :
    s.moveStallWith a w = s.moveStallWith b w := by
  unfold moveStallWith
  rw [moveStall_shadows s h]

namespace Shadows

variable (h : s.Shadows s')

include h

theorem init (sub : Submission) : (s.init sub).Shadows (s'.init sub) := by
  have hsub : Shadows
      { s.clear with
        list := Address.aligned sub.list
        stall := Address.aligned sub.stall
        callbackId := sub.callbackId
        params := sub.params }
      { s'.clear with
        list := Address.aligned sub.list
        stall := Address.aligned sub.stall
        callbackId := sub.callbackId
        params := sub.params } := by
    refine ⟨?_, .nil⟩
    exact congrArg (fun s : Slot => { s.clear with
      list := Address.aligned sub.list
      stall := Address.aligned sub.stall
      callbackId := sub.callbackId
      params := sub.params
      calls := .empty }) h.rest
  exact ((hsub.moveTo (Address.aligned sub.list)).update fun s => ((), { s with
    status := if s.pc = s.stall then .stallReached else .queued
    flags := .fresh
    wake := s.wake.clear })).2

theorem moveStall (a : Address) : (s.moveStall a).1 = (s'.moveStall a).1 ∧
    (s.moveStall a).2.Shadows (s'.moveStall a).2 := by
  refine h.update (·.moveStall a) (fun s => ?_) (fun s => ?_) fun s => ?_
  all_goals
    unfold Slot.moveStall
    by_cases hs : s.stall = Address.aligned a <;> simp [hs]

theorem moveStallWith (a : Address) (w : Window) :
    (s.moveStallWith a w).1 = (s'.moveStallWith a w).1 ∧
      (s.moveStallWith a w).2.Shadows (s'.moveStallWith a w).2 := by
  obtain ⟨hr, hs⟩ := h.moveStall a
  exact ⟨hr, (hs.update fun s =>
    ((), { s with fetcher := (s.fetcher.setWindow w).follow s.pc s.pc })).2⟩

/-- **A call** saves an offset that may differ in its alias bits. -/
theorem call (target : Address) {offset offset' : UInt32} (ho : Address.Shadows offset offset') :
    ((Change.call target offset).perform s).1 = ((Change.call target offset').perform s').1 ∧
      ((Change.call target offset).perform s).2.Shadows
        ((Change.call target offset').perform s').2 := by
  have hlength := h.calls.length_eq
  have hv := CallStack.map_toList_push s.calls ⟨s.pc, offset⟩
  have hw := CallStack.map_toList_push s'.calls ⟨s'.pc, offset'⟩
  rw [hlength] at hv
  unfold Change.perform
  dsimp only [Slot.call]
  by_cases hfull : s'.calls.toList.length = CallStack.capacity
  · rw [if_pos hfull] at hv hw
    cases hs : s.calls.push ⟨s.pc, offset⟩ with
    | ok calls => simp [hs, Except.map] at hv
    | error e =>
      cases hs' : s'.calls.push ⟨s'.pc, offset'⟩ with
      | ok calls => simp [hs', Except.map] at hw
      | error e' =>
        rw [hs] at hv
        rw [hs'] at hw
        have he : e = e' := Except.error.inj (hv.trans hw.symm)
        exact ⟨congrArg Except.error he, h⟩
  · rw [if_neg hfull] at hv hw
    cases hs : s.calls.push ⟨s.pc, offset⟩ with
    | error e => simp [hs, Except.map] at hv
    | ok calls =>
      cases hs' : s'.calls.push ⟨s'.pc, offset'⟩ with
      | error e => simp [hs', Except.map] at hw
      | ok calls' =>
        rw [hs] at hv
        rw [hs'] at hw
        refine ⟨rfl, (h.withCalls ?_).moveTo target⟩
        rw [Except.ok.inj hv, Except.ok.inj hw]
        exact List.rel_append h.calls (.cons ⟨h.pc, ho⟩ .nil)

/-- **A return** goes back to the same place, with an offset that may differ in its alias bits. -/
theorem ret :
    Option.Rel Address.Shadows (Change.ret.perform s).1 (Change.ret.perform s').1 ∧
      (Change.ret.perform s).2.Shadows (Change.ret.perform s').2 := by
  unfold Change.perform
  dsimp only [Slot.ret?]
  cases hs : s.calls.pop? with
  | none =>
    have hempty : s'.calls.pop? = none := by
      have hcalls := h.calls
      rw [CallStack.pop?_eq_none_iff] at hs ⊢
      rw [hs] at hcalls
      exact List.forall₂_nil_left_iff.1 hcalls
    rw [hempty]
    exact ⟨.none, h⟩
  | some x =>
    cases hs' : s'.calls.pop? with
    | none =>
      have hcalls := h.calls
      rw [CallStack.pop?_eq_none_iff.1 hs', CallStack.toList_of_pop? hs] at hcalls
      simp at hcalls
    | some x' =>
      have hcalls := h.calls
      rw [CallStack.toList_of_pop? hs, CallStack.toList_of_pop? hs', ← List.forall₂_reverse_iff]
        at hcalls
      simp only [List.reverse_append, List.reverse_singleton, List.singleton_append,
        List.forall₂_cons, List.forall₂_reverse_iff] at hcalls
      obtain ⟨hframe, hrest⟩ := hcalls
      have hmoved := (h.withCalls hrest).moveTo x.1.returnPc
      refine ⟨.some hframe.offset, ?_⟩
      simp only [Option.map_some, ← hframe.returnPc]
      exact hmoved

end Shadows

/-- **Changes that are the same but for alias bits.** -/
theorem Shadows.perform {c c' : Change} (h : s.Shadows s') (hc : c.Shadows c') :
    c.Agree Address.Shadows c' (c.perform s).1 (c'.perform s').1 ∧
      (c.perform s).2.Shadows (c'.perform s').2 := by
  have same : ∀ {β : Type} {r r' : β} {t t' : Slot}, r = r' ∧ t.Shadows t' →
      HEq r r' ∧ t.Shadows t' := fun h => ⟨heq_of_eq h.1, h.2⟩
  cases hc with
  | refl c =>
    cases c with
    | ret => exact h.ret
    | call target offset =>
      exact same (h.call target (.refl offset))
    | moveTo a => exact ⟨.rfl, h.moveTo a⟩
    | init sub => exact ⟨.rfl, h.init sub⟩
    | moveStall a => exact same (h.moveStall a)
    | moveStallWith a w => exact same (h.moveStallWith a w)
    | reset => exact ⟨.rfl, (congrArg Slot.reset h.rest :), .nil⟩
    | setStatus status => exact same (h.update (Change.perform · (.setStatus status)))
    | useCursor c => exact same (h.update (Change.perform · (.useCursor c)))
    | setPaused b => exact same (h.update (Change.perform · (.setPaused b)))
    | setRestarted b => exact same (h.update (Change.perform · (.setRestarted b)))
    | setFinished => exact same (h.update (Change.perform · .setFinished))
    | setEnded b => exact same (h.update (Change.perform · (.setEnded b)))
    | postWake => exact same (h.update (Change.perform · .postWake))
    | setSave a => exact same (h.update (Change.perform · (.setSave a)))
    | block thread => exact same (h.update (Change.perform · (.block thread)))
    | takeBlocked => exact same (h.update (Change.perform · .takeBlocked))
  | init hsub =>
    refine ⟨.rfl, ?_⟩
    unfold Change.perform
    dsimp only
    rw [init_shadows s hsub]
    exact h.init _
  | call target ho => exact same (h.call target ho)
  | moveStall ha =>
    unfold Change.perform
    dsimp only
    rw [moveStall_shadows s ha]
    exact same (h.moveStall _)
  | moveStallWith w ha =>
    unfold Change.perform
    dsimp only
    rw [moveStallWith_shadows s ha]
    exact same (h.moveStallWith _ w)

/-! ## Accesses -/

theorem access_withCalls (s : Slot) (calls : CallStack) (m : Memory) (a : Access) :
    { s with calls }.access m a = ((s.access m a).1, { (s.access m a).2 with calls }) := by
  cases a <;> simp only [access] <;> cases s.fetcher.cursor?
  case next.some c => cases hr : c.read m <;> simp only [hr]
  case previous.some c => cases hr : (c.advance (-2)).read m <;> simp only [hr]
  case rewind.some n c => rfl
  all_goals rfl

theorem tryAccess_withCalls (s : Slot) (calls : CallStack) (m : Memory) (a : Access) :
    { s with calls }.tryAccess m a =
      ((s.tryAccess m a).1, { (s.tryAccess m a).2 with calls }) := by
  unfold tryAccess
  rw [access_withCalls]
  dsimp only
  cases s.fetcher.wanted s.pc <;> rfl

theorem accessWith_withCalls (s : Slot) (calls : CallStack) (m : Memory) (address : Address)
    (c : Cursor) (a : Access) : { s with calls }.accessWith m address c a =
      ((s.accessWith m address c a).1, { (s.accessWith m address c a).2 with calls }) := by
  unfold accessWith
  dsimp only
  cases s.fetcher.install? s.pc address c with
  | none => rfl
  | some fetcher =>
    have ha := access_withCalls { s with fetcher } calls m a
    dsimp only at ha ⊢
    rw [ha]

namespace Shadows

variable (h : s.Shadows s')

include h

theorem of_withCalls {β : Type} {f : Slot → β × Slot}
    (hf : ∀ s calls, f { s with calls } = ((f s).1, { (f s).2 with calls })) :
    (f s).1 = (f s').1 ∧ (f s).2.Shadows (f s').2 := by
  have hcalls : ∀ s, (f s).2.calls = s.calls := fun s => (congrArg (·.2.calls) (hf s s.calls) :)
  exact h.update f (fun s => (congrArg Prod.fst (hf s .empty)).symm)
    (fun s => (congrArg Prod.snd (hf s .empty)).symm) hcalls

theorem tryAccess (m : Memory) (a : Access) :
    (s.tryAccess m a).1 = (s'.tryAccess m a).1 ∧
      (s.tryAccess m a).2.Shadows (s'.tryAccess m a).2 :=
  h.of_withCalls (f := (·.tryAccess m a)) fun s calls => s.tryAccess_withCalls calls m a

theorem accessWith (m : Memory) (address : Address) (c : Cursor) (a : Access) :
    (s.accessWith m address c a).1 = (s'.accessWith m address c a).1 ∧
      (s.accessWith m address c a).2.Shadows (s'.accessWith m address c a).2 :=
  h.of_withCalls (f := (·.accessWith m address c a)) fun s calls =>
    s.accessWith_withCalls calls m address c a

end Shadows

end Slot

end DisplayList

import DisplayList.Proofs.Abreast
import DisplayList.Proofs.Alike

/-!
# Slots used again

What a slot was used for before a submission shows in nothing that is done after it, to the slot or
to anything else: not in an answer, not in a callback, not in what a renderer hears, and not in the
state of any list.

* `FrontEnd.Alike`: two front ends that differ only in what nobody sees of their slots, and that
  have said the same since some point in time; **`alike_perform`**, `Alike.tell`;
* `unseen`, **`steady_serve`**: no request makes anything of what nobody sees; **`kept_alike`**:
  such front ends are left so;
* **`reuse_leaks_nothing`**: two front ends that differ in what a slot was used for do the same once
  a list is submitted to it.
-/

namespace DisplayList

/-! ## Front ends -/

namespace FrontEnd

/-- What serves the slots: the front end without them, and without what it has said so far. -/
def services (w : FrontEnd) : FrontEnd :=
  { w with slots := #[], events := #[], journal := #[] }

/-- `Alike v₀ w₀ v w`: what serves the slots of `v` and `w` is the same, nobody sees a difference
between their slots, and `v` has said the same since it was `v₀` as `w` since it was `w₀`. If nobody
takes events from the channel any more, those not taken are lost on both sides. -/
structure Alike (v₀ w₀ v w : FrontEnd) : Prop where
  services : v.services = w.services
  size : v.slots.size = w.slots.size
  slots : ∀ i, (v.slot i).Alike (w.slot i)
  journal : ∃ lines, v.journal = v₀.journal ++ lines ∧ w.journal = w₀.journal ++ lines
  events : (∃ sent, v.events = v₀.events ++ sent ∧ w.events = w₀.events ++ sent) ∨
    (w.listening = false ∧ v.events = #[] ∧ w.events = #[])

namespace Alike

variable {v₀ w₀ v w : FrontEnd} (h : Alike v₀ w₀ v w)

include h

theorem memory : v.memory = w.memory := (congrArg FrontEnd.memory h.services :)

theorem queue : v.queue = w.queue := (congrArg FrontEnd.queue h.services :)

theorem listening : v.listening = w.listening := (congrArg FrontEnd.listening h.services :)

theorem host : v.host = w.host := (congrArg FrontEnd.host h.services :)

theorem backend : v.backend = w.backend := (congrArg FrontEnd.backend h.services :)

theorem selected : v.selected? = w.selected? := (congrArg FrontEnd.selected? h.services :)

theorem update (f : FrontEnd → FrontEnd)
    (hf : ∀ w, (f w).services = (f w.services).services := by exact fun _ => rfl)
    (hs : ∀ w, (f w).slots = w.slots := by exact fun _ => rfl)
    (hj : ∀ w, (f w).journal = w.journal := by exact fun _ => rfl)
    (he : ∀ w, (f w).events = w.events := by exact fun _ => rfl)
    (hl : ∀ w, (f w).listening = w.listening := by exact fun _ => rfl) :
    Alike v₀ w₀ (f v) (f w) where
  services := by rw [hf v, hf w, h.services]
  size := by rw [hs, hs, h.size]
  slots i := by
    rw [slot_congr v i (hs v), slot_congr w i (hs w)]
    exact h.slots i
  journal := by
    rw [hj, hj]
    exact h.journal
  events := by
    rw [he, he, hl]
    exact h.events

theorem setSlot (i : Nat) {s s' : Slot} (hs : s.Alike s') :
    Alike v₀ w₀ (v.setSlot i s) (w.setSlot i s') where
  services := h.services
  size := by rw [size_setSlot, size_setSlot, h.size]
  slots j := by
    rw [slot_setSlot, slot_setSlot, h.size]
    split
    · exact hs
    · exact h.slots j
  journal := h.journal
  events := h.events

theorem note (e : Entry) : Alike v₀ w₀ (v.note e) (w.note e) where
  services := h.services
  size := h.size
  slots := h.slots
  journal := by
    obtain ⟨lines, hv, hw⟩ := h.journal
    exact ⟨lines.push e, by simp [FrontEnd.note, hv], by simp [FrontEnd.note, hw]⟩
  events := h.events

theorem send (hl : w.listening = true) (e : Event) :
    Alike v₀ w₀ { v with events := v.events.push e } { w with events := w.events.push e } where
  services := h.services
  size := h.size
  slots := h.slots
  journal := h.journal
  events := by
    rcases h.events with ⟨sent, hv, hw⟩ | ⟨hn, -, -⟩
    · exact .inl ⟨sent.push e, by simp [hv], by simp [hw]⟩
    · simp [hl] at hn

theorem hangUp :
    Alike v₀ w₀ { v with listening := false, events := #[] }
      { w with listening := false, events := #[] } where
  services := congrArg (fun w : FrontEnd => { w with listening := false }) h.services
  size := h.size
  slots := h.slots
  journal := h.journal
  events := .inr ⟨rfl, rfl, rfl⟩

theorem tellEngine (i : Nat) (n : Notice) :
    Alike v₀ w₀ (v.tellEngine i n) (w.tellEngine i n) := by
  cases n <;> exact h.update (·.tellEngine i _)

theorem tellRenderer (r : Renderer) (i : Nat) (n : Notice) :
    Alike v₀ w₀ (v.tellRenderer r i n) (w.tellRenderer r i n) := by
  unfold FrontEnd.tellRenderer
  dsimp only
  rw [(h.slots i).id, (h.slots i).stall]
  generalize ({ notice := n, list := (w.slot i).id, stall := (w.slot i).stall } : Event) = e
  cases r with
  | channel =>
    by_cases hl : w.listening && e.isCarried
    · have hl' : v.listening && e.isCarried := by rw [h.listening, hl]
      simp only [hl, hl', if_true]
      exact h.send (Bool.and_eq_true_iff.1 hl).1 e
    · have hl' : ¬ (v.listening && e.isCarried) := by rwa [h.listening]
      simp only [hl, hl']
      exact h
  | recorder kind => exact h.note (.heard e)
  | inert => exact h

/-- **The backends hear the same.** -/
theorem notify (i : Nat) (n : Notice) : Alike v₀ w₀ (v.notify i n) (w.notify i n) := by
  unfold FrontEnd.notify
  rw [h.backend, h.selected]
  split
  · exact h.tellEngine i n
  · exact h.tellRenderer _ i n
  · split
    · exact (h.tellEngine i .reset).tellRenderer _ i .reset
    · exact h.tellEngine i .reset
    · exact h.tellRenderer _ i _
    · exact h.tellEngine i _

/-- **The host hears the same**, and does the same about it. -/
theorem tell (r : Report) :
    (v.tell r).1 = (w.tell r).1 ∧ Alike v₀ w₀ (v.tell r).2 (w.tell r).2 := by
  unfold FrontEnd.tell
  rw [h.host]
  split
  · exact ⟨rfl, (h.update fun x => { x with host := (w.host.react r).2 }).note _⟩
  · exact ⟨rfl, h⟩

end Alike

end FrontEnd

/-! ## Actions -/

namespace Action

/-- The answers are the same, or slots that nobody can tell apart. -/
def SameAnswer : (a : Action) → a.Answer → a.Answer → Prop
  | look _, s, s' => Slot.Alike s s'
  | _, r, r' => r = r'

variable {v₀ w₀ v w : FrontEnd}

theorem alike_onSlot {α : Type} {f : Slot → α × Slot} (hf : Slot.Respects f)
    (h : FrontEnd.Alike v₀ w₀ v w) (i : Nat) :
    (onSlot v i f).1 = (onSlot w i f).1 ∧
      FrontEnd.Alike v₀ w₀ (onSlot v i f).2 (onSlot w i f).2 := by
  obtain ⟨hr, hs⟩ := hf _ _ (h.slots i)
  exact ⟨hr, h.setSlot i hs⟩

/-- **An action** has the same answer and the same effect. -/
theorem alike_perform (h : FrontEnd.Alike v₀ w₀ v w) (a : Action) :
    a.SameAnswer (a.perform v).1 (a.perform w).1 ∧
      FrontEnd.Alike v₀ w₀ (a.perform v).2 (a.perform w).2 := by
  cases a with
  | look i => exact ⟨h.slots i, h⟩
  | change i c => exact alike_onSlot (Slot.respects_perform c) h i
  | await i =>
    have hr : Slot.Respects fun s => (s.wake.take.1, { s with wake := s.wake.take.2 }) :=
      Slot.respects_of_rest (fun _ => rfl) (fun _ => rfl) fun _ => rfl
    exact alike_onSlot hr h i
  | access i a =>
    have hp := alike_onSlot (Slot.respects_tryAccess w.memory a) h i
    simp only [perform, h.memory]
    exact hp
  | accessWith i address c a =>
    have hp := alike_onSlot (Slot.respects_accessWith w.memory address c a) h i
    simp only [perform, h.memory]
    exact hp
  | write a ws =>
    simp only [perform, h.memory]
    cases w.memory.writeWords a ws with
    | ok memory => exact ⟨rfl, h.update fun x => { x with memory }⟩
    | error f => exact ⟨rfl, h⟩
  | enqueue i p => exact ⟨rfl, h.update (·.enqueue i p)⟩
  | dequeue => exact ⟨congrArg List.head? h.queue, h.update (·.dequeue.2)⟩
  | withdraw i =>
    exact ⟨congrArg (List.contains · i) h.queue, h.update fun x => (x.withdraw i).2⟩
  | queuedIds =>
    refine ⟨?_, h⟩
    change v.queuedIds = w.queuedIds
    unfold FrontEnd.queuedIds
    rw [h.queue]
    exact List.map_congr_left fun i _ => (h.slots i).id
  | notify i n => exact ⟨rfl, h.notify i n⟩
  | kind => exact ⟨(congrArg FrontEnd.kind h.services :), h⟩
  | route b =>
    have hr : (v.route b).1 = (w.route b).1 := (congrArg (fun w => (w.route b).1) h.services :)
    exact ⟨hr, h.update fun x => (x.route b).2⟩
  | routerText => exact ⟨(congrArg FrontEnd.routerText h.services :), h⟩
  | servicesText => exact ⟨(congrArg FrontEnd.servicesText h.services :), h⟩
  | registers => exact ⟨(congrArg FrontEnd.registers h.services :), h⟩
  | setRegisters r => exact ⟨rfl, h.update fun x => { x with registers := r }⟩
  | poolSize => exact ⟨(congrArg FrontEnd.poolSize h.services :), h⟩
  | testVisible =>
    simp only [perform, FrontEnd.testVisible, h.host]
    have hv : FrontEnd.Alike v₀ w₀ _ _ := h.update fun x =>
      { x with host := { w.host with visible := w.host.visible.tail } }
    exact ⟨rfl, hv.note _⟩
  | note name reply => exact ⟨rfl, h.note _⟩
  | setHost f => exact ⟨rfl, h.update fun x => { x with host := f x.host }⟩
  | hangUp => exact ⟨rfl, h.hangUp⟩
  | close => exact ⟨rfl, h.update fun x => { x with closed := true }⟩
  | isClosed => exact ⟨(congrArg FrontEnd.closed h.services :), h⟩

end Action

/-! ## Runs -/

/-- The lists may differ in what nobody sees of them, and in nothing else. -/
def unseen : Likeness where
  slots := Slot.Alike
  words := Eq
  acts := Eq

theorem Action.SameAnswer.agree {a : Action} {r r' : a.Answer} (h : a.SameAnswer r r') :
    unseen.Agree a a r r' := by
  cases a with
  | look i => exact h
  | registers =>
    cases h
    exact ⟨rfl, rfl⟩
  | change i c =>
    cases h
    cases c with
    | ret =>
      cases r with
      | none => exact .none
      | some offset => exact .some rfl
    | _ => exact HEq.rfl
  | _ => exact heq_of_eq h

namespace Process

variable {v₀ w₀ : FrontEnd}

theorem sound_unseen : unseen.Sound where
  seen h :=
    { id := h.id, callbackId := h.callbackId, pc := h.pc, status := h.status, flags := h.flags
      isStalled := h.isStalled, reported := h.reported, isDone := h.isDone, isInUse := h.isInUse
      text := h.text, diagnostic := h.diagnostic }
  word _ := rfl
  target := by
    rintro ⟨base, offset⟩ ⟨_, _⟩ ⟨rfl, rfl⟩ mode arg
    rfl
  same _ _ := rfl
  sameRegisters := by
    rintro ⟨base, offset⟩ ⟨_, _⟩ ⟨rfl, rfl⟩
    rfl
  sameCall i target o o' h := by
    rw [h]
    rfl

/-- **No request** makes anything of what nobody sees. -/
theorem steady_serve (r : Request) : Steady unseen r.serve := by
  by_cases hr : r.Prepares
  · cases r with
    | expect | onCommand | onCallback | onCursor =>
      exact abreast_act rfl fun _ _ _ => abreast_pure _
    | _ => exact hr.elim
  · exact sound_unseen.serve r hr

theorem kept_alike : unseen.Kept (FrontEnd.Alike v₀ w₀) where
  perform h ha := by
    cases ha
    obtain ⟨hr, h'⟩ := Action.alike_perform h _
    exact ⟨hr.agree, h'⟩
  tell r h := by
    obtain ⟨hr, h'⟩ := h.tell r
    rw [hr]
    exact ⟨sound_unseen.serveAll (List.forall₂_same.2 fun x _ => ⟨rfl, steady_serve x.2⟩), h'⟩

end Process

/-! ## Slots used again -/

namespace FrontEnd

/-- Carries out requests one after the other, each within a budget of steps, and gives their
answers. -/
def answers (budget : Nat) : List Request → FrontEnd → Option (List Reply × FrontEnd)
  | [], w => some ([], w)
  | r :: rest, w => do
    let (reply, w) ← r.serve.run budget w
    let (replies, w) ← answers budget rest w
    return (reply :: replies, w)

theorem rel_answers {v₀ w₀ v w : FrontEnd} {budget : Nat} {r : Request} {rest : List Request}
    (hr : Option.Rel (fun x y => x.1 = y.1 ∧ Alike v₀ w₀ x.2 y.2)
      (r.serve.run budget v) (r.serve.run budget w))
    (hrest : ∀ {v w}, Alike v₀ w₀ v w →
      Option.Rel (fun x y => x.1 = y.1 ∧ Alike v₀ w₀ x.2 y.2)
        (v.answers budget rest) (w.answers budget rest)) :
    Option.Rel (fun x y => x.1 = y.1 ∧ Alike v₀ w₀ x.2 y.2)
      (v.answers budget (r :: rest)) (w.answers budget (r :: rest)) := by
  unfold answers
  generalize r.serve.run budget v = x at hr
  generalize r.serve.run budget w = y at hr
  cases hr with
  | none => exact .none
  | @some x y hr =>
    have hs := hrest hr.2
    simp only [Option.bind_eq_bind, Option.bind_some]
    generalize x.2.answers budget rest = x' at hs
    generalize y.2.answers budget rest = y' at hs
    cases hs with
    | none => exact .none
    | some hs => exact .some ⟨by simp [hr.1, hs.1], hs.2⟩

/-- **Two sessions.** Front ends that nobody can tell apart answer requests in the same way. -/
theorem Alike.answers {v₀ w₀ v w : FrontEnd} (h : Alike v₀ w₀ v w) (budget : Nat)
    (requests : List Request) :
    Option.Rel (fun x y => x.1 = y.1 ∧ Alike v₀ w₀ x.2 y.2)
      (v.answers budget requests) (w.answers budget requests) := by
  induction requests generalizing v w with
  | nil => exact .some ⟨rfl, h⟩
  | cons r rest ih => exact rel_answers (Process.kept_alike.run (Process.steady_serve r) h budget) ih

/-- The front ends are the same but for what the slot at position `i` was used for, for what nobody
sees of the others, and for what was said so far. -/
structure SameBut (i : Nat) (v w : FrontEnd) : Prop where
  services : v.services = w.services
  size : v.slots.size = w.slots.size
  id : (v.slot i).id = (w.slot i).id
  slots : ∀ j, j ≠ i → (v.slot j).Alike (w.slot j)

theorem SameBut.alike_init {i : Nat} {v w : FrontEnd} (h : v.SameBut i w) (sub : Submission) :
    Alike v w ((Action.change i (.init sub)).perform v).2
      ((Action.change i (.init sub)).perform w).2 where
  services := h.services
  size := by rw [Action.size_perform, Action.size_perform, h.size]
  slots j := by
    rw [Action.slot_perform, Action.slot_perform, Action.onto_change, Action.onto_change, h.size]
    by_cases hj : i = j
    · subst hj
      by_cases hi : i < w.slots.size
      · simp only [hi, if_true]
        exact Slot.alike_init h.id sub
      · have hsize := h.size
        have hw := slot_of_le w i (by omega)
        have hv := slot_of_le v i (by omega)
        simp only [hi, if_false, hv, hw]
        exact .refl _
    · simp only [hj, if_false, ite_self]
      exact h.slots j fun he => hj he.symm
  journal := ⟨#[], Array.append_empty.symm, Array.append_empty.symm⟩
  events := .inl ⟨#[], Array.append_empty.symm, Array.append_empty.symm⟩

/-- **A slot used again leaks nothing.** Whatever a slot was used for, once a list is submitted to
it any requests have the same answers, are followed by the same callbacks and events, and leave the
same state behind; or they have not ended within the budget on either side. -/
theorem reuse_leaks_nothing {i : Nat} {v w : FrontEnd} (h : v.SameBut i w) (sub : Submission)
    (budget : Nat) (requests : List Request) :
    Option.Rel (fun x y => x.1 = y.1 ∧ Alike v w x.2 y.2)
      (v.answers budget (.init i sub :: requests))
      (w.answers budget (.init i sub :: requests)) := by
  refine rel_answers ?_ fun ha => ha.answers budget requests
  match budget with
  | 0 | 1 => exact .none
  | n + 2 => exact .some ⟨rfl, h.alike_init sub⟩

/-- A list that was left two calls deep, with a cursor at hand, a wake-up that nobody took and a
thread that waits. -/
def leftOver : Slot :=
  { Slot.new 0 with
    status := .drawing
    save := 64
    pc := 0x08800010
    calls := ⟨.replicate _ ⟨0x08800004, 4⟩, 2, by decide⟩
    fetcher := { source := .own ⟨0x08800010, .word⟩, found := 3 }
    flags := { Flags.fresh with paused := true }
    wake := { pending := true }
    blocked := [7] }

/-- Its slot used again, beside one that was never used. -/
theorem reuse_leaks_nothing_leftOver :
    let v : FrontEnd := { slots := #[leftOver], poolSize := 1, events := #[⟨.finished, 0, 0⟩] }
    let w : FrontEnd := { slots := #[Slot.new 0], poolSize := 1 }
    let sub : Submission := ⟨0x08800000, 0, 1, none⟩
    let requests : List Request := [.ret 0, .wait 0, .takeBlocked 0, .access 0 .next, .status 0]
    v.SameBut 0 w ∧ (v.answers 20 (.init 0 sub :: requests)).isSome ∧
      Option.Rel (fun x y => x.1 = y.1 ∧ Alike v w x.2 y.2)
        (v.answers 20 (.init 0 sub :: requests)) (w.answers 20 (.init 0 sub :: requests)) := by
  intro v w sub requests
  have h : v.SameBut 0 w := by
    refine ⟨rfl, rfl, rfl, fun j hj => ?_⟩
    rw [slot_of_le v j (Nat.pos_of_ne_zero hj), slot_of_le w j (Nat.pos_of_ne_zero hj)]
    exact .refl _
  exact ⟨h, by decide +kernel, reuse_leaks_nothing h sub 20 requests⟩

end FrontEnd

end DisplayList

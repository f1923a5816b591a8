import DisplayList.Proofs.Alone
import DisplayList.Proofs.Rounds
import DisplayList.Proofs.Steering

/-!
# What handing over does not change

How a list is handed over shows in memory, in its stall address, its status, its fetcher and its
wake-ups, and in where the journal has cursors looked for. The rest is shown: `FrontEnd.shown`.
Apart from the fetches and the waits at the stall address, the engine sees only what is shown.

* `Action.Plain`, **`Plain.shown`**: actions whose answer and effect depend on what is shown;
* `Oblivious`: processes of such actions that make nothing of what is not shown;
* **`oblivious_step`**, `oblivious_stopWith`: all that a word makes the engine do is of this kind.
-/

namespace DisplayList

/-! ## What is shown -/

/-- The slot without what depends on how the list is handed over. -/
def Slot.shown (s : Slot) : Slot :=
  { s with
    stall := 0
    status := .done
    fetcher := {}
    wake := {} }

/-- Whether the line is there however the list is handed over. -/
def Entry.isShown : Entry → Bool
  | .told (.cursor ..) => false
  | _ => true

namespace FrontEnd

/-- The front end without what depends on how its lists are handed over. -/
def shown (w : FrontEnd) : FrontEnd :=
  { w with
    memory := .empty
    slots := w.slots.map Slot.shown
    journal := w.journal.filter Entry.isShown
    closed := false }

variable (w : FrontEnd) (i : Nat)

@[simp] theorem slot_shown : w.shown.slot i = (w.slot i).shown := by
  unfold shown slot
  simp only [Array.getD_eq_getD_getElem?, Array.getElem?_map]
  cases w.slots[i]? with
  | none => rfl
  | some s => rfl

theorem shown_setSlot (s : Slot) : (w.setSlot i s).shown = w.shown.setSlot i s.shown := by
  unfold shown setSlot
  dsimp only
  rw [Array.map_setIfInBounds]

theorem shown_note (e : Entry) :
    (w.note e).shown = if e.isShown then w.shown.note e else w.shown := by
  unfold shown note
  dsimp only
  rw [Array.filter_push]
  split
  · rfl
  · rfl

variable {w} {v : FrontEnd} {i}

theorem shown_setSlot_of {s : Slot} (h : s.shown = (w.slot i).shown) :
    (w.setSlot i s).shown = w.shown := by
  rw [shown_setSlot, h, ← slot_shown, setSlot_slot]

theorem notify_builtin (hw : w.selected? = none) (n : Notice) :
    w.notify i n = w.tellEngine i n := by
  unfold notify
  split
  · rfl
  next r hb =>
    unfold selected? at hw
    rw [hb] at hw
    cases hw
  · rw [hw]
    cases n <;> rfl

variable (h : v.shown = w.shown)

include h in
theorem slot_of_shown (i : Nat) : (v.slot i).shown = (w.slot i).shown := by
  rw [← slot_shown, ← slot_shown, h]

include h in
theorem setSlot_of_shown {s s' : Slot} (i : Nat) (hs : s.shown = s'.shown) :
    (v.setSlot i s).shown = (w.setSlot i s').shown := by
  rw [shown_setSlot, shown_setSlot, h, hs]

include h in
theorem note_of_shown (e : Entry) : (v.note e).shown = (w.note e).shown := by
  rw [shown_note, shown_note, h]

include h in
theorem tell_of_shown (r : Report) : (v.tell r).2.shown = (w.tell r).2.shown := by
  have hh : v.host = w.host := (congrArg FrontEnd.host h :)
  unfold tell
  rw [hh]
  split
  · have hr : { v with host := (w.host.react r).2 }.shown =
        { w with host := (w.host.react r).2 }.shown :=
      congrArg (fun x : FrontEnd => { x with host := (w.host.react r).2 }) h
    exact note_of_shown hr _
  · exact h

end FrontEnd

namespace Slot

variable {s s' : Slot}

theorem shown_moveTo (s : Slot) (a : Address) :
    (s.moveTo a).shown = { s.shown with pc := Address.aligned a } := by
  obtain ⟨fetcher, h⟩ := moveTo_frame s a
  rw [h]
  rfl

variable (h : s.shown = s'.shown)

include h in
theorem moveTo_of_shown (a : Address) : (s.moveTo a).shown = (s'.moveTo a).shown := by
  rw [shown_moveTo, shown_moveTo, h]

include h in
theorem call_of_shown (target : Address) (offset : UInt32) :
    (s.call target offset).map shown = (s'.call target offset).map shown := by
  have hpc : s.pc = s'.pc := (congrArg Slot.pc h :)
  have hcalls : s.calls = s'.calls := (congrArg Slot.calls h :)
  have hpush : s.calls.push ⟨s.pc, offset⟩ = s'.calls.push ⟨s'.pc, offset⟩ := by
    rw [hpc, hcalls]
  unfold call
  rw [hpush]
  cases s'.calls.push ⟨s'.pc, offset⟩ with
  | error e => rfl
  | ok calls =>
    have hs : shown { s with calls } = shown { s' with calls } :=
      congrArg (fun x : Slot => { x with calls }) h
    exact congrArg Except.ok (moveTo_of_shown hs target)

include h in
theorem ret_of_shown : s.ret?.map (fun x => (x.1, x.2.shown)) =
    s'.ret?.map fun x => (x.1, x.2.shown) := by
  have hcalls : s.calls = s'.calls := (congrArg Slot.calls h :)
  unfold ret?
  rw [hcalls]
  cases s'.calls.pop? with
  | none => rfl
  | some x =>
    have hs : shown { s with calls := x.2 } = shown { s' with calls := x.2 } :=
      congrArg (fun y : Slot => { y with calls := x.2 }) h
    exact congrArg (fun y => some (x.1.offset, y)) (moveTo_of_shown hs _)

end Slot

/-! ## Actions -/

/-- A change that depends on what is shown, and on nothing else. -/
def Change.Plain : Change → Prop
  | .moveTo _ | .call .. | .ret => True
  | .setStatus _ | .setPaused _ | .setFinished | .setEnded _ => True
  | _ => False

/-- **Such a change** has the same answer and the same effect. -/
theorem Change.Plain.shown {c : Change} (hc : c.Plain) {s s' : Slot} (h : s.shown = s'.shown) :
    (c.perform s).1 = (c.perform s').1 ∧ (c.perform s).2.shown = (c.perform s').2.shown := by
  cases c with
  | moveTo a => exact ⟨rfl, Slot.moveTo_of_shown h a⟩
  | call target offset =>
    have hm := Slot.call_of_shown h target offset
    unfold Change.perform
    dsimp only
    cases hs : s.call target offset with
    | error e =>
      rw [hs] at hm
      cases hs' : s'.call target offset with
      | error e' =>
        rw [hs'] at hm
        cases hm
        exact ⟨rfl, h⟩
      | ok t' =>
        rw [hs'] at hm
        cases hm
    | ok t =>
      rw [hs] at hm
      cases hs' : s'.call target offset with
      | error e' =>
        rw [hs'] at hm
        cases hm
      | ok t' =>
        rw [hs'] at hm
        exact ⟨rfl, Except.ok.inj hm⟩
  | ret =>
    have hm := Slot.ret_of_shown h
    unfold Change.perform
    dsimp only
    cases hs : s.ret? with
    | none =>
      rw [hs] at hm
      cases hs' : s'.ret? with
      | none => exact ⟨rfl, h⟩
      | some x' =>
        rw [hs'] at hm
        cases hm
    | some x =>
      rw [hs] at hm
      cases hs' : s'.ret? with
      | none =>
        rw [hs'] at hm
        cases hm
      | some x' =>
        rw [hs'] at hm
        have he := Option.some.inj hm
        exact ⟨congrArg (fun y => some y.1) he, congrArg Prod.snd he⟩
  | setStatus status => exact ⟨rfl, h⟩
  | setPaused b =>
    exact ⟨rfl, congrArg (fun x : Slot => { x with flags := { x.flags with paused := b } }) h⟩
  | setFinished =>
    exact ⟨rfl, congrArg (fun x : Slot => { x with flags := { x.flags with finished := true } }) h⟩
  | setEnded b =>
    exact ⟨rfl, congrArg (fun x : Slot => { x with flags := { x.flags with ended := b } }) h⟩
  | _ => exact hc.elim

namespace Action

/-- An action of the engine that depends on what is shown, and on nothing else. -/
def Plain : Action → Prop
  | look _ | registers | setRegisters _ | kind | testVisible | dequeue | enqueue .. => True
  | change _ c => c.Plain
  | notify _ n => n = .finished
  | _ => False

/-- The answers say the same of what is shown. -/
def Agree : (a : Action) → a.Answer → a.Answer → Prop
  | look _, s, s' => Slot.shown s = Slot.shown s'
  | _, r, r' => r = r'

/-- **A plain action** has the same answer and the same effect where the same is shown. -/
theorem Plain.shown {a : Action} (ha : a.Plain) {v w : FrontEnd} (h : v.shown = w.shown)
    (hw : w.selected? = none) :
    a.Agree (a.perform v).1 (a.perform w).1 ∧ (a.perform v).2.shown = (a.perform w).2.shown := by
  have hqueue : v.queue = w.queue := (congrArg FrontEnd.queue h :)
  have hhost : v.host = w.host := (congrArg FrontEnd.host h :)
  cases a with
  | look i => exact ⟨FrontEnd.slot_of_shown h i, h⟩
  | change i c =>
    have hc : c.Plain := ha
    obtain ⟨hr, hs⟩ := hc.shown (FrontEnd.slot_of_shown h i)
    exact ⟨hr, FrontEnd.setSlot_of_shown h i hs⟩
  | notify i n =>
    obtain rfl : n = .finished := ha
    have hv : v.selected? = none := (congrArg FrontEnd.selected? h :).trans hw
    refine ⟨rfl, ?_⟩
    change (v.notify i .finished).shown = (w.notify i .finished).shown
    rw [FrontEnd.notify_builtin hv, FrontEnd.notify_builtin hw]
    exact h
  | registers => exact ⟨(congrArg FrontEnd.registers h :), h⟩
  | setRegisters r => exact ⟨rfl, congrArg (fun x : FrontEnd => { x with registers := r }) h⟩
  | kind => exact ⟨(congrArg FrontEnd.kind h :), h⟩
  | testVisible =>
    have hr : (v.testVisible).1 = (w.testVisible).1 := by
      unfold FrontEnd.testVisible
      rw [hhost]
    refine ⟨hr, ?_⟩
    change (v.testVisible).2.shown = (w.testVisible).2.shown
    unfold FrontEnd.testVisible
    rw [hhost]
    refine FrontEnd.note_of_shown ?_ _
    exact congrArg
      (fun x : FrontEnd => { x with host := { w.host with visible := w.host.visible.tail } }) h
  | dequeue =>
    refine ⟨congrArg List.head? hqueue, ?_⟩
    change { v with queue := v.queue.tail }.shown = { w with queue := w.queue.tail }.shown
    rw [hqueue]
    exact congrArg (fun x : FrontEnd => { x with queue := w.queue.tail }) h
  | enqueue i p => exact ⟨rfl, congrArg (fun x : FrontEnd => x.enqueue i p) h⟩
  | _ => exact ha.elim

end Action

/-! ## Processes -/

namespace Process

variable {α β : Type} {i : Nat}

/-- The process only does plain actions, goes on in the same way after answers that say the same,
and has no loops. -/
def Oblivious : {α : Type} → Process α → Prop
  | _, .done _ => True
  | _, .act a k => a.Plain ∧ (∀ r r', a.Agree r r' → k r = k r') ∧ ∀ r, Oblivious (k r)
  | _, .report _ k => Oblivious k
  | _, .loop .. => False

theorem Oblivious.only {p : Process α} (hp : Oblivious p) : Only Action.Plain p := by
  induction p with
  | done a => trivial
  | act a k ih => exact ⟨hp.1, fun r => ih r (hp.2.2 r)⟩
  | report r k ih => exact ih hp
  | loop => exact hp.elim

theorem Oblivious.bind {p : Process β} {f : β → Process α} (hp : Oblivious p)
    (hf : ∀ b, Oblivious (f b)) : Oblivious (p.bind f) := by
  induction p with
  | done b => exact hf b
  | act a k ih =>
    obtain ⟨ha, hk, ho⟩ := hp
    exact ⟨ha, fun r r' h => congrArg (Process.bind · f) (hk r r' h), fun r => ih r (ho r) hf⟩
  | report r k ih => exact ih hp hf
  | loop => exact hp.elim

theorem oblivious_bind {p : Process β} {f : β → Process α} (hp : Oblivious p)
    (hf : ∀ b, Oblivious (f b)) : Oblivious (p >>= f) :=
  hp.bind hf

theorem oblivious_done (a : α) : Oblivious (.done a) := trivial

theorem oblivious_tell (r : Report) : Oblivious (tell r) := trivial

theorem oblivious_perform {a : Action} (ha : a.Plain) (h : ∀ r r', a.Agree r r' → r = r') :
    Oblivious (perform a) :=
  ⟨ha, fun r r' hr => congrArg _ (h r r' hr), fun _ => trivial⟩

theorem oblivious_change {c : Change} (hc : c.Plain) : Oblivious (change i c) :=
  oblivious_perform hc fun _ _ h => h

theorem oblivious_look {f : Slot → Process α} (h : ∀ s s', s.shown = s'.shown → f s = f s')
    (hf : ∀ s, Oblivious (f s)) : Oblivious (look i >>= f) :=
  ⟨trivial, h, hf⟩

theorem oblivious_jump (mode : Mode) (arg : UInt32) : Oblivious (Operation.jump i mode arg) :=
  oblivious_bind (oblivious_perform trivial fun _ _ h => h) fun _ => oblivious_change trivial

theorem oblivious_call (mode : Mode) (arg : UInt32) : Oblivious (Operation.call i mode arg) :=
  oblivious_bind (oblivious_perform trivial fun _ _ h => h) fun _ => oblivious_change trivial

theorem oblivious_setRegisters (f : Registers → Registers) :
    Oblivious (perform .registers >>= fun r => perform (.setRegisters (f r))) :=
  oblivious_bind (oblivious_perform trivial fun _ _ h => h) fun _ =>
    oblivious_perform trivial fun _ _ h => h

theorem oblivious_ret : Oblivious (Operation.ret i) := by
  have hc : Oblivious (change i .ret) := oblivious_change trivial
  refine hc.bind fun r => ?_
  cases r with
  | none => exact oblivious_done ()
  | some offset => exact oblivious_setRegisters fun r => { r with offset }

theorem oblivious_finish : Oblivious (Operation.finish i) := by
  have hc : Oblivious (change i .setFinished) := oblivious_change trivial
  exact hc.bind fun _ => oblivious_perform rfl fun _ _ h => h

theorem oblivious_signalCallback (list : Nat) (behavior signal : UInt32) :
    Oblivious (Operation.signalCallback i list behavior signal) := by
  refine oblivious_look (fun s s' h => ?_) fun s => ?_
  · have hpc : s.pc = s'.pc := (congrArg Slot.pc h :)
    have hid : s.callbackId = s'.callbackId := (congrArg Slot.callbackId h :)
    rw [hpc, hid]
  · exact oblivious_bind (oblivious_perform trivial fun _ _ h => h) fun _ => oblivious_tell _

theorem oblivious_finishCallback (list : Nat) (arg : UInt32) :
    Oblivious (Operation.finishCallback i list arg) := by
  refine oblivious_look (fun s s' h => ?_) fun s => ?_
  · have hpc : s.pc = s'.pc := (congrArg Slot.pc h :)
    have hid : s.callbackId = s'.callbackId := (congrArg Slot.callbackId h :)
    rw [hpc, hid]
  · exact oblivious_bind (oblivious_perform trivial fun _ _ h => h) fun _ => oblivious_tell _

theorem oblivious_transfer (t : Transfer) (target : UInt32) :
    Oblivious (Engine.transfer i t target) := by
  cases t with
  | jump mode => exact (oblivious_jump mode target).bind fun _ => oblivious_done _
  | call mode => exact (oblivious_call mode target).bind fun _ => oblivious_done _
  | ret => exact oblivious_ret.bind fun _ => oblivious_done _
  | pause =>
    have hc : Oblivious (change i (.setPaused true)) := oblivious_change trivial
    exact hc.bind fun _ => oblivious_done _

theorem oblivious_endList : Oblivious (Operation.endList i) := by
  refine oblivious_look (fun s s' h => ?_) fun s => oblivious_change trivial
  have hf : s.flags = s'.flags := (congrArg Slot.flags h :)
  rw [hf]

theorem oblivious_conclude : Oblivious (Engine.conclude i) := by
  have hc : Oblivious (change i (.setStatus .done)) := oblivious_change trivial
  refine oblivious_endList.bind fun _ => hc.bind fun _ => ?_
  refine oblivious_look (fun s s' h => ?_) fun s => oblivious_done _
  have hf : s.flags = s'.flags := (congrArg Slot.flags h :)
  rw [hf]

/-- **A word other than END** makes the engine do nothing else. -/
theorem oblivious_step (watched : Bool) {c : Command} (hc : ∀ arg, c ≠ .stop arg) :
    Oblivious (Engine.step watched i c) := by
  have hjump : ∀ (visible : Bool) (arg : UInt32), Oblivious
      (if visible then pure (.ok none) else Operation.jump i .relativeOffset arg >>= fun _ =>
        pure (.ok none) : Process (Except Failure (Option Outcome))) := by
    intro visible arg
    split
    · exact oblivious_done _
    · exact (oblivious_jump ..).bind fun _ => oblivious_done _
  cases c with
  | nop => exact oblivious_done _
  | jump arg => exact (oblivious_jump ..).bind fun _ => oblivious_done _
  | branchHidden arg =>
    dsimp only [Engine.step]
    split
    · exact oblivious_bind (oblivious_perform trivial fun _ _ h => h) fun visible =>
        hjump visible arg
    · exact hjump true arg
  | call arg => exact (oblivious_call ..).bind fun _ => oblivious_done _
  | ret => exact oblivious_ret.bind fun _ => oblivious_done _
  | stop arg => exact absurd rfl (hc arg)
  | signal behavior signal =>
    dsimp only [Engine.step]
    split
    · refine oblivious_look (fun s s' h => ?_) fun s => ?_
      · have hid : s.id = s'.id := (congrArg Slot.id h :)
        rw [hid]
      · exact (oblivious_signalCallback ..).bind fun _ => oblivious_done _
    · exact oblivious_done _
  | finish arg =>
    refine oblivious_finish.bind fun _ => oblivious_look (fun s s' h => ?_) fun s => ?_
    · have hid : s.id = s'.id := (congrArg Slot.id h :)
      rw [hid]
    · exact (oblivious_finishCallback ..).bind fun _ => oblivious_done _
  | base arg =>
    exact oblivious_bind (oblivious_perform trivial fun _ _ h => h) fun _ =>
      oblivious_bind (oblivious_perform trivial fun _ _ h => h) fun _ => oblivious_done _
  | offset arg =>
    exact oblivious_bind (oblivious_perform trivial fun _ _ h => h) fun _ =>
      oblivious_bind (oblivious_perform trivial fun _ _ h => h) fun _ => oblivious_done _
  | origin =>
    refine oblivious_look (fun s s' h => ?_) fun s => ?_
    · have hpc : s.pc = s'.pc := (congrArg Slot.pc h :)
      rw [hpc]
    · exact oblivious_bind (oblivious_perform trivial fun _ _ h => h) fun _ =>
        oblivious_bind (oblivious_perform trivial fun _ _ h => h) fun _ => oblivious_done _
  | draw word =>
    refine oblivious_look (fun s s' h => ?_) fun s => ?_
    · have hpc : s.pc = s'.pc := (congrArg Slot.pc h :)
      have hid : s.id = s'.id := (congrArg Slot.id h :)
      rw [hpc, hid]
    · split
      · exact (oblivious_tell _).bind fun _ => oblivious_done _
      · exact oblivious_done _

theorem oblivious_stopWith (arg : UInt32) (r : Except Failure UInt32) :
    Oblivious (Engine.stopWith i arg r) := by
  have hend : Oblivious ((Engine.conclude i).bind Engine.ended) :=
    oblivious_conclude.bind fun _ => oblivious_done _
  unfold Engine.stopWith
  split
  · exact hend
  · exact oblivious_done _
  · split
    · split
      · exact oblivious_transfer ..
      · exact hend
    · exact hend

end Process

end DisplayList

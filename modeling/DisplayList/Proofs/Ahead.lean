import DisplayList.Proofs.Coherence
import DisplayList.Proofs.Shown

/-!
# Lists that have found their cursors sooner

A list finds its cursor when its words are accessed. Two front ends may differ in nothing but when
that was: in one of them a list has its cursor, which goes along with the instruction address, and
in the other the cursor is still to be found there.

* `Fetcher.Ahead`, **`Fetcher.Ahead.follow`**: a fetcher that has found a cursor which the other one
  wants, wherever the instruction address goes;
* `Slot.Ahead`, **`Slot.Ahead.perform`**, `Slot.Ahead.access`: changes and accesses;
* `FrontEnd.Ahead`, **`Action.ahead_perform`**, `FrontEnd.Ahead.tell`: actions and reports.
-/

namespace DisplayList

/-! ## The slot -/

/-- The fetcher `g` is that of `f`, or has found the cursor that `f` wants at `pc`. -/
structure Fetcher.Ahead (pc : Address) (f g : Fetcher) : Prop where
  window : g.window = f.window
  source : g.source = f.source ∨ (f.wanted pc = some pc ∧ g.source = .own ⟨pc, .word⟩)

namespace Fetcher.Ahead

variable {pc old new : Address} {f g : Fetcher}

theorem refl (pc : Address) (f : Fetcher) : Ahead pc f f :=
  ⟨rfl, .inl rfl⟩

theorem of_source (hw : g.window = f.window) (hs : g.source = f.source) : Ahead pc f g :=
  ⟨hw, .inl hs⟩

theorem cursor (h : Ahead pc f g) {c : Cursor} (hc : f.cursor? = some c) :
    g.source = f.source := by
  refine h.source.resolve_right fun ⟨hw, _⟩ => ?_
  rw [wanted_of_cursor hc] at hw
  cases hw

theorem not_own (hw : f.wanted pc = some old) (c : Cursor) : f.source ≠ .own c := by
  intro hs
  unfold wanted at hw
  rw [hs] at hw
  cases hw

theorem clear (f g : Fetcher) : Ahead pc f.clear g.clear :=
  of_source rfl rfl

theorem useCursor (h : Ahead pc f g) (c : Cursor) : Ahead pc (f.useCursor c) (g.useCursor c) :=
  of_source h.window rfl

theorem setWindow (h : Ahead pc f g) (w : Window) : Ahead pc (f.setWindow w) (g.setWindow w) := by
  refine ⟨rfl, ?_⟩
  rcases h.source with hs | ⟨hw, hs⟩
  · left
    unfold Fetcher.setWindow
    rw [hs]
  · right
    have hpc : (f.setWindow w).wanted pc = some pc := by
      obtain ⟨source, window, found⟩ := f
      cases source with
      | unset => rfl
      | window => rfl
      | pending a => exact hw
      | own c => exact absurd rfl (not_own hw c)
    refine ⟨hpc, ?_⟩
    unfold Fetcher.setWindow
    rw [hs]
    rfl

/-- **A fetcher that is ahead stays ahead**, wherever the instruction address goes. -/
theorem follow (h : Ahead old f g) (hold : old.toNat % 4 = 0) (hnew : new.toNat % 4 = 0) :
    Ahead new (f.follow old new) (g.follow old new) := by
  have hleave : Ahead new (f.leaveWindow old new) (g.leaveWindow old new) := by
    unfold leaveWindow
    dsimp only
    split
    case isFalse => exact of_source h.window rfl
    rcases h.source with hs | ⟨hw, hs⟩
    · rw [hs]
      split
      · exact of_source h.window rfl
      · exact of_source h.window rfl
    · rw [hs]
      have ht : Cursor.Tidy ⟨old, .word⟩ := ⟨rfl, hold⟩
      have hto := ht.advance hnew
      dsimp only at hto ⊢
      rw [hto]
      split
      next c hc => exact absurd hc (not_own hw c)
      next => exact ⟨h.window, .inr ⟨rfl, rfl⟩⟩
  unfold Fetcher.follow
  rw [h.window]
  split
  · split
    · exact of_source rfl rfl
    · exact hleave
  · exact hleave

theorem setCursor (hw : g.window = f.window) (hs : g.source = f.source) (c : Cursor) :
    Ahead pc (f.setCursor c) (g.setCursor c) := by
  unfold Fetcher.setCursor
  rw [hs]
  split
  · exact of_source hw rfl
  · exact of_source (by simp [hw]) rfl
  · exact of_source hw hs

end Fetcher.Ahead

/-- The list `s'` is `s`, but may have found the cursor that `s` wants. -/
structure Slot.Ahead (s s' : Slot) : Prop where
  placed : s.Placed
  rest : s' = { s with fetcher := s'.fetcher }
  fetcher : s.fetcher.Ahead s.pc s'.fetcher

namespace Slot

variable {s s' : Slot} {m : Memory}

theorem Placed.ahead (h : s.Placed) : s.Ahead s :=
  ⟨h, rfl, .refl ..⟩

theorem ahead_with {g : Fetcher} (h : s.Placed) (hf : s.fetcher.Ahead s.pc g) :
    s.Ahead { s with fetcher := g } :=
  ⟨h, rfl, hf⟩

namespace Ahead

variable (h : s.Ahead s')

include h

theorem id : s'.id = s.id := (congrArg Slot.id h.rest :)

theorem stall : s'.stall = s.stall := (congrArg Slot.stall h.rest :)

theorem bare : s'.bare = s.bare := (congrArg Slot.bare h.rest :)

theorem moveTo (a : Address) : (s.moveTo a).Ahead (s'.moveTo a) := by
  obtain ⟨hp, hr, hf⟩ := h
  generalize s'.fetcher = g at hr hf
  subst hr
  have hmoved := hp.moveTo a
  unfold Slot.moveTo at hmoved ⊢
  dsimp only at hmoved ⊢
  split
  · exact ahead_with hp hf
  next hne =>
    rw [if_neg hne] at hmoved
    refine ⟨hmoved, rfl, hf.follow (Address.aligned_eq_iff.1 hp.pc).1 ?_⟩
    exact (Address.aligned_eq_iff.1 (Address.aligned_aligned a)).1

theorem update (f : Slot → Slot) (hp : (f s).Placed)
    (hf : ∀ s g, f { s with fetcher := g } = { f s with fetcher := g } := by exact fun _ _ => rfl)
    (hpc : ∀ s, (f s).pc = s.pc := by exact fun _ => rfl)
    (hfetcher : ∀ s, (f s).fetcher = s.fetcher := by exact fun _ => rfl) :
    (f s).Ahead (f s') := by
  obtain ⟨-, hr, hg⟩ := h
  generalize s'.fetcher = g at hr hg
  subst hr
  rw [hf s g]
  refine ahead_with hp ?_
  rw [hpc, hfetcher]
  exact hg

end Ahead

/-- **A change** answers the same, and leaves the list ahead that was. -/
theorem Ahead.perform (h : s.Ahead s') (c : Change) :
    (c.perform s').1 = (c.perform s).1 ∧ (c.perform s).2.Ahead (c.perform s').2 := by
  have hplaced := h.placed.perform c
  obtain ⟨hp, hr, hf⟩ := h
  generalize s'.fetcher = g at hr hf
  subst hr
  have h := ahead_with hp hf
  cases c with
  | init sub =>
    have hc := hp.clear
    have hsub : Ahead { s.clear with
          list := Address.aligned sub.list
          stall := Address.aligned sub.stall
          callbackId := sub.callbackId
          params := sub.params }
        { Slot.clear { s with fetcher := g } with
          list := Address.aligned sub.list
          stall := Address.aligned sub.stall
          callbackId := sub.callbackId
          params := sub.params } :=
      ⟨⟨hc.pc, Address.aligned_aligned _, Address.aligned_aligned _, hc.returns, hc.fetcher⟩, rfl,
        .clear ..⟩
    have hmoved := hsub.moveTo (Address.aligned sub.list)
    exact ⟨rfl, hmoved.update (fun s => { s with
      status := if s.pc = s.stall then .stallReached else .queued
      flags := .fresh
      wake := s.wake.clear }) hplaced⟩
  | reset => exact ⟨rfl, hplaced, rfl, .clear ..⟩
  | moveTo a => exact ⟨rfl, h.moveTo a⟩
  | call target offset =>
    unfold Change.perform at hplaced ⊢
    dsimp only [Slot.call] at hplaced ⊢
    cases hpush : s.calls.push ⟨s.pc, offset⟩ with
    | error e => exact ⟨rfl, h⟩
    | ok calls =>
      exact ⟨rfl, (h.update (fun s => { s with calls }) (hp.push hpush)).moveTo target⟩
  | ret =>
    unfold Change.perform at hplaced ⊢
    dsimp only [Slot.ret?] at hplaced ⊢
    cases hpop : s.calls.pop? with
    | none => exact ⟨rfl, h⟩
    | some x =>
      exact ⟨rfl, (h.update (fun s => { s with calls := x.2 }) (hp.pop hpop)).moveTo x.1.returnPc⟩
  | moveStall a =>
    unfold Change.perform Slot.moveStall at hplaced ⊢
    dsimp only at hplaced ⊢
    split
    · exact ⟨rfl, h⟩
    next hne =>
      rw [if_neg hne] at hplaced
      exact ⟨rfl, h.update (fun s => { s with stall := Address.aligned a }) hplaced⟩
  | moveStallWith a w =>
    have hmod := (Address.aligned_eq_iff.1 hp.pc).1
    have hfollow := (hf.setWindow w).follow hmod hmod
    unfold Change.perform Slot.moveStallWith Slot.moveStall at hplaced ⊢
    dsimp only at hplaced ⊢
    split
    next he =>
      rw [if_pos he] at hplaced
      exact ⟨rfl, hplaced, rfl, hfollow⟩
    next hne =>
      rw [if_neg hne] at hplaced
      exact ⟨rfl, hplaced, rfl, hfollow⟩
  | useCursor c => exact ⟨rfl, hplaced, rfl, hf.useCursor c⟩
  | setStatus status => exact ⟨rfl, h.update (fun s => { s with status }) hplaced⟩
  | setPaused b =>
    exact ⟨rfl, h.update (fun s => { s with flags := { s.flags with paused := b } }) hplaced⟩
  | setRestarted b =>
    exact ⟨rfl, h.update (fun s => { s with flags := { s.flags with restarted := b } }) hplaced⟩
  | setFinished =>
    exact ⟨rfl, h.update (fun s => { s with flags := { s.flags with finished := true } }) hplaced⟩
  | setEnded b =>
    exact ⟨rfl, h.update (fun s => { s with flags := { s.flags with ended := b } }) hplaced⟩
  | postWake => exact ⟨rfl, h.update (fun s => { s with wake := s.wake.post }) hplaced⟩
  | setSave save => exact ⟨rfl, h.update (fun s => { s with save }) hplaced⟩
  | block thread =>
    exact ⟨rfl, h.update (fun s => { s with blocked := s.blocked ++ [thread] }) hplaced⟩
  | takeBlocked => exact ⟨rfl, h.update (fun s => { s with blocked := [] }) hplaced⟩

theorem Placed.wanted (h : s.Placed) {x : Address} (hw : s.fetcher.wanted s.pc = some x) :
    x = s.pc := by
  unfold Fetcher.wanted at hw
  split at hw
  next hs =>
    cases hw
    exact h.fetcher.pending x hs
  all_goals cases hw
  all_goals rfl

theorem Ahead.equip (h : s.Ahead s') (c : Cursor) : (s.equip c).Ahead (s'.equip c) := by
  obtain ⟨hp, hr, hf⟩ := h
  generalize s'.fetcher = g at hr hf
  subst hr
  exact ⟨⟨hp.pc, hp.list, hp.stall, hp.returns, Fetcher.points_own rfl⟩, rfl, hf.window, .inl rfl⟩

/-- **An access through the cursor that both have** answers the same. -/
theorem Ahead.access (h : s.Ahead s') (hs : s'.fetcher.source = s.fetcher.source) (m : Memory)
    (a : Access) : (s'.access m a).1 = (s.access m a).1 ∧
      (s.access m a).2.Ahead (s'.access m a).2 := by
  have hplaced := h.placed.access m a
  obtain ⟨hp, hr, hf⟩ := h
  generalize s'.fetcher = g at hr hf hs
  subst hr
  have hc : g.cursor? = s.fetcher.cursor? := by
    unfold Fetcher.cursor?
    rw [hs, hf.window]
  cases a with
  | next =>
    unfold Slot.access at hplaced ⊢
    dsimp only at hplaced ⊢
    rw [hc]
    cases hcursor : s.fetcher.cursor? with
    | none => exact ⟨rfl, ahead_with hp hf⟩
    | some c =>
      rw [hcursor] at hplaced
      dsimp only at hplaced ⊢
      cases hread : c.read m with
      | error f => exact ⟨rfl, ahead_with hp hf⟩
      | ok x =>
        rw [hread] at hplaced
        exact ⟨rfl, hplaced, rfl, .setCursor hf.window hs _⟩
  | previous =>
    refine ⟨?_, ?_⟩
    · unfold Slot.access
      dsimp only
      rw [hc]
      cases s.fetcher.cursor? with
      | none => rfl
      | some c => cases hread : (c.advance (-2)).read m <;> simp only [hread]
    · rw [access_previous, access_previous]
      exact ahead_with hp hf
  | rewind n =>
    unfold Slot.access at hplaced ⊢
    dsimp only at hplaced ⊢
    rw [hc]
    cases hcursor : s.fetcher.cursor? with
    | none => exact ⟨rfl, ahead_with hp hf⟩
    | some c =>
      rw [hcursor] at hplaced
      exact ⟨rfl, hplaced, rfl, .setCursor hf.window hs _⟩

end Slot

/-! ## Front ends -/

namespace FrontEnd

/-- The front end without its lists, and without what tells of the cursors that were looked for. -/
def deaf (w : FrontEnd) : FrontEnd :=
  { w with
    slots := #[]
    host := { w.host with onCursor := [] }
    journal := w.journal.filter Entry.isShown }

/-- The front ends are the same, but `w` may have found cursors that its lists want in `v`. -/
structure Ahead (v w : FrontEnd) : Prop where
  deaf : w.deaf = v.deaf
  size : w.slots.size = v.slots.size
  slots : ∀ i, (v.slot i).Ahead (w.slot i)

theorem ahead_refl {w : FrontEnd} (h : ∀ i, (w.slot i).Placed) : w.Ahead w :=
  ⟨rfl, rfl, fun i => (h i).ahead⟩

theorem deaf_note (w : FrontEnd) (e : Entry) :
    (w.note e).deaf = if e.isShown then w.deaf.note e else w.deaf := by
  unfold deaf note
  dsimp only
  rw [Array.filter_push]
  split
  · rfl
  · rfl

namespace Ahead

variable {v w : FrontEnd} (h : v.Ahead w)

include h

theorem memory : w.memory = v.memory := (congrArg FrontEnd.memory h.deaf :)

theorem queue : w.queue = v.queue := (congrArg FrontEnd.queue h.deaf :)

theorem backend : w.backend = v.backend := (congrArg FrontEnd.backend h.deaf :)

theorem listening : w.listening = v.listening := (congrArg FrontEnd.listening h.deaf :)

theorem selected : w.selected? = v.selected? := (congrArg FrontEnd.selected? h.deaf :)

theorem host : { w.host with onCursor := [] } = { v.host with onCursor := [] } :=
  (congrArg FrontEnd.host h.deaf :)

theorem update (f : FrontEnd → FrontEnd)
    (hf : ∀ w, (f w).deaf = f w.deaf := by exact fun _ => rfl)
    (hs : ∀ w, (f w).slots = w.slots := by exact fun _ => rfl) : (f v).Ahead (f w) where
  deaf := by rw [hf w, hf v, h.deaf]
  size := by rw [hs, hs, h.size]
  slots i := by
    rw [slot_congr v i (hs v), slot_congr w i (hs w)]
    exact h.slots i

theorem setSlot (i : Nat) {s s' : Slot} (hs : s.Ahead s') :
    (v.setSlot i s).Ahead (w.setSlot i s') where
  deaf := h.deaf
  size := by rw [size_setSlot, size_setSlot, h.size]
  slots j := by
    rw [slot_setSlot, slot_setSlot, h.size]
    split
    · exact hs
    · exact h.slots j

theorem note (e : Entry) : (v.note e).Ahead (w.note e) :=
  ⟨by rw [deaf_note, deaf_note, h.deaf], h.size, h.slots⟩

theorem tellEngine (i : Nat) (n : Notice) : (v.tellEngine i n).Ahead (w.tellEngine i n) := by
  cases n <;> exact h.update (·.tellEngine i _)

theorem tellRenderer (r : Renderer) (i : Nat) (n : Notice) :
    (v.tellRenderer r i n).Ahead (w.tellRenderer r i n) := by
  unfold FrontEnd.tellRenderer
  dsimp only
  rw [(h.slots i).id, (h.slots i).stall]
  generalize ({ notice := n, list := (v.slot i).id, stall := (v.slot i).stall } : Event) = e
  cases r with
  | channel =>
    have hl : (w.listening && e.isCarried) = (v.listening && e.isCarried) := by rw [h.listening]
    by_cases hv : (v.listening && e.isCarried) = true
    · rw [hv] at hl
      simp only [hl, hv, if_true]
      exact h.update fun x => { x with events := x.events.push e }
    · rw [Bool.not_eq_true] at hv
      rw [hv] at hl
      simp only [hl, hv]
      exact h
  | recorder label => exact h.note (.heard e)
  | inert => exact h

theorem notify (i : Nat) (n : Notice) : (v.notify i n).Ahead (w.notify i n) := by
  unfold FrontEnd.notify
  rw [h.backend, h.selected]
  split
  · exact h.tellEngine i n
  · exact h.tellRenderer _ i n
  · split
    · exact (h.tellEngine i .reset).tellRenderer _ i .reset
    · exact h.tellEngine i .reset
    · exact h.tellRenderer _ i _
    · exact h.tellEngine i _

end Ahead

theorem deaf_tell_cursor (w : FrontEnd) (a : Address) (n : UInt32) :
    (w.tell (.cursor a n)).2.deaf = w.deaf := by
  change (FrontEnd.note { w with host := _ } (.told (.cursor a n))).deaf = _
  rw [deaf_note]
  rfl

/-- **The host hears the same**, cursors apart. -/
theorem Ahead.tell {v w : FrontEnd} (h : v.Ahead w) (r : Report) :
    (v.tell r).2.Ahead (w.tell r).2 := by
  have hhears : ∀ r, w.host.hears r = v.host.hears r := fun r => by
    cases r <;> first | rfl | exact (congrArg Host.takesCallbacks h.host :)
  have hcallback : FrontEnd.Ahead
      { v with host := { v.host with onCallback := v.host.onCallback.tail } }
      { w with host := { w.host with onCallback := w.host.onCallback.tail } } :=
    h.update fun x => { x with host := { x.host with onCallback := x.host.onCallback.tail } }
  have hcall : ∀ r, (∀ x : Host, (x.react r).2 = { x with onCallback := x.onCallback.tail }) →
      (v.tell r).2.Ahead (w.tell r).2 := by
    intro r hr
    unfold FrontEnd.tell
    by_cases hv : v.host.hears r = true
    · rw [if_pos hv, if_pos ((hhears r).trans hv)]
      dsimp only
      rw [hr, hr]
      exact hcallback.note _
    · rw [if_neg hv, if_neg fun hw => hv ((hhears r).symm.trans hw)]
      exact h
  cases r with
  | command list pc word => exact h.note _
  | signalCallback callbackId list pc behavior signal => exact hcall _ fun _ => rfl
  | finishCallback callbackId list pc arg => exact hcall _ fun _ => rfl
  | cursor a n =>
    refine ⟨?_, ?_, fun i => ?_⟩
    · rw [deaf_tell_cursor, deaf_tell_cursor, h.deaf]
    · rw [slots_tell, slots_tell, h.size]
    · rw [slot_tell, slot_tell]
      exact h.slots i

theorem Ahead.looked {v w : FrontEnd} (h : v.Ahead w) (a : Address) (n : UInt32) :
    (v.tell (.cursor a n)).2.Ahead w ∧ v.Ahead (w.tell (.cursor a n)).2 := by
  refine ⟨⟨?_, ?_, fun i => ?_⟩, ?_, ?_, fun i => ?_⟩
  · rw [deaf_tell_cursor, h.deaf]
  · rw [slots_tell, h.size]
  · rw [slot_tell]
    exact h.slots i
  · rw [deaf_tell_cursor, h.deaf]
  · rw [slots_tell, h.size]
  · rw [slot_tell]
    exact h.slots i

end FrontEnd

/-! ## Actions -/

namespace Action

/-- An action whose answer does not depend on what cursors were found. -/
def Deaf : Action → Prop
  | look _ | access .. | accessWith .. | setHost _ => False
  | _ => True

variable {v w : FrontEnd}

theorem ahead_onSlot {α : Type} {f : Slot → α × Slot} (h : v.Ahead w) (i : Nat)
    (hf : (f (w.slot i)).1 = (f (v.slot i)).1 ∧ (f (v.slot i)).2.Ahead (f (w.slot i)).2) :
    (onSlot w i f).1 = (onSlot v i f).1 ∧ (onSlot v i f).2.Ahead (onSlot w i f).2 :=
  ⟨hf.1, h.setSlot i hf.2⟩

/-- **Such an action** answers the same, and leaves the front end ahead that was. -/
theorem ahead_perform (h : v.Ahead w) {a : Action} (ha : a.Deaf) :
    (a.perform w).1 = (a.perform v).1 ∧ (a.perform v).2.Ahead (a.perform w).2 := by
  cases a with
  | change i c => exact ahead_onSlot h i ((h.slots i).perform c)
  | await i =>
    have hs := h.slots i
    have hp : Slot.Placed { v.slot i with wake := (v.slot i).wake.take.2 } :=
      ⟨hs.placed.pc, hs.placed.list, hs.placed.stall, hs.placed.returns, hs.placed.fetcher⟩
    have hwake : (w.slot i).wake = (v.slot i).wake := (congrArg Slot.wake hs.rest :)
    refine ahead_onSlot (f := fun s => (s.wake.take.1, { s with wake := s.wake.take.2 })) h i
      ⟨?_, hs.update (fun s => { s with wake := s.wake.take.2 }) hp⟩
    rw [hwake]
  | write a ws =>
    simp only [perform, h.memory]
    cases v.memory.writeWords a ws with
    | ok memory => exact ⟨rfl, h.update fun x => { x with memory }⟩
    | error f => exact ⟨rfl, h⟩
  | enqueue i p => exact ⟨rfl, h.update (·.enqueue i p)⟩
  | dequeue => exact ⟨congrArg List.head? h.queue, h.update (·.dequeue.2)⟩
  | withdraw i =>
    exact ⟨congrArg (List.contains · i) h.queue, h.update fun x => (x.withdraw i).2⟩
  | queuedIds =>
    refine ⟨?_, h⟩
    change w.queuedIds = v.queuedIds
    unfold FrontEnd.queuedIds
    rw [h.queue]
    exact List.map_congr_left fun i _ => (h.slots i).id
  | notify i n => exact ⟨rfl, h.notify i n⟩
  | kind => exact ⟨(congrArg FrontEnd.kind h.deaf :), h⟩
  | route b =>
    have hr : (w.route b).1 = (v.route b).1 := (congrArg (fun w => (w.route b).1) h.deaf :)
    exact ⟨hr, h.update fun x => (x.route b).2⟩
  | routerText => exact ⟨(congrArg FrontEnd.routerText h.deaf :), h⟩
  | servicesText => exact ⟨(congrArg FrontEnd.servicesText h.deaf :), h⟩
  | registers => exact ⟨(congrArg FrontEnd.registers h.deaf :), h⟩
  | setRegisters r => exact ⟨rfl, h.update fun x => { x with registers := r }⟩
  | poolSize => exact ⟨(congrArg FrontEnd.poolSize h.deaf :), h⟩
  | testVisible =>
    have hvisible : w.host.visible = v.host.visible := (congrArg Host.visible h.host :)
    have hhost := h.update fun x =>
      { x with host := { x.host with visible := x.host.visible.tail } }
    simp only [perform, FrontEnd.testVisible]
    rw [hvisible] at hhost ⊢
    exact ⟨rfl, hhost.note _⟩
  | note name reply => exact ⟨rfl, h.note _⟩
  | hangUp => exact ⟨rfl, h.update fun x => { x with listening := false, events := #[] }⟩
  | close => exact ⟨rfl, h.update fun x => { x with closed := true }⟩
  | isClosed => exact ⟨(congrArg FrontEnd.closed h.deaf :), h⟩
  | _ => exact ha.elim

end Action

end DisplayList

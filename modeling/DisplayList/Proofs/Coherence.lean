import DisplayList.Proofs.Composing
import DisplayList.Proofs.Steering
import DisplayList.Proofs.Transparency
import DisplayList.Replay
import Mathlib.Logic.Function.Iterate

/-!
# What holds of a list at any time

* `Fetcher.Points`, `Slot.Placed`: where a list is, where it may return to, and where its next word
  comes from;
* **`Action.onto_placed`**: no action of anybody moves a list out of place;
* `Marks`, **`composed_marks`**: nobody marks a list ended unless the last thing done was to see
  that it has finished;
* `Slot.Coherent`, **`coherent_always`**: whatever is asked of a front end, and whatever its host
  does meanwhile.
-/

namespace DisplayList

/-! ## Where the next word comes from -/

/-- The fetcher fits the instruction address `pc`. -/
structure Fetcher.Points (f : Fetcher) (pc : Address) : Prop where
  /-- A cursor to be found is wanted there. -/
  pending : ∀ a, f.source = .pending a → a = pc
  /-- A window that is in use exists. -/
  window : f.source = .window → f.window.isSome = true

namespace Fetcher

variable {f g : Fetcher} {pc old new a : Address} {c : Cursor} {w : Window}

theorem points_clear : f.clear.Points pc where
  pending _ h := by cases h
  window h := by cases h

theorem points_own (h : f.source = .own c) : f.Points pc where
  pending a ha := by
    rw [h] at ha
    cases ha
  window hw := by
    rw [h] at hw
    cases hw

theorem points_pending : Points { f with source := .pending pc } pc where
  pending a h := by
    cases h
    rfl
  window h := by cases h

/-- **A fetcher that has followed the instruction address fits it**, whatever it was before. -/
theorem points_follow : (f.follow old new).Points new := by
  have hleave : (f.leaveWindow old new).Points new := by
    unfold leaveWindow
    dsimp only
    split
    · split
      · exact points_own rfl
      · exact points_pending
    · exact points_pending
  unfold follow
  split
  · split
    · exact ⟨fun _ h => by (cases h), fun _ => rfl⟩
    · exact hleave
  · exact hleave

theorem Points.setCursor (h : f.Points pc) : (f.setCursor c).Points pc := by
  unfold Fetcher.setCursor
  split
  · exact points_own rfl
  next hs => exact ⟨fun a ha => h.pending a ha, fun _ => by simpa using h.window hs⟩
  · exact h

theorem Points.install? (h : f.Points pc) (hg : f.install? pc a c = some g) : g.Points pc := by
  unfold Fetcher.install? at hg
  split at hg
  · split at hg
    · cases hg
      exact points_own rfl
    · cases hg
  · cases hg
    exact h

theorem Points.at_hand (h : f.Points pc) (hc : f.cursor? = some c) : f.Points new := by
  refine ⟨fun a ha => ?_, h.window⟩
  unfold cursor? at hc
  rw [ha] at hc
  cases hc

theorem cursor_setCursor (hc : f.cursor? = some c) (c' : Cursor) :
    (f.setCursor c').cursor? = some c' := by
  obtain ⟨source, window, found⟩ := f
  cases source with
  | unset => cases hc
  | pending a => cases hc
  | own c => rfl
  | window =>
    cases window with
    | none => cases hc
    | some w => rfl

end Fetcher

/-! ## Where a list is -/

/-- The addresses that a list keeps are instruction addresses, and its fetcher fits the one at which
it is. -/
structure Slot.Placed (s : Slot) : Prop where
  pc : Address.aligned s.pc = s.pc
  list : Address.aligned s.list = s.list
  stall : Address.aligned s.stall = s.stall
  returns : ∀ f ∈ s.calls.toList, Address.aligned f.returnPc = f.returnPc
  fetcher : s.fetcher.Points s.pc

namespace Slot

variable {s s' : Slot} {a : Address} {m : Memory}

theorem Placed.clear (h : s.Placed) : s.clear.Placed where
  pc := Address.aligned_aligned 0
  list := h.list
  stall := h.stall
  returns f hf := by
    change f ∈ s.calls.clear.toList at hf
    rw [CallStack.toList_clear] at hf
    cases hf
  fetcher := Fetcher.points_clear

theorem Placed.moveTo (h : s.Placed) (a : Address) : (s.moveTo a).Placed := by
  unfold Slot.moveTo
  dsimp only
  split
  · exact h
  · exact ⟨Address.aligned_aligned a, h.list, h.stall, h.returns, Fetcher.points_follow⟩

theorem Placed.push {offset : UInt32} {calls : CallStack} (h : s.Placed)
    (hpush : s.calls.push ⟨s.pc, offset⟩ = .ok calls) : Placed { s with calls } := by
  refine ⟨h.pc, h.list, h.stall, fun f hf => ?_, h.fetcher⟩
  rw [CallStack.toList_of_push hpush, List.mem_append, List.mem_singleton] at hf
  rcases hf with hf | rfl
  · exact h.returns f hf
  · exact h.pc

theorem Placed.pop {f : Frame} {calls : CallStack} (h : s.Placed)
    (hpop : s.calls.pop? = some (f, calls)) : Placed { s with calls } := by
  refine ⟨h.pc, h.list, h.stall, fun g hg => h.returns g ?_, h.fetcher⟩
  rw [CallStack.toList_of_pop? hpop]
  exact List.mem_append_left _ hg

theorem Placed.call {target : Address} {offset : UInt32} (h : s.Placed)
    (hs : s.call target offset = .ok s') : s'.Placed := by
  unfold Slot.call at hs
  cases hpush : s.calls.push ⟨s.pc, offset⟩ with
  | error e =>
    rw [hpush] at hs
    cases hs
  | ok calls =>
    rw [hpush] at hs
    cases hs
    exact (h.push hpush).moveTo target

theorem Placed.ret {offset : UInt32} (h : s.Placed) (hs : s.ret? = some (offset, s')) :
    s'.Placed := by
  unfold Slot.ret? at hs
  cases hpop : s.calls.pop? with
  | none =>
    rw [hpop] at hs
    cases hs
  | some x =>
    obtain ⟨f, calls⟩ := x
    rw [hpop] at hs
    cases hs
    exact (h.pop hpop).moveTo f.returnPc

theorem Placed.init (h : s.Placed) (sub : Submission) : (s.init sub).Placed := by
  have hc := h.clear
  have hsub : Placed { s.clear with
      list := Address.aligned sub.list
      stall := Address.aligned sub.stall
      callbackId := sub.callbackId
      params := sub.params } :=
    ⟨hc.pc, Address.aligned_aligned _, Address.aligned_aligned _, hc.returns, hc.fetcher⟩
  have hmoved := hsub.moveTo (Address.aligned sub.list)
  exact ⟨hmoved.pc, hmoved.list, hmoved.stall, hmoved.returns, hmoved.fetcher⟩

theorem Placed.moveStall (h : s.Placed) (a : Address) : (s.moveStall a).2.Placed := by
  unfold Slot.moveStall
  dsimp only
  split
  · exact h
  · exact ⟨h.pc, h.list, Address.aligned_aligned a, h.returns, h.fetcher⟩

theorem Placed.moveStallWith (h : s.Placed) (a : Address) (w : Window) :
    (s.moveStallWith a w).2.Placed := by
  have hs := h.moveStall a
  refine ⟨hs.pc, hs.list, hs.stall, hs.returns, ?_⟩
  change (((s.moveStall a).2.fetcher.setWindow w).follow (s.moveStall a).2.pc
    (s.moveStall a).2.pc).Points (s.moveStall a).2.pc
  exact Fetcher.points_follow

theorem Placed.setCursor (h : s.Placed) (c : Cursor) :
    Placed { s with fetcher := s.fetcher.setCursor c } :=
  ⟨h.pc, h.list, h.stall, h.returns, h.fetcher.setCursor⟩

/-- **A fetch moves the instruction address past the fetcher**, which has a cursor at hand. -/
theorem Placed.access (h : s.Placed) (m : Memory) (a : Access) : (s.access m a).2.Placed := by
  cases a with
  | next =>
    unfold Slot.access
    dsimp only
    split
    · exact h
    next c hc =>
      split
      · exact h
      · exact ⟨Address.aligned_aligned _, h.list, h.stall, h.returns,
          h.fetcher.setCursor.at_hand (Fetcher.cursor_setCursor hc _)⟩
  | previous =>
    unfold Slot.access
    dsimp only
    split
    · exact h
    · split
      · exact h.setCursor _
      · exact h.setCursor _
  | rewind n =>
    unfold Slot.access
    dsimp only
    split
    · exact h
    · exact h.setCursor _

theorem Placed.tryAccess (h : s.Placed) (m : Memory) (a : Access) : (s.tryAccess m a).2.Placed := by
  unfold Slot.tryAccess
  split
  · exact h
  · exact h.access m a

theorem Placed.accessWith (h : s.Placed) (m : Memory) (x : Address) (c : Cursor) (a : Access) :
    (s.accessWith m x c a).2.Placed := by
  unfold Slot.accessWith
  split
  · exact h
  next fetcher hf =>
    have hs : Placed { s with fetcher } :=
      ⟨h.pc, h.list, h.stall, h.returns, h.fetcher.install? hf⟩
    exact hs.access m a

theorem Placed.perform (h : s.Placed) (c : Change) : (c.perform s).2.Placed := by
  cases c with
  | init sub => exact h.init sub
  | reset =>
    have hc := h.clear
    exact ⟨hc.pc, hc.list, hc.stall, hc.returns, hc.fetcher⟩
  | moveTo a => exact h.moveTo a
  | call target offset =>
    simp only [Change.perform]
    split
    next s' hs => exact h.call hs
    next => exact h
  | ret =>
    simp only [Change.perform]
    split
    next offset s' hs => exact h.ret hs
    next => exact h
  | moveStall a => exact h.moveStall a
  | moveStallWith a w => exact h.moveStallWith a w
  | useCursor c => exact ⟨h.pc, h.list, h.stall, h.returns, Fetcher.points_own rfl⟩
  | _ => exact ⟨h.pc, h.list, h.stall, h.returns, h.fetcher⟩

end Slot

/-- **No action moves a list out of place.** -/
theorem Action.onto_placed {s : Slot} (h : s.Placed) (a : Action) (i : Nat) (m : Memory) :
    (a.onto i m s).Placed := by
  cases a with
  | change j c =>
    rw [onto_change]
    split
    · exact h.perform c
    · exact h
  | await j =>
    unfold onto
    dsimp only
    split
    · exact ⟨h.pc, h.list, h.stall, h.returns, h.fetcher⟩
    · exact h
  | access j a =>
    unfold onto
    dsimp only
    split
    · exact h.tryAccess m a
    · exact h
  | accessWith j x c a =>
    unfold onto
    dsimp only
    split
    · exact h.accessWith m x c a
    · exact h
  | _ => exact h

theorem placed_anybody {w v : FrontEnd} {i : Nat} (h : Relation.ReflTransGen Process.Anybody w v)
    (hw : (w.slot i).Placed) : (v.slot i).Placed := by
  induction h with
  | refl => exact hw
  | tail _ h ih =>
    cases h with
    | act _ v => exact Action.slot_perform_of ih (Action.onto_placed ih ..)
    | tell r v =>
      rw [FrontEnd.slot_tell]
      exact ih

/-! ## Lists that have ended -/

/-- Whether the list at position `i` was just seen to have finished. -/
def Action.seesFinished (i : Nat) : (a : Action) → a.Answer → Bool
  | .look j, s => decide (j = i) && s.flags.finished
  | _, _ => false

/-- The process marks the list at position `i` ended only if the last thing it did was to see that
the list has finished. -/
def Marks (i : Nat) : {α : Type} → Bool → Process α → Prop
  | _, _, .done _ => True
  | _, seen, .act a k => (a = .change i (.setEnded true) → seen = true) ∧
      ∀ r, Marks i (a.seesFinished i r) (k r)
  | _, _, .report _ k => Marks i false k
  | _, _, .loop round _ k => (∀ s, Marks i false (round s)) ∧ ∀ b, Marks i false (k b)

section Marks

variable {α β : Type} {i : Nat} {seen : Bool}

theorem Marks.of_unseen {p : Process α} (h : Marks i false p) : Marks i seen p := by
  cases p with
  | done a => trivial
  | act a k => exact ⟨fun ha => absurd (h.1 ha) (by simp), h.2⟩
  | report m k => exact h
  | loop round s k => exact h

theorem Marks.bind {p : Process β} {f : β → Process α} (hp : Marks i seen p)
    (hf : ∀ b, Marks i false (f b)) : Marks i seen (p.bind f) := by
  induction p generalizing seen with
  | done b => exact (hf b).of_unseen
  | act a k ih => exact ⟨hp.1, fun r => ih r (hp.2 r) hf⟩
  | report m k ih => exact ih hp hf
  | loop round s k _ ih => exact ⟨hp.1, fun b => ih b (hp.2 b) hf⟩

/-- **No request marks a list ended that was not just seen to have finished.** -/
theorem composed_marks (i : Nat) : Composed (Marks i false) where
  done _ := trivial
  bind hp hf := hp.bind hf
  iterate h := ⟨h, fun _ => trivial⟩
  tell _ := trivial
  perform a ha := ⟨fun he => absurd he (ha i true), fun _ => trivial⟩
  endList j := by
    refine ⟨by simp, fun s => ⟨fun he => ?_, fun _ => trivial⟩⟩
    injection he with hj hc
    injection hc with hb
    simp [Action.seesFinished, hj, hb]

end Marks

/-- **What holds of a list at any time.** -/
structure Slot.Coherent (s : Slot) : Prop extends s.Placed where
  depth : s.calls.depth ≤ 32
  ended : s.flags.ended = true → s.flags.finished = true
  /-- A list that is reported as stalled is at its stall address, which is not zero. -/
  stalled : s.reported = .stallReached → s.pc = s.stall ∧ s.stall ≠ 0

namespace Slot

variable {s : Slot}

theorem Placed.coherent (h : s.Placed) (he : s.flags.ended = true → s.flags.finished = true) :
    s.Coherent where
  toPlaced := h
  depth := s.calls.depth_le
  ended := he
  stalled hr := by
    unfold reported at hr
    split at hr
    next => cases hr
    next hs =>
      simp only [hr, decide_true, Bool.true_and, Bool.not_eq_true', Bool.not_eq_false, isStalled,
        Bool.and_eq_true, beq_iff_eq, bne_iff_ne] at hs
      exact hs

theorem placed_new (id : Nat) : (Slot.new id).Placed := by
  have hzero := Address.aligned_aligned 0
  exact ⟨hzero, hzero, hzero, fun f hf => by (cases hf), Fetcher.points_clear (f := {})⟩

theorem coherent_new (id : Nat) : (Slot.new id).Coherent :=
  (placed_new id).coherent fun _ => rfl

theorem ended_perform {c : Change} (h : s.flags.ended = true → s.flags.finished = true)
    (hc : c = .setEnded true → s.flags.finished = true) :
    (c.perform s).2.flags.ended = true → (c.perform s).2.flags.finished = true := by
  rw [Change.flags_perform]
  cases c with
  | init sub => exact fun he => by cases he
  | reset => exact fun _ => rfl
  | setFinished => exact fun _ => rfl
  | setEnded b =>
    intro hb
    change b = true at hb
    subst hb
    exact hc rfl
  | _ => exact h

/-- **An action leaves a list coherent**, unless it marks the list ended that has not finished. -/
theorem Coherent.onto (h : s.Coherent) {a : Action} {i : Nat}
    (ha : a = .change i (.setEnded true) → s.flags.finished = true) (m : Memory) :
    (a.onto i m s).Coherent := by
  refine (Action.onto_placed h.toPlaced a i m).coherent ?_
  by_cases hc : ∃ c, a = .change i c
  · obtain ⟨c, rfl⟩ := hc
    rw [Action.onto_change, if_pos rfl]
    exact ended_perform h.ended fun hc => ha (by rw [hc])
  · rw [Action.flags_onto fun c he => hc ⟨c, he⟩]
    exact h.ended

end Slot

/-- **Every list is in place**, whoever has acted on the front end. -/
theorem placed_reachable {w v : FrontEnd} (hfresh : w.Fresh)
    (h : Relation.ReflTransGen Process.Anybody w v) (i : Nat) : (v.slot i).Placed := by
  obtain ⟨id, hid⟩ := hfresh i
  have hw : (w.slot i).Placed := by
    rw [hid]
    exact Slot.placed_new id
  exact placed_anybody h hw

/-! ## Whatever is asked of a front end -/

/-- What is left of a process after so many steps, and the front end by then. -/
def Process.after {α : Type} (n : Nat) (p : Process α) (w : FrontEnd) : Process α × FrontEnd :=
  (fun x => x.1.next x.2)^[n] (p, w)

/-- The list at position `i` is coherent, and stays so when the process goes on by itself. -/
def Coheres {α : Type} (i : Nat) (x : Process α × FrontEnd) : Prop :=
  (x.2.slot i).Coherent ∧
    ∃ seen, Marks i seen x.1 ∧ (seen = true → (x.2.slot i).flags.finished = true)

variable {α : Type} {i : Nat}

/-- **Each step** of a process that runs by itself. -/
theorem Coheres.next {p : Process α} {w : FrontEnd} (h : Coheres i (p, w)) :
    Coheres i (p.next w) := by
  obtain ⟨hw, seen, hp, hseen⟩ := h
  cases p with
  | done a => exact ⟨hw, false, trivial, by simp⟩
  | act a k =>
    refine ⟨Action.slot_perform_of hw (hw.onto (fun ha => hseen (hp.1 ha)) _), _, hp.2 _, ?_⟩
    intro hs
    cases a with
    | look j =>
      simp only [Action.seesFinished, Bool.and_eq_true, decide_eq_true_eq] at hs
      obtain ⟨rfl, hs⟩ := hs
      exact hs
    | _ => cases hs
  | report m k =>
    refine ⟨?_, false, (((composed_marks i).serveAll _).bind fun _ => hp), by simp⟩
    change ((w.tell m).2.slot i).Coherent
    rw [FrontEnd.slot_tell]
    exact hw
  | loop round s k =>
    refine ⟨hw, false, (hp.1 s).bind fun x => ?_, by simp⟩
    cases x with
    | inl s => exact hp
    | inr b => exact hp.2 b

theorem Coheres.after {p : Process α} {w : FrontEnd} (h : Coheres i (p, w)) (n : Nat) :
    Coheres i (p.after n w) := by
  induction n with
  | zero => exact h
  | succ n ih =>
    unfold Process.after at ih ⊢
    rw [Function.iterate_succ_apply']
    exact ih.next

/-- **Every list is coherent at any time**: after any requests, also those that the host makes when
it is called, and between any two steps of them. -/
theorem coherent_always {w : FrontEnd} (hfresh : w.Fresh) (session : List (String × Request))
    (n i : Nat) : (((Request.serveAll session).after n w).2.slot i).Coherent := by
  have hnew : (w.slot i).Coherent := by
    obtain ⟨id, hid⟩ := hfresh i
    rw [hid]
    exact Slot.coherent_new id
  have h : Coheres i (Request.serveAll session, w) :=
    ⟨hnew, false, (composed_marks i).serveAll session, by simp⟩
  exact (h.after n).1

/-- A list is submitted, handed on with a window, fetched from, called off to its stall address and
ended. -/
theorem coherent_always_ended :
    let session : List (String × Request) :=
      [("init", .init 0 ⟨0x88800003, 0, 0, none⟩),
        ("window", .setStallWith 0 0xFFFFFFFF ⟨0x08800000, 4, 0⟩ 0x08800000 0x08800010),
        ("fetch", .access 0 .next), ("call", .call 0 .absolute 0xFFFFFFFF),
        ("stall", .setStatus 0 .stallReached), ("finish", .finish 0), ("end", .endList 0)]
    let s := ((Request.serveAll session).after 32 (Replay.frontEnd {})).2.slot 0
    (Replay.frontEnd {}).Fresh ∧ s.pc = 0x3FFFFFFC ∧ s.reported = .stallReached ∧
      s.calls.depth = 1 ∧ s.flags.ended = true ∧ s.Coherent := by
  have hfresh : (Replay.frontEnd {}).Fresh := FrontEnd.fresh_of_slots rfl
  exact ⟨hfresh, by decide +kernel, by decide +kernel, by decide +kernel, by decide +kernel,
    coherent_always hfresh _ 32 0⟩

end DisplayList

import DisplayList.Engine
import DisplayList.Proofs.Rely
import DisplayList.Proofs.Slots

/-!
# What the engine does to a list

The engine looks at the list it runs and fetches its words, moves its instruction address, sets its
flags and writes its status. It never touches another list, nor memory.

* `Action.Quiet`, `Action.Steers`: the actions by which the engine runs a list, those that write its
  status apart;
* `Change.Branches`, `Change.SetsStall`, **`Action.onto_frame`**, `Action.Quiet.onto_frame`: what
  changes and other actions may make of a slot;
* `Change.flags`, **`Move.flags_after`**: what is made of the flags of a list, by whomever;
  `id_anybody`: nobody gives it another number;
* `only_access`, `only_step`: the parts that write no status;
* `only_round`, **`only_execute`**, **`only_drain`**: the engine does nothing else while it runs a
  list, and serves its queue, whatever the words are.
-/

namespace DisplayList

/-- A change that the engine makes to the list it runs, other than of its status. -/
def Change.Quiet : Change → Prop
  | .moveTo _ | .call .. | .ret => True
  | .setPaused _ | .setRestarted _ | .setFinished | .setEnded _ => True
  | _ => False

namespace Action

/-- An action of the engine that runs the list at position `i`, other than to write its status. A
cursor comes from guest memory, and is moved only to fetch or to look back. -/
def Quiet (i : Nat) : Action → Prop
  | look _ | registers | setRegisters _ | kind | testVisible => True
  | change k c => k = i ∧ c.Quiet
  | notify k n => k = i ∧ n = .finished
  | await k => k = i
  | access k a => k = i ∧ ∀ n, a ≠ .rewind n
  | accessWith k address c a => k = i ∧ (∀ n, a ≠ .rewind n) ∧ Cursor.openAt address 4 = .ok c
  | _ => False

/-- An action of the engine that runs the list at position `i`. -/
def Steers (i : Nat) (a : Action) : Prop :=
  a.Quiet i ∨ ∃ s, a = .change i (.setStatus s)

/-- An action by which the engine carries out a word of the list at position `i`: it writes no
status but that the list is done. -/
def CarriesOut (i : Nat) (a : Action) : Prop :=
  a.Quiet i ∨ a = .change i (.setStatus .done)

variable {i j : Nat} {a : Action} {m : Memory} {s : Slot}

theorem CarriesOut.steers (h : a.CarriesOut i) : a.Steers i :=
  h.imp_right fun ha => ⟨.done, ha⟩

theorem Steers.onto_ne (h : a.Steers i) (hj : j ≠ i) : a.onto j m s = s := by
  have hne : ¬ i = j := fun he => hj he.symm
  rcases h with h | ⟨status, rfl⟩
  · cases a with
    | change k c =>
      rw [h.1]
      exact if_neg hne
    | await k =>
      have hk : k = i := h
      rw [hk]
      exact if_neg hne
    | access k a =>
      rw [h.1]
      exact if_neg hne
    | accessWith k address c a =>
      rw [h.1]
      exact if_neg hne
    | _ => rfl
  · exact if_neg hne

end Action

namespace Slot

variable {s : Slot} {m : Memory}

theorem moveTo_frame (s : Slot) (a : Address) :
    ∃ fetcher, s.moveTo a = { s with pc := Address.aligned a, fetcher } := by
  unfold moveTo
  dsimp only
  split
  next h => exact ⟨s.fetcher, by rw [← h]⟩
  next => exact ⟨_, rfl⟩

theorem call_frame {s' : Slot} {target : Address} {offset : UInt32}
    (h : s.call target offset = .ok s') :
    ∃ calls pc fetcher, s' = { s with calls, pc, fetcher } := by
  unfold call at h
  cases hp : s.calls.push ⟨s.pc, offset⟩ with
  | error e =>
    rw [hp] at h
    cases h
  | ok calls =>
    rw [hp] at h
    cases h
    obtain ⟨fetcher, hm⟩ := moveTo_frame { s with calls } target
    exact ⟨calls, _, fetcher, hm⟩

theorem ret_frame {s' : Slot} {offset : UInt32} (h : s.ret? = some (offset, s')) :
    ∃ calls pc fetcher, s' = { s with calls, pc, fetcher } := by
  unfold ret? at h
  cases hp : s.calls.pop? with
  | none =>
    rw [hp] at h
    cases h
  | some x =>
    rw [hp] at h
    cases h
    obtain ⟨fetcher, hm⟩ := moveTo_frame { s with calls := x.2 } x.1.returnPc
    exact ⟨x.2, _, fetcher, hm⟩

theorem access_frame (s : Slot) (m : Memory) (a : Access) :
    ∃ pc fetcher, (s.access m a).2 = { s with pc, fetcher } := by
  cases a with
  | next =>
    unfold access
    dsimp only
    split
    · exact ⟨s.pc, s.fetcher, rfl⟩
    · split
      · exact ⟨s.pc, s.fetcher, rfl⟩
      · exact ⟨_, _, rfl⟩
  | previous =>
    unfold access
    dsimp only
    split
    · exact ⟨s.pc, s.fetcher, rfl⟩
    · split
      · exact ⟨s.pc, _, rfl⟩
      · exact ⟨s.pc, _, rfl⟩
  | rewind n =>
    unfold access
    dsimp only
    split
    · exact ⟨s.pc, s.fetcher, rfl⟩
    · exact ⟨s.pc, _, rfl⟩

theorem tryAccess_frame (s : Slot) (m : Memory) (a : Access) :
    ∃ pc fetcher, (s.tryAccess m a).2 = { s with pc, fetcher } := by
  unfold tryAccess
  split
  · exact ⟨s.pc, s.fetcher, rfl⟩
  · exact access_frame s m a

theorem accessWith_frame (s : Slot) (m : Memory) (address : Address) (c : Cursor) (a : Access) :
    ∃ pc fetcher, (s.accessWith m address c a).2 = { s with pc, fetcher } := by
  unfold accessWith
  split
  · exact ⟨s.pc, s.fetcher, rfl⟩
  next fetcher _ =>
    obtain ⟨pc, fetcher', h⟩ := access_frame { s with fetcher } m a
    exact ⟨pc, fetcher', h⟩

end Slot

namespace Change

variable {c : Change}

/-- The change is a branch: a jump, a call or a return. -/
def Branches : Change → Prop
  | moveTo _ | call .. | ret => True
  | _ => False

/-- The change sets the stall address of a list that was submitted before. -/
def SetsStall : Change → Prop
  | moveStall _ | moveStallWith .. => True
  | _ => False

theorem Branches.frame (h : c.Branches) (s : Slot) :
    ∃ calls pc fetcher, (c.perform s).2 = { s with calls, pc, fetcher } := by
  cases c with
  | moveTo a =>
    obtain ⟨fetcher, hm⟩ := s.moveTo_frame a
    exact ⟨s.calls, _, fetcher, hm⟩
  | call target offset =>
    unfold perform
    dsimp only
    split
    next s' hs => exact Slot.call_frame hs
    next => exact ⟨s.calls, s.pc, s.fetcher, rfl⟩
  | ret =>
    unfold perform
    dsimp only
    split
    next offset s' hs => exact Slot.ret_frame hs
    next => exact ⟨s.calls, s.pc, s.fetcher, rfl⟩
  | _ => exact h.elim

theorem SetsStall.frame (h : c.SetsStall) (s : Slot) :
    ∃ stall fetcher, (c.perform s).2 = { s with stall, fetcher } := by
  cases c with
  | moveStall a =>
    simp only [perform, Slot.moveStall]
    split
    · exact ⟨s.stall, s.fetcher, rfl⟩
    · exact ⟨_, s.fetcher, rfl⟩
  | moveStallWith a w =>
    simp only [perform, Slot.moveStallWith, Slot.moveStall]
    split
    · exact ⟨s.stall, _, rfl⟩
    · exact ⟨_, _, rfl⟩
  | _ => exact h.elim

theorem Branches.keeps {α : Type} {f : Slot → α} (h : c.Branches)
    (hf : ∀ s calls pc fetcher, f { s with calls, pc, fetcher } = f s) (s : Slot) :
    f (c.perform s).2 = f s := by
  obtain ⟨calls, pc, fetcher, hs⟩ := h.frame s
  rw [hs, hf]

theorem SetsStall.keeps {α : Type} {f : Slot → α} (h : c.SetsStall)
    (hf : ∀ s stall fetcher, f { s with stall, fetcher } = f s) (s : Slot) :
    f (c.perform s).2 = f s := by
  obtain ⟨stall, fetcher, hs⟩ := h.frame s
  rw [hs, hf]

end Change

theorem Action.onto_frame {a : Action} {i : Nat} (h : ∀ c, a ≠ .change i c) (m : Memory)
    (s : Slot) : ∃ pc fetcher wake, a.onto i m s = { s with pc, fetcher, wake } := by
  have hsame : ∃ pc fetcher wake, s = { s with pc, fetcher, wake } :=
    ⟨s.pc, s.fetcher, s.wake, rfl⟩
  cases a with
  | change j c =>
    have hj : ¬ j = i := fun hj => h c (by rw [hj])
    rw [onto_change, if_neg hj]
    exact hsame
  | await j =>
    unfold onto
    dsimp only
    split
    · exact ⟨s.pc, s.fetcher, _, rfl⟩
    · exact hsame
  | access j a =>
    obtain ⟨pc, fetcher, hs⟩ := s.tryAccess_frame m a
    unfold onto
    dsimp only
    split
    · exact ⟨pc, fetcher, s.wake, hs⟩
    · exact hsame
  | accessWith j address c a =>
    obtain ⟨pc, fetcher, hs⟩ := s.accessWith_frame m address c a
    unfold onto
    dsimp only
    split
    · exact ⟨pc, fetcher, s.wake, hs⟩
    · exact hsame
  | _ => exact hsame

/-- **What a quiet action may change of a slot.** -/
theorem Action.Quiet.onto_frame {i : Nat} {a : Action} (h : a.Quiet i) (j : Nat) (m : Memory)
    (s : Slot) : ∃ pc calls fetcher flags wake,
      a.onto j m s = { s with pc, calls, fetcher, flags, wake } := by
  by_cases hchange : ∃ c, a = .change j c
  · obtain ⟨c, rfl⟩ := hchange
    rw [onto_change, if_pos rfl]
    have hbranch : c.Branches → ∃ pc calls fetcher flags wake,
        (c.perform s).2 = { s with pc, calls, fetcher, flags, wake } := fun hc => by
      obtain ⟨calls, pc, fetcher, hs⟩ := hc.frame s
      exact ⟨pc, calls, fetcher, s.flags, s.wake, hs⟩
    cases c with
    | moveTo | call | ret => exact hbranch trivial
    | setPaused | setRestarted | setFinished | setEnded =>
      exact ⟨s.pc, s.calls, s.fetcher, _, s.wake, rfl⟩
    | _ => exact h.2.elim
  · obtain ⟨pc, fetcher, wake, hs⟩ := Action.onto_frame (fun c hc => hchange ⟨c, hc⟩) m s
    exact ⟨pc, s.calls, fetcher, s.flags, wake, hs⟩

theorem Action.Quiet.status_onto {i : Nat} {a : Action} (h : a.Quiet i) (j : Nat) (m : Memory)
    (s : Slot) : (a.onto j m s).status = s.status := by
  obtain ⟨pc, calls, fetcher, flags, wake, hs⟩ := h.onto_frame j m s
  rw [hs]

theorem Action.Steers.stall_onto {i : Nat} {a : Action} (h : a.Steers i) (j : Nat) (m : Memory)
    (s : Slot) : (a.onto j m s).stall = s.stall := by
  rcases h with h | ⟨status, rfl⟩
  · obtain ⟨pc, calls, fetcher, flags, wake, hs⟩ := h.onto_frame j m s
    rw [hs]
  · rw [onto_change]
    split
    · rfl
    · rfl

/-! ## The flags of a list -/

/-- What a change makes of the flags. -/
def Change.flags (f : Flags) : Change → Flags
  | .init _ => .fresh
  | .reset => .idle
  | .setPaused paused => { f with paused }
  | .setRestarted restarted => { f with restarted }
  | .setFinished => { f with finished := true }
  | .setEnded ended => { f with ended }
  | _ => f

theorem Change.flags_perform (c : Change) (s : Slot) : (c.perform s).2.flags = c.flags s.flags := by
  have hbranch : c.Branches → (c.perform s).2.flags = s.flags := fun hc =>
    hc.keeps (f := Slot.flags) (fun _ _ _ _ => rfl) s
  have hstall : c.SetsStall → (c.perform s).2.flags = s.flags := fun hc =>
    hc.keeps (f := Slot.flags) (fun _ _ _ => rfl) s
  cases c with
  | moveTo | call | ret => exact hbranch trivial
  | moveStall | moveStallWith => exact hstall trivial
  | _ => rfl

/-- What a move makes of the flags of the list at position `i`. -/
def Move.flags (i : Nat) (f : Flags) : Move → Flags
  | .act (.change j c) w => if j = i ∧ i < w.slots.size then c.flags f else f
  | _ => f

theorem Action.flags_onto {a : Action} {i : Nat} (h : ∀ c, a ≠ .change i c) (m : Memory)
    (s : Slot) : (a.onto i m s).flags = s.flags := by
  obtain ⟨pc, fetcher, wake, hs⟩ := onto_frame h m s
  rw [hs]

/-- **What a move makes of the flags.** -/
theorem Move.flags_after (m : Move) (i : Nat) :
    (m.after.slot i).flags = m.flags i (m.before.slot i).flags := by
  cases m with
  | report r w => exact congrArg Slot.flags (w.slot_tell i r)
  | act a w =>
    change ((a.perform w).2.slot i).flags = _
    rw [Action.slot_perform]
    by_cases hc : ∃ c, a = .change i c
    · obtain ⟨c, rfl⟩ := hc
      by_cases hi : i < w.slots.size
      · simp [flags, before, Action.onto_change, hi, Change.flags_perform]
      · simp [flags, before, hi]
    · have hkept := Action.flags_onto (fun c ha => hc ⟨c, ha⟩) w.memory (w.slot i)
      have hsame : (Move.act a w).flags i (w.slot i).flags = (w.slot i).flags := by
        cases a with
        | change j c => exact if_neg fun hj => hc ⟨c, by rw [hj.1]⟩
        | _ => rfl
      rw [before, hsame]
      split
      · exact hkept
      · rfl

/-! ## The number of a list -/

theorem Change.id_perform (c : Change) (s : Slot) : (c.perform s).2.id = s.id := by
  have hbranch : c.Branches → (c.perform s).2.id = s.id := fun hc =>
    hc.keeps (f := Slot.id) (fun _ _ _ _ => rfl) s
  have hstall : c.SetsStall → (c.perform s).2.id = s.id := fun hc =>
    hc.keeps (f := Slot.id) (fun _ _ _ => rfl) s
  cases c with
  | init sub =>
    change (Slot.moveTo _ _).id = s.id
    obtain ⟨fetcher, hm⟩ := Slot.moveTo_frame _ _
    rw [hm]
    rfl
  | moveTo | call | ret => exact hbranch trivial
  | moveStall | moveStallWith => exact hstall trivial
  | _ => rfl

theorem Action.id_onto (a : Action) (i : Nat) (m : Memory) (s : Slot) :
    (a.onto i m s).id = s.id := by
  by_cases hchange : ∃ c, a = .change i c
  · obtain ⟨c, rfl⟩ := hchange
    rw [onto_change, if_pos rfl, c.id_perform]
  · obtain ⟨pc, fetcher, wake, hs⟩ := onto_frame (fun c hc => hchange ⟨c, hc⟩) m s
    rw [hs]

/-- **A list keeps its number**, whoever acts. -/
theorem id_anybody {w v : FrontEnd} (h : Process.Anybody w v) (i : Nat) :
    (v.slot i).id = (w.slot i).id := by
  cases h with
  | act _ =>
    exact Action.slot_perform_of (P := fun s => s.id = (w.slot i).id) rfl (Action.id_onto ..)
  | tell r => rw [FrontEnd.slot_tell]

/-! ## The text of the engine -/

namespace Process

variable {α β σ : Type} {allowed : Action → Prop} {i : Nat}

theorem only_pure (a : α) : Only allowed (pure a : Process α) := trivial

theorem only_perform {a : Action} (h : allowed a) : Only allowed (perform a) :=
  ⟨h, fun _ => trivial⟩

theorem only_tell (r : Report) : Only allowed (tell r) := trivial

theorem only_bind {p : Process β} {f : β → Process α} (hp : Only allowed p)
    (hf : ∀ b, Only allowed (f b)) : Only allowed (p >>= f) :=
  hp.bind hf

theorem only_iterate {s : σ} {round : σ → Process (σ ⊕ α)} (h : ∀ s, Only allowed (round s)) :
    Only allowed (iterate s round) :=
  ⟨h, fun _ => trivial⟩

theorem Only.mono {allowed' : Action → Prop} (hle : ∀ a, allowed a → allowed' a) {p : Process α}
    (h : Only allowed p) : Only allowed' p := by
  induction p with
  | done => trivial
  | act a k ih => exact ⟨hle a h.1, fun r => ih r (h.2 r)⟩
  | report r k ih => exact ih h
  | loop round s k ih ih' => exact ⟨fun s => ih s (h.1 s), fun b => ih' b (h.2 b)⟩

theorem Only.and {allowed' : Action → Prop} {p : Process α} (h : Only allowed p)
    (h' : Only allowed' p) : Only (fun a => allowed a ∧ allowed' a) p := by
  induction p with
  | done => trivial
  | act a k ih => exact ⟨⟨h.1, h'.1⟩, fun r => ih r (h.2 r) (h'.2 r)⟩
  | report r k ih => exact ih h h'
  | loop round s k ih ih' => exact ⟨fun s => ih s (h.1 s) (h'.1 s), fun b => ih' b (h.2 b) (h'.2 b)⟩

theorem only_look (k : Nat) : Only (Action.Quiet i) (look k) :=
  only_perform trivial

theorem only_change {c : Change} (h : c.Quiet) : Only (Action.Quiet i) (change i c) :=
  only_perform ⟨rfl, h⟩

theorem only_tries {a : Slot.Access} (h : allowed (.access i a))
    (h' : ∀ address c, Cursor.openAt address 4 = .ok c → allowed (.accessWith i address c a)) :
    Only allowed (Operation.access i a) := by
  refine only_iterate fun _ => only_bind (only_perform h) fun r => ?_
  cases r with
  | inr r => exact only_pure _
  | inl address =>
    refine only_bind (only_tell _) fun _ => ?_
    cases hc : Cursor.openAt address 4 with
    | error f => exact only_pure _
    | ok c =>
      refine only_bind (only_perform (h' address c hc)) fun r => ?_
      cases r with
      | some r => exact only_pure _
      | none => exact only_pure _

theorem only_access {a : Slot.Access} (h : ∀ n, a ≠ .rewind n) :
    Only (Action.Quiet i) (Operation.access i a) :=
  only_tries ⟨rfl, h⟩ fun _ _ hc => ⟨rfl, h, hc⟩

theorem only_jump (mode : Mode) (arg : UInt32) :
    Only (Action.Quiet i) (Operation.jump i mode arg) :=
  only_bind (only_perform trivial) fun _ => only_change trivial

theorem only_call (mode : Mode) (arg : UInt32) :
    Only (Action.Quiet i) (Operation.call i mode arg) :=
  only_bind (only_perform trivial) fun _ => only_change trivial

theorem only_ret : Only (Action.Quiet i) (Operation.ret i) := by
  refine only_bind (only_change trivial) fun r => ?_
  cases r with
  | none => exact only_pure _
  | some offset => exact only_bind (only_perform trivial) fun _ => only_perform trivial

theorem only_finish : Only (Action.Quiet i) (Operation.finish i) :=
  only_bind (only_change trivial) fun _ => only_perform ⟨rfl, rfl⟩

theorem only_signalCallback (list : Nat) (behavior signal : UInt32) :
    Only (Action.Quiet i) (Operation.signalCallback i list behavior signal) :=
  only_bind (only_look i) fun _ => only_bind (only_perform trivial) fun _ => only_tell _

theorem only_finishCallback (list : Nat) (arg : UInt32) :
    Only (Action.Quiet i) (Operation.finishCallback i list arg) :=
  only_bind (only_look i) fun _ => only_bind (only_perform trivial) fun _ => only_tell _

theorem only_transfer (t : Transfer) (target : UInt32) :
    Only (Action.Quiet i) (Engine.transfer i t target) := by
  cases t with
  | jump mode => exact only_bind (only_jump ..) fun _ => only_pure _
  | call mode => exact only_bind (only_call ..) fun _ => only_pure _
  | ret => exact only_bind only_ret fun _ => only_pure _
  | pause => exact only_bind (only_change trivial) fun _ => only_pure _

/-- **A word that does not end the list writes no status.** -/
theorem only_step (watched : Bool) {c : Command} (hc : ∀ arg, c ≠ .stop arg) :
    Only (Action.Quiet i) (Engine.step watched i c) := by
  cases c with
  | nop => exact only_pure _
  | jump arg => exact only_bind (only_jump ..) fun _ => only_pure _
  | branchHidden arg =>
    dsimp only [Engine.step]
    split
    · refine only_bind (only_perform trivial) fun visible => ?_
      split
      · exact only_pure _
      · exact only_bind (only_jump ..) fun _ => only_pure _
    · refine only_bind (only_pure true) fun visible => ?_
      split
      · exact only_pure _
      · exact only_bind (only_jump ..) fun _ => only_pure _
  | call arg => exact only_bind (only_call ..) fun _ => only_pure _
  | ret => exact only_bind only_ret fun _ => only_pure _
  | stop arg => exact absurd rfl (hc arg)
  | signal behavior signal =>
    dsimp only [Engine.step]
    split
    · exact only_bind (only_look i) fun _ =>
        only_bind (only_signalCallback ..) fun _ => only_pure _
    · exact only_pure _
  | finish arg =>
    exact only_bind only_finish fun _ => only_bind (only_look i) fun _ =>
      only_bind (only_finishCallback ..) fun _ => only_pure _
  | base arg =>
    exact only_bind (only_perform trivial) fun _ =>
      only_bind (only_perform trivial) fun _ => only_pure _
  | offset arg =>
    exact only_bind (only_perform trivial) fun _ =>
      only_bind (only_perform trivial) fun _ => only_pure _
  | origin =>
    exact only_bind (only_look i) fun _ => only_bind (only_perform trivial) fun _ =>
      only_bind (only_perform trivial) fun _ => only_pure _
  | draw word =>
    refine only_bind (only_look i) fun s => ?_
    split
    · exact only_bind (only_tell _) fun _ => only_pure _
    · exact only_pure _

/-! ## The whole run of a list -/

theorem Only.steers {p : Process α} (h : Only (Action.Quiet i) p) : Only (Action.Steers i) p :=
  h.mono fun _ ha => .inl ha

theorem only_setStatus (s : Status) : Only (Action.Steers i) (change i (.setStatus s)) :=
  only_perform (.inr ⟨s, rfl⟩)

theorem only_endList : Only (Action.Quiet i) (Operation.endList i) :=
  only_bind (only_look i) fun _ => only_change trivial

theorem Only.carriesOut {p : Process α} (h : Only (Action.Quiet i) p) :
    Only (Action.CarriesOut i) p :=
  h.mono fun _ ha => .inl ha

theorem only_conclude : Only (Action.CarriesOut i) (Engine.conclude i) :=
  only_bind only_endList.carriesOut fun _ => only_bind (only_perform (.inr rfl)) fun _ =>
    only_bind (only_look i).carriesOut fun _ => only_pure _

theorem only_stop (arg : UInt32) : Only (Action.CarriesOut i) (Engine.stop i arg) := by
  have hend : Only (Action.CarriesOut i) (Engine.conclude i >>= fun outcome =>
      (pure (.ok (some outcome)) : Process (Except Failure (Option Outcome)))) :=
    only_bind only_conclude fun _ => only_pure _
  refine only_bind (only_access (by simp)).carriesOut fun r => ?_
  cases r with
  | error e =>
    cases e with
    | memory f => exact hend
    | _ => exact only_pure _
  | ok word =>
    dsimp only
    split
    · split
      · exact (only_transfer ..).carriesOut
      · exact hend
    · exact hend

/-- **A word writes no status** but that the list is done. -/
theorem only_carriesOut (watched : Bool) (c : Command) :
    Only (Action.CarriesOut i) (Engine.step watched i c) := by
  by_cases hc : ∃ arg, c = .stop arg
  · obtain ⟨arg, rfl⟩ := hc
    exact only_stop arg
  · exact (only_step watched fun arg he => hc ⟨arg, he⟩).carriesOut

theorem only_steps (watched : Bool) (c : Command) :
    Only (Action.Steers i) (Engine.step watched i c) :=
  (only_carriesOut watched c).mono fun _ => Action.CarriesOut.steers

theorem only_round (watched : Bool) : Only (Action.Steers i) (Engine.round watched i) := by
  refine only_bind (only_look i).steers fun s => ?_
  split
  · exact only_pure _
  · refine only_bind (only_look i).steers fun s => ?_
    split
    · refine only_bind (only_setStatus _) fun _ => ?_
      refine only_bind (only_perform (.inl rfl)) fun woken => ?_
      split
      · refine only_bind (only_look i).steers fun s => ?_
        split
        · exact only_pure _
        · exact only_bind (only_setStatus _) fun _ => only_pure _
      · exact only_pure _
    · refine only_bind (only_access (by simp)).steers fun r => ?_
      cases r with
      | error e => exact only_pure _
      | ok word =>
        refine only_bind (only_steps ..) fun r => ?_
        split
        · exact only_pure _
        · exact only_pure _
        · exact only_pure _

/-- **The engine does nothing else** while it runs a list. -/
theorem only_execute (watched : Bool) : Only (Action.Steers i) (Engine.execute watched i) := by
  have hrun : Only (Action.Steers i) (change i (.setStatus .drawing) >>= fun _ =>
      iterate () fun _ => Engine.round watched i) :=
    only_bind (only_setStatus _) fun _ => only_iterate fun _ => only_round watched
  refine only_bind (only_look i).steers fun s => ?_
  split
  · exact only_pure _
  · refine only_bind (only_look i).steers fun s => ?_
    split
    · exact only_bind (only_perform (.inl ⟨rfl, trivial⟩)) fun _ => hrun
    · exact hrun

/-- **The engine does nothing else** to serve its queue. -/
theorem only_drain (watched : Bool) (hsteers : ∀ j a, a.Steers j → allowed a)
    (hdequeue : allowed .dequeue) (henqueue : ∀ j, allowed (.enqueue j .head)) :
    Only allowed (Engine.drain watched) := by
  have hlook : ∀ j, Only allowed (look j) := fun j =>
    only_perform (hsteers j _ (.inl trivial))
  have hput : ∀ j, Only allowed (perform (.enqueue j .head)) := fun j => only_perform (henqueue j)
  refine only_iterate fun outcomes => only_bind (only_perform hdequeue) fun next => ?_
  cases next with
  | none => exact only_pure _
  | some j =>
    refine only_bind (hlook j) fun s => ?_
    split
    · exact only_pure _
    · refine only_bind (hlook j) fun s => ?_
      split
      · exact only_pure _
      · refine only_bind ((only_execute watched).mono (hsteers j)) fun r => ?_
        cases r with
        | error e => exact only_bind (hput j) fun _ => only_pure _
        | ok outcome =>
          refine only_bind (hlook j) fun s => ?_
          split
          · exact only_pure _
          · exact only_bind (hput j) fun _ => only_pure _

end Process

end DisplayList

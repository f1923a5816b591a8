import DisplayList.Proofs.Shown
import DisplayList.Proofs.Storing
import DisplayList.Proofs.Together
import DisplayList.Proofs.Transparency

/-!
# A list that is handed over in parts

A list is handed over from `start` on, up to `stop` at last, and its stall address is where the
words end that were handed over so far. Up to there memory is what it will be; its windows begin at
`start` or after it.

* `Fetcher.Within`: where the windows of the list are; `Within.follow`, …: the fetcher keeps to it;
* `Slot.Fed`, `FrontEnd.Fed`: a list that is handed over in parts;
* `Action.Serves`: what the engine does to such a list; **`FrontEnd.Fed.perform`**: it stays one.
-/

namespace DisplayList

/-! ## Where the windows are -/

/-- The windows begin at `start` or after it, and while one is in use the instruction address is
not before `start`. -/
structure Fetcher.Within (start : Address) (f : Fetcher) (pc : Address) : Prop where
  window : ∀ w, f.window = some w → start.toNat ≤ w.start.toNat
  source : f.source = .window → start.toNat ≤ pc.toNat

namespace Fetcher

variable {start : Address} {f f' : Fetcher} {pc old new a : Address} {c : Cursor}

theorem within_clear : f.clear.Within start pc where
  window w h := by cases h
  source h := by cases h

theorem Within.leaveWindow (h : f.Within start old) : (f.leaveWindow old new).Within start new := by
  unfold Fetcher.leaveWindow
  dsimp only
  split
  · split
    · exact ⟨h.window, fun hs => by cases hs⟩
    · exact ⟨h.window, fun hs => by cases hs⟩
  · exact ⟨h.window, fun hs => by cases hs⟩

theorem Within.follow (h : f.Within start old) : (f.follow old new).Within start new := by
  unfold Fetcher.follow
  split
  next w hw =>
    split
    next hc =>
      have hstart := h.window w hw
      unfold Window.covers at hc
      rw [Bool.and_eq_true, decide_eq_true_iff, UInt32.le_iff_toNat_le] at hc
      refine ⟨fun w' hw' => ?_, fun _ => Nat.le_trans hstart hc.1⟩
      cases hw'
      exact hstart
    next => exact h.leaveWindow
  next => exact h.leaveWindow

theorem within_setWindow {w : Window} (hw : start.toNat ≤ w.start.toNat) :
    (f.setWindow w).Within start pc := by
  refine ⟨fun w' hw' => ?_, fun hs => ?_⟩
  · cases hw'
    exact hw
  · have hs' : (if f.source = .window then Source.unset else f.source) = .window := hs
    split at hs'
    · cases hs'
    next hn => exact absurd hs' hn

theorem Within.setCursor (h : f.Within start old)
    (hnew : start.toNat ≤ old.toNat → start.toNat ≤ new.toNat) :
    (f.setCursor c).Within start new := by
  unfold Fetcher.setCursor
  split
  · exact ⟨h.window, fun hs => by cases hs⟩
  next hw =>
    refine ⟨fun w hw' => ?_, fun _ => hnew (h.source hw)⟩
    obtain ⟨w₀, hw₀, rfl⟩ := Option.map_eq_some_iff.1 hw'
    exact h.window w₀ hw₀
  · exact ⟨h.window, fun hs => hnew (h.source hs)⟩

theorem Within.install (h : f.Within start pc) (hf : f.install? pc a c = some f') :
    f'.Within start pc := by
  unfold install? at hf
  split at hf
  · split at hf
    · cases hf
      exact ⟨h.window, fun hs => by cases hs⟩
    · cases hf
  · cases hf
    exact h

/-- The next access finds a cursor: one is at hand, or there is memory where one is wanted. -/
def AtHand (f : Fetcher) (pc : Address) : Prop :=
  f.wanted pc = none ∨ Memory.isMapped pc = true

theorem wanted_setCursor {c' : Cursor} (h : f.cursor? = some c) :
    (f.setCursor c').wanted pc = none := by
  obtain ⟨source, window, found⟩ := f
  cases source with
  | unset => cases h
  | pending a => cases h
  | own c => rfl
  | window =>
    cases window with
    | none => cases h
    | some w => rfl

end Fetcher

/-! ## The slot -/

/-- The slot of a list that is handed over from `start` to `stop`. -/
structure Slot.Fed (start stop : Address) (s : Slot) : Prop where
  follows : s.Follows
  within : s.fetcher.Within start s.pc
  aligned : Address.aligned s.stall = s.stall
  /-- Something was handed over. -/
  low : start.toNat < s.stall.toNat
  high : s.stall.toNat ≤ stop.toNat
  kept : s.flags.reset = false
  running : s.flags.restarted = false

namespace Slot

variable {start stop : Address} {s s' : Slot} {m : Memory}

theorem Fed.congr (h : s.Fed start stop) (hpc : s'.pc = s.pc) (hf : s'.fetcher = s.fetcher)
    (hs : s'.stall = s.stall) (hr : s'.flags.reset = s.flags.reset)
    (hr' : s'.flags.restarted = s.flags.restarted) : s'.Fed start stop where
  follows := by
    have hfo := h.follows
    exact ⟨by rw [hpc]; exact hfo.aligned, by rw [hpc, hf]; exact hfo.fetcher⟩
  within := by
    rw [hpc, hf]
    exact h.within
  aligned := by
    rw [hs]
    exact h.aligned
  low := by
    rw [hs]
    exact h.low
  high := by
    rw [hs]
    exact h.high
  kept := hr.trans h.kept
  running := hr'.trans h.running

theorem within_moveTo (h : s.fetcher.Within start s.pc) (a : Address) :
    (s.moveTo a).fetcher.Within start (s.moveTo a).pc := by
  unfold Slot.moveTo
  dsimp only
  split
  · exact h
  · exact h.follow

theorem Fed.moveTo (h : s.Fed start stop) (a : Address) : (s.moveTo a).Fed start stop := by
  have hf := h.follows.moveTo a
  have hw := within_moveTo h.within a
  obtain ⟨fetcher, hm⟩ := s.moveTo_frame a
  rw [hm] at hf hw ⊢
  exact ⟨hf, hw, h.aligned, h.low, h.high, h.kept, h.running⟩

theorem Fed.call {target : Address} {offset : UInt32} (h : s.Fed start stop)
    (hc : s.call target offset = .ok s') : s'.Fed start stop := by
  unfold Slot.call at hc
  cases hp : s.calls.push ⟨s.pc, offset⟩ with
  | error e =>
    rw [hp] at hc
    cases hc
  | ok calls =>
    rw [hp] at hc
    cases hc
    have hs : Fed start stop { s with calls } := h.congr rfl rfl rfl rfl rfl
    exact hs.moveTo target

theorem Fed.ret {offset : UInt32} (h : s.Fed start stop) (hr : s.ret? = some (offset, s')) :
    s'.Fed start stop := by
  unfold Slot.ret? at hr
  cases hp : s.calls.pop? with
  | none =>
    rw [hp] at hr
    cases hr
  | some x =>
    rw [hp] at hr
    cases hr
    have hs : Fed start stop { s with calls := x.2 } := h.congr rfl rfl rfl rfl rfl
    exact hs.moveTo _

theorem Fed.change {c : Change} (h : s.Fed start stop) (hc : c.Plain) :
    (c.perform s).2.Fed start stop := by
  cases c with
  | moveTo a => exact h.moveTo a
  | call target offset =>
    unfold Change.perform
    dsimp only
    split
    next s' hs => exact h.call hs
    next => exact h
  | ret =>
    unfold Change.perform
    dsimp only
    split
    next offset s' hs => exact h.ret hs
    next => exact h
  | setStatus status => exact h.congr rfl rfl rfl rfl rfl
  | setPaused b => exact h.congr rfl rfl rfl rfl rfl
  | setFinished => exact h.congr rfl rfl rfl rfl rfl
  | setEnded b => exact h.congr rfl rfl rfl rfl rfl
  | _ => exact hc.elim

theorem Follows.fetched_pc {c : Cursor} (h : s.Follows) (hc : s.fetcher.cursor? = some c) :
    s.pc.toNat ≤ (s.access m .next).2.pc.toNat := by
  have hb := congrArg Slot.pc (h.next (m := m) hc).1.slot
  change (s.access m .next).2.pc = (s.fetch m).2.pc at hb
  rw [hb]
  unfold fetch
  cases hx : m.readWord s.pc with
  | error f => exact Nat.le_refl _
  | ok x =>
    have hm := Memory.isMapped_of_readWord h.aligned hx
    have hn := (Memory.aligned_next h.aligned hm).2
    change s.pc.toNat ≤ (s.pc + 4).toNat
    omega

theorem Fed.access {a : Access} (h : s.Fed start stop) (ha : ∀ n, a ≠ .rewind n) :
    (s.access m a).2.Fed start stop := by
  have hf : (s.access m a).2.Follows := h.follows.access ha
  obtain ⟨pc, fetcher, hm⟩ := s.access_frame m a
  have hw : (s.access m a).2.fetcher.Within start (s.access m a).2.pc := by
    cases a with
    | rewind n => exact absurd rfl (ha n)
    | next =>
      cases hc : s.fetcher.cursor? with
      | none =>
        unfold Slot.access
        rw [hc]
        exact h.within
      | some c =>
        have hpc := h.follows.fetched_pc (m := m) hc
        unfold Slot.access at hpc ⊢
        rw [hc] at hpc ⊢
        dsimp only at hpc ⊢
        cases hr : c.read m with
        | error f => exact h.within
        | ok x =>
          rw [hr] at hpc
          exact h.within.setCursor fun hs => Nat.le_trans hs hpc
    | previous =>
      unfold Slot.access
      cases hc : s.fetcher.cursor? with
      | none => exact h.within
      | some c =>
        dsimp only
        split
        · exact h.within.setCursor fun hs => hs
        · exact h.within.setCursor fun hs => hs
  rw [hm] at hf hw ⊢
  exact ⟨hf, hw, h.aligned, h.low, h.high, h.kept, h.running⟩

theorem Fed.tryAccess {a : Access} (h : s.Fed start stop) (ha : ∀ n, a ≠ .rewind n) :
    (s.tryAccess m a).2.Fed start stop := by
  unfold Slot.tryAccess
  split
  · exact h
  · exact h.access ha

theorem Fed.install {fetcher : Fetcher} {address : Address} {c : Cursor} (h : s.Fed start stop)
    (hc : Cursor.openAt address 4 = .ok c) (hf : s.fetcher.install? s.pc address c = some fetcher) :
    Fed start stop { s with fetcher } :=
  ⟨⟨h.follows.aligned, (h.follows.fetcher.install h.follows.aligned hc hf).1⟩,
    h.within.install hf, h.aligned, h.low, h.high, h.kept, h.running⟩

theorem Fed.accessWith {a : Access} {address : Address} {c : Cursor} (h : s.Fed start stop)
    (ha : ∀ n, a ≠ .rewind n) (hc : Cursor.openAt address 4 = .ok c) :
    (s.accessWith m address c a).2.Fed start stop := by
  unfold Slot.accessWith
  split
  · exact h
  next fetcher hf => exact (h.install hc hf).access ha

end Slot

/-! ## The front end -/

/-- An action by which the engine runs a list. -/
def Action.Serves : Action → Prop
  | await _ => True
  | access _ a => ∀ n, a ≠ .rewind n
  | accessWith _ address c a => (∀ n, a ≠ .rewind n) ∧ Cursor.openAt address 4 = .ok c
  | a => a.Plain

theorem Action.Plain.serves {a : Action} (h : a.Plain) : a.Serves := by
  cases a <;> first | exact h | exact h.elim

theorem Slot.Fed.onto {start stop : Address} {a : Action} {s : Slot} (h : s.Fed start stop)
    (ha : a.Serves) (i : Nat) (m : Memory) : (a.onto i m s).Fed start stop := by
  cases a with
  | change j c =>
    rw [Action.onto_change]
    split
    · have hc : c.Plain := ha
      exact h.change hc
    · exact h
  | await j =>
    unfold Action.onto
    dsimp only
    split
    · exact h.congr rfl rfl rfl rfl rfl
    · exact h
  | access j a =>
    unfold Action.onto
    dsimp only
    split
    · exact h.tryAccess ha
    · exact h
  | accessWith j address c a =>
    unfold Action.onto
    dsimp only
    split
    · exact h.accessWith ha.1 ha.2
    · exact h
  | _ => exact h

namespace Action

variable {a : Action} (ha : a.Serves)

include ha in
theorem Serves.leavesHost : a.LeavesHost := by
  cases a with
  | setHost f => exact ha
  | _ => trivial

include ha in
theorem Serves.stall_onto (i : Nat) (m : Memory) (s : Slot) : (a.onto i m s).stall = s.stall := by
  have hsteers : ∀ j, a.Steers j → (a.onto i m s).stall = s.stall := fun j h => h.stall_onto i m s
  cases a with
  | change j c =>
    refine hsteers j ?_
    cases c with
    | setStatus status => exact .inr ⟨status, rfl⟩
    | moveTo a => exact .inl ⟨rfl, trivial⟩
    | call target offset => exact .inl ⟨rfl, trivial⟩
    | ret => exact .inl ⟨rfl, trivial⟩
    | setPaused b => exact .inl ⟨rfl, trivial⟩
    | setFinished => exact .inl ⟨rfl, trivial⟩
    | setEnded b => exact .inl ⟨rfl, trivial⟩
    | _ => exact ha.elim
  | await j => exact hsteers j (.inl rfl)
  | access j a => exact hsteers j (.inl ⟨rfl, ha⟩)
  | accessWith j address c a => exact hsteers j (.inl ⟨rfl, ha⟩)
  | _ => rfl

include ha in
theorem Serves.frame (w : FrontEnd) : (a.perform w).2.selected? = w.selected? ∧
    (a.perform w).2.closed = w.closed ∧ (a.perform w).2.memory = w.memory := by
  cases a with
  | notify j n =>
    obtain ⟨queue, events, journal, hn⟩ := w.notify_frame j n
    change (w.notify j n).selected? = _ ∧ (w.notify j n).closed = _ ∧ (w.notify j n).memory = _
    rw [hn]
    exact ⟨rfl, rfl, rfl⟩
  | write a ws => exact ha.elim
  | route b => exact ha.elim
  | close => exact ha.elim
  | _ => exact ⟨rfl, rfl, rfl⟩

end Action

/-- The list at position `i` is handed over from `start` to `stop`; in the end memory will be
`goal`. -/
structure FrontEnd.Fed (i : Nat) (start stop : Address) (goal : Memory) (w : FrontEnd) : Prop where
  size : i < w.slots.size
  builtin : w.selected? = none
  quiet : w.host.Quiet
  slot : (w.slot i).Fed start stop
  /-- Up to the stall address memory is what it will be. -/
  memory : w.memory.AgreesOutside (w.slot i).stall.toNat stop.toNat goal
  /-- The producer is done only when all was handed over. -/
  closed : w.closed = true → (w.slot i).stall = stop

namespace FrontEnd

variable {i : Nat} {start stop : Address} {goal : Memory} {w v : FrontEnd}

theorem Fed.congr (h : w.Fed i start stop goal) (hs : v.slots = w.slots)
    (hb : v.selected? = w.selected?) (hq : v.host.Quiet) (hm : v.memory = w.memory)
    (hc : v.closed = w.closed) : v.Fed i start stop goal where
  size := by
    rw [hs]
    exact h.size
  builtin := hb.trans h.builtin
  quiet := hq
  slot := by
    rw [slot_congr w i hs]
    exact h.slot
  memory := by
    rw [slot_congr w i hs, hm]
    exact h.memory
  closed := by
    rw [slot_congr w i hs, hc]
    exact h.closed

/-- **Whatever the engine does, the list is one that is handed over in parts.** -/
theorem Fed.perform (h : w.Fed i start stop goal) {a : Action} (ha : a.Serves) :
    (a.perform w).2.Fed i start stop goal := by
  obtain ⟨hb, hc, hm⟩ := ha.frame w
  have hstall : ((a.perform w).2.slot i).stall = (w.slot i).stall :=
    Action.slot_perform_of (P := fun s => s.stall = (w.slot i).stall) rfl (ha.stall_onto ..)
  have hslot : ((a.perform w).2.slot i).Fed start stop :=
    Action.slot_perform_of h.slot (h.slot.onto ha i w.memory)
  refine ⟨?_, hb.trans h.builtin, ha.leavesHost.quiet h.quiet, hslot, ?_, ?_⟩
  · rw [Action.size_perform]
    exact h.size
  · rw [hm, hstall]
    exact h.memory
  · rw [hc, hstall]
    exact h.closed

theorem Fed.tell (h : w.Fed i start stop goal) (r : Report) :
    (w.tell r).2.Fed i start stop goal := by
  rw [tell_quiet h.quiet]
  dsimp only
  split
  · exact h.congr rfl rfl h.quiet rfl rfl
  · exact h

end FrontEnd

end DisplayList

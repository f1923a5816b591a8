import DisplayList.Proofs.Aligned
import DisplayList.Proofs.Nesting
import DisplayList.Proofs.Reading
import DisplayList.Proofs.Telling

/-!
# Transfers by a SIGNAL word and an END word

A SIGNAL word that asks for a transfer does nothing by itself. The END word after it looks back at
it, puts the target together from the two words, and does what a list operation with the whole
target would do.

* `signalWord`, `endWord`, **`decode_signalWord`**, **`target_halves`**: the two words;
* `Slot.Agrees`, `Past`, **`alone_fetch`**, **`alone_previous`**: the cursor goes along with a
  fetch, and a look back leaves it where it is;
* `Signal.request?`, **`gives_transfer`**, `gives_conclude`: a transfer is a list operation;
* `Engine.word`, `alone_round`: a round of a list that is neither paused nor stalled;
* **`stopWith_transfer`**, **`stopWith_conclude`**, **`alone_end`**: an END word does what the word
  before it asks for;
* **`signal_end_transfers`**.
-/

namespace DisplayList

open Process

/-! ## The words -/

theorem toNat_low (x : UInt32) {m : UInt32} {k : Nat} (hm : m.toNat = 2 ^ k - 1) :
    (x &&& m).toNat = x.toNat % 2 ^ k := by
  rw [UInt32.toNat_and, hm, Nat.and_two_pow_sub_one_eq_mod]

theorem toNat_join {a b s : UInt32} {k : Nat} (hs : s.toNat = k) (hk : k < 32)
    (ha : a.toNat < 2 ^ (32 - k)) (hb : b.toNat < 2 ^ k) :
    (a <<< s ||| b).toNat = a.toNat * 2 ^ k + b.toNat := by
  have hfit : a.toNat <<< k < 2 ^ 32 := by
    rw [Nat.shiftLeft_eq]
    calc a.toNat * 2 ^ k < 2 ^ (32 - k) * 2 ^ k :=
          Nat.mul_lt_mul_of_pos_right ha (Nat.two_pow_pos k)
      _ = 2 ^ 32 := by rw [← Nat.pow_add, Nat.sub_add_cancel (Nat.le_of_lt hk)]
  have hshift : (a <<< s).toNat = a.toNat <<< k := by
    rw [UInt32.toNat_shiftLeft, hs, Nat.mod_eq_of_lt hk, Nat.mod_eq_of_lt hfit]
  rw [UInt32.toNat_or, hshift, ← Nat.shiftLeft_add_eq_or_of_lt hb, Nat.shiftLeft_eq]

theorem toNat_commandWord (op : UInt8) (arg : UInt32) :
    (commandWord op arg).toNat = op.toNat * 2 ^ 24 + arg.toNat % 2 ^ 24 := by
  have hlow : (arg &&& (0x00FFFFFF : UInt32)).toNat = arg.toNat % 2 ^ 24 := toNat_low arg rfl
  have hop := op.toNat_lt
  unfold commandWord
  rw [toNat_join (k := 24) rfl (by decide) (by simpa using hop) (by rw [hlow]; omega), hlow]
  simp

theorem opcode_commandWord (op : UInt8) (arg : UInt32) :
    Command.opcode (commandWord op arg) = op := by
  have hop := op.toNat_lt
  apply UInt8.toNat_inj.1
  unfold Command.opcode
  rw [UInt32.toNat_toUInt8, UInt32.toNat_shiftRight, toNat_commandWord, Nat.shiftRight_eq_div_pow]
  simp
  omega

theorem argument_commandWord (op : UInt8) (arg : UInt32) :
    Command.argument (commandWord op arg) = Command.argument arg := by
  apply UInt32.toNat_inj.1
  unfold Command.argument
  rw [toNat_low (k := 24) _ rfl, toNat_low (k := 24) _ rfl, toNat_commandWord]
  omega

/-- The SIGNAL word of this behavior and number. -/
def signalWord (behavior number : UInt32) : UInt32 :=
  commandWord 0x0E ((behavior &&& 0xFF) <<< 16 ||| (number &&& 0xFFFF))

/-- The END word with this argument. -/
def endWord (arg : UInt32) : UInt32 :=
  commandWord 0x0C arg

theorem decode_endWord (arg : UInt32) :
    Command.decode (endWord arg) = .stop (Command.argument arg) := by
  unfold Command.decode endWord
  rw [opcode_commandWord, argument_commandWord]
  rfl

theorem decode_signalWord (behavior number : UInt32) : Command.decode (signalWord behavior number) =
    .signal (behavior &&& 0xFF) (number &&& 0xFFFF) := by
  have hb : (behavior &&& (0xFF : UInt32)).toNat = behavior.toNat % 2 ^ 8 := toNat_low _ rfl
  have hn : (number &&& (0xFFFF : UInt32)).toNat = number.toNat % 2 ^ 16 := toNat_low _ rfl
  have hjoin := toNat_join (a := behavior &&& 0xFF) (b := number &&& 0xFFFF) (s := 16) (k := 16) rfl
    (by decide) (by rw [hb]; omega) (by rw [hn]; omega)
  unfold Command.decode signalWord
  rw [opcode_commandWord, argument_commandWord]
  dsimp only
  rw [behavior_argument, signal_argument]
  refine congrArg₂ Command.signal ?_ ?_
  · apply UInt32.toNat_inj.1
    rw [toNat_low (k := 8) _ rfl, UInt32.toNat_shiftRight, hjoin, hb, hn, Nat.shiftRight_eq_div_pow]
    simp
    omega
  · apply UInt32.toNat_inj.1
    rw [toNat_low (k := 16) _ rfl, hjoin, hb, hn]
    omega

/-- **The two halves of a target make the target.** -/
theorem target_halves {target arg : UInt32} (h : arg &&& 0xFFFF = target &&& 0xFFFF) :
    Signal.target (target >>> 16 &&& 0xFFFF) (Command.argument arg) = target := by
  have ht := target.toNat_lt
  have hlow : (target &&& (0xFFFF : UInt32)).toNat = target.toNat % 2 ^ 16 := toNat_low _ rfl
  have hhigh : (target >>> 16 &&& (0xFFFF : UInt32)).toNat = target.toNat / 2 ^ 16 := by
    rw [toNat_low (k := 16) _ rfl, UInt32.toNat_shiftRight, Nat.shiftRight_eq_div_pow]
    simp
    omega
  have hsame : (0xFFFF : UInt32) &&& 0xFFFF = 0xFFFF := rfl
  unfold Signal.target
  apply UInt32.toNat_inj.1
  rw [signal_argument, h, UInt32.and_assoc, hsame, toNat_join (k := 16) rfl (by decide)
    (by rw [hhigh]; omega) (by rw [hlow]; omega), hhigh, hlow]
  omega

/-- The behavior of a SIGNAL word. -/
def behavior? (word : UInt32) : Option UInt32 :=
  if (word >>> 24).toUInt8 = 0x0E then some (word >>> 16 &&& 0xFF) else none

theorem behavior?_eq (word : UInt32) : behavior? word =
    match Command.decode word with
    | .signal behavior _ => some behavior
    | _ => none := by
  have hop : (word >>> 24).toUInt8 = Command.opcode word := rfl
  unfold behavior? Command.decode
  rw [hop]
  dsimp only
  rw [behavior_argument]
  generalize Command.opcode word = op
  by_cases h : op = 0x0E
  · subst h
    rfl
  · rw [if_neg h]
    split
    next behavior number hsignal => split at hsignal <;> simp_all
    next => rfl

/-! ## Transfers as list operations -/

/-- The list operation that does what a transfer asks for, if it does not end the run. -/
def Transfer.request? (i : Nat) (target : UInt32) : Transfer → Option Request
  | jump mode => some (.jump i mode target)
  | call mode => some (.call i mode target)
  | ret => some (.ret i)
  | pause => none

/-- The list operation that a signal of this behavior asks for, with the whole target. -/
def Signal.request? (i : Nat) (target : UInt32) : UInt32 → Option Request
  | 0x10 => some (.jump i .absolute target)
  | 0x11 => some (.call i .absolute target)
  | 0x12 => some (.ret i)
  | 0x13 => some (.jump i .relative target)
  | 0x14 => some (.call i .relative target)
  | 0x15 => some (.jump i .relativeOffset target)
  | 0x16 => some (.call i .relativeOffset target)
  | _ => none

/-- How a run goes on after a list operation that answers so. -/
def goingOn : Reply → Unit ⊕ Except Failure Outcome
  | .failure e => .inr (.error e)
  | _ => .inl ()

/-! ## The cursor at the instruction address -/

/-- The cursor agrees with the instruction address: one at hand is there, and one to be found is
wanted there. -/
structure Slot.Agrees (s : Slot) : Prop where
  aligned : Address.aligned s.pc = s.pc
  cursor : ∀ c, s.fetcher.cursor? = some c → c = ⟨s.pc, .word⟩
  wanted : ∀ a, s.fetcher.wanted s.pc = some a → a = s.pc

theorem Slot.Placed.agrees {s : Slot} (h : s.Placed)
    (hc : ∀ c, s.fetcher.cursor? = some c → c = ⟨s.pc, .word⟩) : s.Agrees where
  aligned := h.pc
  cursor := hc
  wanted a ha := by
    unfold Fetcher.wanted at ha
    split at ha
    next hs =>
      cases ha
      exact h.fetcher.pending _ hs
    next =>
      cases ha
      rfl
    next =>
      cases ha
      rfl
    next => cases ha
    next => cases ha

/-- `v` is `w` with the list at position `i` moved on by `n` bytes, and a cursor at hand there; the
host may have been told that the cursor is looked for. -/
def Past (i : Nat) (n : Address) (w v : FrontEnd) : Prop :=
  ∃ fetcher host journal,
    v = { w.setSlot i { w.slot i with pc := (w.slot i).pc + n, fetcher } with host, journal } ∧
      fetcher.cursor? = some ⟨(w.slot i).pc + n, .word⟩

section Fetching

variable {i : Nat} {w v u : FrontEnd} {word : UInt32}

theorem Past.slot {n : Address} (hi : i < w.slots.size) (h : Past i n w v) :
    ∃ fetcher, v.slot i = { w.slot i with pc := (w.slot i).pc + n, fetcher } ∧
      fetcher.cursor? = some ⟨(w.slot i).pc + n, .word⟩ := by
  obtain ⟨fetcher, host, journal, rfl, hc⟩ := h
  refine ⟨fetcher, ?_, hc⟩
  exact FrontEnd.slot_setSlot_self hi

theorem Past.memory {n : Address} (h : Past i n w v) : v.memory = w.memory := by
  obtain ⟨fetcher, host, journal, rfl, -⟩ := h
  rfl

theorem Past.size {n : Address} (h : Past i n w v) : v.slots.size = w.slots.size := by
  obtain ⟨fetcher, host, journal, rfl, -⟩ := h
  exact FrontEnd.size_setSlot ..

theorem Past.pc {n : Address} (hi : i < w.slots.size) (h : Past i n w v) :
    (v.slot i).pc = (w.slot i).pc + n := by
  obtain ⟨fetcher, hs, -⟩ := h.slot hi
  rw [hs]

theorem Past.atHand {n : Address} (hi : i < w.slots.size) (h : Past i n w v) :
    (v.slot i).fetcher.cursor? = some ⟨(v.slot i).pc, .word⟩ := by
  obtain ⟨fetcher, hs, hc⟩ := h.slot hi
  rw [hs]
  exact hc

theorem Past.agrees (hi : i < w.slots.size) (h : Past i 4 w v)
    (ha : Address.aligned (w.slot i).pc = (w.slot i).pc)
    (hx : w.memory.readWord (w.slot i).pc = .ok word) : (v.slot i).Agrees where
  aligned := by
    rw [h.pc hi]
    exact (Memory.aligned_next ha (Memory.isMapped_of_readWord ha hx)).1
  cursor c hc := Option.some.inj (hc.symm.trans (h.atHand hi))
  wanted a hw := by
    rw [Fetcher.wanted_of_cursor (h.atHand hi)] at hw
    cases hw

theorem Past.trans {m n k : Address} (hi : i < w.slots.size) (h : Past i m w v)
    (h' : Past i n v u) (hk : m + n = k) : Past i k w u := by
  subst hk
  obtain ⟨fetcher, hs, -⟩ := h.slot hi
  obtain ⟨_, host, journal, rfl, -⟩ := h
  obtain ⟨fetcher', host', journal', rfl, hc⟩ := h'
  rw [hs] at hc ⊢
  refine ⟨fetcher', host', journal', ?_, by rw [← UInt32.add_assoc]; exact hc⟩
  simp [FrontEnd.setSlot, UInt32.add_assoc]

theorem Slot.access_next_at {s : Slot} {m : Memory} (ha : Address.aligned s.pc = s.pc)
    (hc : s.fetcher.cursor? = some ⟨s.pc, .word⟩) (hx : m.readWord s.pc = .ok word) :
    ∃ fetcher, s.access m .next = (.ok word, { s with pc := s.pc + 4, fetcher }) ∧
      fetcher.cursor? = some ⟨s.pc + 4, .word⟩ := by
  have hm := Memory.isMapped_of_readWord ha hx
  refine ⟨s.fetcher.setCursor ⟨s.pc + 4, .word⟩, ?_, Fetcher.cursor_setCursor hc _⟩
  unfold Slot.access
  rw [hc]
  dsimp only
  rw [Slot.read_at, hx]
  dsimp only [Except.map]
  rw [(Memory.aligned_next ha hm).1]

theorem Slot.accessWith_next_at {s : Slot} {m : Memory} (ha : Address.aligned s.pc = s.pc)
    (hw : s.fetcher.wanted s.pc = some s.pc) (hx : m.readWord s.pc = .ok word) :
    ∃ fetcher, s.accessWith m s.pc ⟨s.pc, .word⟩ .next =
        (some (.ok word), { s with pc := s.pc + 4, fetcher }) ∧
      fetcher.cursor? = some ⟨s.pc + 4, .word⟩ := by
  obtain ⟨found, hinstall, hc⟩ : ∃ found, s.fetcher.install? s.pc s.pc ⟨s.pc, .word⟩ = some found ∧
      found.cursor? = some ⟨s.pc, .word⟩ := by
    refine ⟨{ s.fetcher with source := .own ⟨s.pc, .word⟩, found := s.fetcher.found + 1 }, ?_, rfl⟩
    unfold Fetcher.install?
    rw [hw]
    exact if_pos rfl
  obtain ⟨fetcher, hnext, hc'⟩ := Slot.access_next_at (s := { s with fetcher := found }) ha hc hx
  refine ⟨fetcher, ?_, hc'⟩
  unfold Slot.accessWith
  rw [hinstall]
  dsimp only
  rw [hnext]

/-- **A fetch of a list whose cursor agrees with its instruction address.** -/
theorem alone_fetch (h : (w.slot i).Agrees)
    (hx : w.memory.readWord (w.slot i).pc = .ok word) :
    ∃ m v, Alone (Operation.access i .next) w m (.ok word) v ∧ Past i 4 w v := by
  cases hw : (w.slot i).fetcher.wanted (w.slot i).pc with
  | none =>
    obtain ⟨c, hc⟩ := Fetcher.cursor_of_wanted hw
    rw [h.cursor c hc] at hc
    obtain ⟨fetcher, hnext, hc'⟩ := Slot.access_next_at h.aligned hc hx
    have htry : (w.slot i).tryAccess w.memory .next =
        (.inr (.ok word), { w.slot i with pc := (w.slot i).pc + 4, fetcher }) := by
      unfold Slot.tryAccess
      rw [hw, hnext]
    have halone : Alone (Operation.access i .next) w [.act (.access i .next) w] (.ok word)
        (w.setSlot i { w.slot i with pc := (w.slot i).pc + 4, fetcher }) := by
      refine .loop (.act ?_)
      rw [perform_access htry]
      exact .stay ..
    exact ⟨_, _, halone, fetcher, w.host, w.journal, rfl, hc'⟩
  | some a =>
    obtain rfl := h.wanted a hw
    have htry : (w.slot i).tryAccess w.memory .next = (.inl (w.slot i).pc, w.slot i) := by
      unfold Slot.tryAccess
      rw [hw]
    have hp := perform_access htry
    rw [FrontEnd.setSlot_slot] at hp
    -- Looking for a cursor changes neither the list nor memory.
    obtain ⟨host, journal, htell⟩ := w.tell_frame (.cursor (w.slot i).pc 4)
    obtain ⟨fetcher, hwith, hc⟩ := Slot.accessWith_next_at h.aligned hw hx
    obtain ⟨m, hseek⟩ : ∃ m, Alone ((Operation.seek i .next (w.slot i).pc).bind
        (Operation.again i .next)) w m (.ok word) ({ w with host, journal }.setSlot i
          { w.slot i with pc := (w.slot i).pc + 4, fetcher }) := by
      refine ⟨[.report (.cursor (w.slot i).pc 4) w, .act (.accessWith i (w.slot i).pc
        ⟨(w.slot i).pc, .word⟩ .next) { w with host, journal }], .report ?_⟩
      change Alone ((Operation.found i .next _ (Cursor.openAt _ 4)).bind _) _ _ _ _
      rw [Cursor.openAt_of_readWord h.aligned hx, htell]
      refine .act ?_
      rw [perform_accessWith (v := { w with host, journal }) hwith]
      exact .stay ..
    refine ⟨.act (.access i .next) w :: m, _, .loop (.act ?_), fetcher, host, journal, rfl, hc⟩
    rw [hp]
    exact hseek

theorem Slot.access_previous_at {s : Slot} {m : Memory}
    (hc : s.fetcher.cursor? = some ⟨s.pc, .word⟩) :
    s.access m .previous = ((m.readWord (s.pc - 8)).mapError Failure.memory, s) := by
  have hfailed : (Cursor.mk s.pc .word).advance (-2 + 2) = ⟨s.pc, .word⟩ := Cursor.advance_zero _
  have hback : (Cursor.mk (s.pc - 8 + 4) .word).advance 1 = ⟨s.pc, .word⟩ := by
    rw [Cursor.advance_one, UInt32.add_assoc]
    exact congrArg (Cursor.mk · Width.word) (UInt32.sub_add_cancel ..)
  unfold Slot.access
  rw [hc]
  dsimp only
  rw [Cursor.advance_advance, hfailed, Slot.advance_back, Slot.read_at]
  cases m.readWord (s.pc - 8) with
  | error f =>
    dsimp only [Except.map, Except.mapError]
    rw [Fetcher.setCursor_self hc]
  | ok x =>
    dsimp only [Except.map, Except.mapError]
    rw [hback, Fetcher.setCursor_self hc]

/-- **A look back** at the word before the one fetched last. -/
theorem alone_previous (hc : (w.slot i).fetcher.cursor? = some ⟨(w.slot i).pc, .word⟩) :
    Alone (Operation.access i .previous) w [.act (.access i .previous) w]
      ((w.memory.readWord ((w.slot i).pc - 8)).mapError Failure.memory) w := by
  have htry : (w.slot i).tryAccess w.memory .previous =
      (.inr ((w.memory.readWord ((w.slot i).pc - 8)).mapError Failure.memory), w.slot i) := by
    unfold Slot.tryAccess
    rw [Fetcher.wanted_of_cursor hc, Slot.access_previous_at hc]
  have hp := perform_access htry
  rw [FrontEnd.setSlot_slot] at hp
  refine .loop (.act ?_)
  rw [hp]
  exact .stay ..

end Fetching

/-! ## Doing a word -/

namespace Engine

/-- Fetches a word and does it: a round of a list that is neither paused nor stalled. -/
def word (watched : Bool) (i : Nat) : Process (Unit ⊕ Except Failure Outcome) :=
  (Operation.access i .next).bind (dispatch watched i)

variable {watched : Bool} {i : Nat} {w v u : FrontEnd} {t : List Move}
  {x : Unit ⊕ Except Failure Outcome}

/-- **A round does a word**, unless the list is paused or stalled. -/
theorem alone_round (hp : (w.slot i).flags.paused = false) (hs : (w.slot i).isStalled = false)
    (h : Alone (word watched i) w t x u) :
    Alone (round watched i) w (.act (.look i) w :: .act (.look i) w :: t) x u := by
  rw [round_eq]
  refine .act ?_
  change Alone (if (w.slot i).flags.paused then _ else unpaused watched i) w _ x u
  rw [hp]
  refine .act ?_
  change Alone (if (w.slot i).isStalled then _ else word watched i) w _ x u
  rw [hs]
  exact h

theorem alone_word {m : List Move} {f : UInt32}
    (hf : Alone (Operation.access i .next) w m (.ok f) v)
    (hd : Alone ((step watched i (Command.decode f)).bind settle) v t x u) :
    Alone (word watched i) w (m ++ t) x u :=
  alone_bind.2 ⟨_, v, m, t, rfl, hf, hd⟩

theorem gives_unit {p : Process Unit} {reply : Reply} (h : Gives p.thenUnit v reply u) :
    Gives ((p.bind fun _ => pure (.ok none)).bind settle) v (goingOn reply) u := by
  obtain ⟨t, h⟩ := h
  obtain ⟨⟨⟩, z, m, m', -, hp, hdone⟩ := alone_bind.1 h
  obtain ⟨-, rfl, rfl⟩ := alone_done.1 hdone
  have hstep : Gives (p.bind fun _ => pure (.ok none : Except Failure (Option Outcome))) v
      (.ok none) u := Gives.bind ⟨m, hp⟩ (gives_done _ _)
  exact hstep.bind (gives_done _ _)

/-- **A transfer is a list operation.** -/
theorem gives_transfer {tr : Transfer} {target : UInt32} {r : Request}
    (hr : tr.request? i target = some r) (v : FrontEnd) : ∃ reply u,
      Gives r.serve v reply u ∧ Gives ((transfer i tr target).bind settle) v (goingOn reply) u := by
  have hsteers : r.Steers i := by
    cases tr with
    | pause => cases hr
    | _ =>
      cases hr
      rfl
  obtain ⟨t, reply, u, hserve⟩ := returns_of_steers hsteers v
  refine ⟨reply, u, ⟨t, hserve⟩, ?_⟩
  cases tr with
  | pause => cases hr
  | jump mode =>
    cases hr
    exact gives_unit ⟨t, hserve⟩
  | ret =>
    cases hr
    exact gives_unit ⟨t, hserve⟩
  | call mode =>
    cases hr
    obtain ⟨y, z, m, m', -, hcall, hdone⟩ := alone_bind.1 hserve
    obtain ⟨-, rfl, rfl⟩ := alone_done.1 hdone
    have hstep : Gives (transfer i (.call mode) target) v (y.map fun _ => none) u :=
      Gives.bind ⟨m, hcall⟩ (gives_done _ _)
    refine hstep.bind ?_
    cases y with
    | error e => exact gives_done _ _
    | ok y => exact gives_done _ _

/-- The front end once the list at position `i` has ended. -/
def concluded (i : Nat) (w : FrontEnd) : FrontEnd :=
  w.setSlot i { w.slot i with
    status := .done
    flags := { (w.slot i).flags with ended := (w.slot i).flags.finished } }

theorem gives_conclude (hi : i < v.slots.size) :
    Gives (conclude i) v (.ended (v.slot i).flags.finished) (concluded i v) := by
  have hslot : ∀ s, (v.setSlot i s).slot i = s := fun _ => FrontEnd.slot_setSlot_self hi
  have hdone : (Action.change i (.setStatus .done)).perform (v.setSlot i { v.slot i with
      flags := { (v.slot i).flags with ended := (v.slot i).flags.finished } }) =
      ((), concluded i v) := by
    change ((), FrontEnd.setSlot _ i { FrontEnd.slot _ i with status := .done }) = _
    rw [hslot, FrontEnd.setSlot_setSlot]
    rfl
  refine .act (.act (.act ?_))
  change Gives (look i >>= fun s => pure (Outcome.ended s.flags.ended))
    ((Action.change i (.setStatus .done)).perform (v.setSlot i { v.slot i with
      flags := { (v.slot i).flags with ended := (v.slot i).flags.finished } })).2 _ _
  rw [hdone]
  have hflag : ((concluded i v).slot i).flags.ended = (v.slot i).flags.finished := by
    unfold concluded
    rw [hslot]
  rw [← hflag]
  exact .act (gives_done _ _)

theorem status_of_gives {tr : Transfer} {target : UInt32} {r : Request} {reply : Reply}
    (hr : tr.request? i target = some r) (h : Gives r.serve v reply u) :
    (u.slot i).status = (v.slot i).status := by
  have honly : Only (Action.Quiet i) r.serve := by
    cases tr with
    | pause => cases hr
    | jump mode =>
      cases hr
      exact only_bind (only_jump ..) fun _ => only_pure _
    | call mode =>
      cases hr
      exact only_bind (only_call ..) fun _ => only_pure _
    | ret =>
      cases hr
      exact only_bind only_ret fun _ => only_pure _
  obtain ⟨t, h⟩ := h
  refine alone_only (P := fun z => (z.slot i).status = (v.slot i).status)
    (fun a z ha hz => ?_) (fun r z hz => ?_) honly rfl h
  · exact Action.slot_perform_of (P := fun s => s.status = (v.slot i).status) hz
      ((ha.status_onto i z.memory _).trans hz)
  · rw [FrontEnd.slot_tell]
    exact hz

/-! ## The words before an END word -/

/-- The behaviors of the SIGNAL words after which an END word does not end the list. -/
def asking : List UInt32 :=
  [0x03, 0x10, 0x11, 0x12, 0x13, 0x14, 0x15, 0x16]

theorem transfer?_eq_none {b : UInt32} (h : b ∉ asking) : Signal.transfer? b = none := by
  unfold Signal.transfer?
  split
  case h_9 => rfl
  all_goals exact absurd (by decide) h

theorem transfer?_of_request? {b target : UInt32} {r : Request}
    (h : Signal.request? i target b = some r) : b &&& 0xFF = b ∧ Signal.calls b = false ∧
      ∃ tr, Signal.transfer? b = some tr ∧ tr.request? i target = some r := by
  unfold Signal.request? at h
  split at h
  case h_8 => cases h
  all_goals exact ⟨rfl, rfl, _, rfl, h⟩

theorem decode_of_behavior? {b y : UInt32} (h : behavior? y = some b) :
    ∃ n, Command.decode y = .signal b n := by
  rw [behavior?_eq] at h
  split at h
  next b' n hd =>
    cases h
    exact ⟨n, hd⟩
  next => cases h

theorem stopWith_transfer {b target arg : UInt32} {tr : Transfer} (hb : b &&& 0xFF = b)
    (htr : Signal.transfer? b = some tr) (ht : arg &&& 0xFFFF = target &&& 0xFFFF) :
    stopWith i (Command.argument arg) (.ok (signalWord b (target >>> 16))) =
      transfer i tr target := by
  unfold stopWith
  dsimp only
  rw [decode_signalWord, hb]
  dsimp only
  rw [htr, target_halves ht]

theorem stopWith_pause {arg y : UInt32} (h : behavior? y = some 0x03) :
    stopWith i arg (.ok y) = transfer i .pause arg := by
  obtain ⟨n, hd⟩ := decode_of_behavior? h
  unfold stopWith
  dsimp only
  rw [hd]
  rfl

theorem stopWith_conclude {arg : UInt32} {r : Except Memory.Fault UInt32}
    (h : ∀ y b, r = .ok y → behavior? y = some b → b ∉ asking) :
    stopWith i arg (r.mapError .memory) = (conclude i).bind ended := by
  cases r with
  | error f => rfl
  | ok y =>
    have hy : ∀ b, behavior? y = some b → b ∉ asking := fun b => h y b rfl
    rw [behavior?_eq] at hy
    unfold stopWith
    dsimp only [Except.mapError]
    split
    next b n hd =>
      rw [transfer?_eq_none (hy b (by rw [hd]))]
    next => rfl

/-! ## Words done alone -/

theorem alone_signal (watched : Bool) {b n : UInt32} (h : (w.slot i).Agrees)
    (hb : Signal.calls (b &&& 0xFF) = false)
    (hx : w.memory.readWord (w.slot i).pc = .ok (signalWord b n)) :
    ∃ m v, Alone (word watched i) w m (.inl ()) v ∧ Past i 4 w v ∧ told m = [] := by
  obtain ⟨m, v, hfetch, hv⟩ := alone_fetch h hx
  have hstep : Alone ((step watched i (Command.decode (signalWord b n))).bind settle) v []
      (.inl ()) v := by
    rw [decode_signalWord]
    change Alone (Process.bind (if Signal.calls (b &&& 0xFF) then _ else pure _) _) _ _ _ _
    rw [hb]
    exact .stay ..
  refine ⟨_, v, alone_word hfetch hstep, hv, ?_⟩
  rw [List.append_nil]
  exact goes_hushed (hushed_access _) hfetch

theorem alone_end (watched : Bool) {arg : UInt32} (hi : i < w.slots.size) (h : (w.slot i).Agrees)
    (hx : w.memory.readWord (w.slot i).pc = .ok (endWord arg)) :
    ∃ v, Past i 4 w v ∧ ∀ x u, Gives ((stopWith i (Command.argument arg)
      ((w.memory.readWord ((w.slot i).pc - 4)).mapError .memory)).bind settle) v x u →
        ∃ m, Alone (word watched i) w m x u ∧ told m = [] := by
  obtain ⟨m, v, hfetch, hv⟩ := alone_fetch h hx
  refine ⟨v, hv, fun x u hrest => ?_⟩
  obtain ⟨t, hrest⟩ := hrest
  obtain ⟨r, z, t₁, t₂, -, hstop, hsettle⟩ := alone_bind.1 hrest
  have hback : (v.slot i).pc - 8 = (w.slot i).pc - 4 := by
    rw [hv.pc hi]
    grind
  have hstep : Gives (stop i (Command.argument arg)) v r z := by
    rw [stop_eq]
    refine Gives.bind ⟨_, alone_previous (hv.atHand hi)⟩ ?_
    rw [hv.memory, hback]
    exact ⟨t₁, hstop⟩
  obtain ⟨m', hstep⟩ := hstep
  have hdo : Alone ((step watched i (Command.decode (endWord arg))).bind settle) v (m' ++ t₂) x
      u := by
    rw [decode_endWord]
    exact alone_bind.2 ⟨r, z, m', t₂, rfl, hstep, hsettle⟩
  refine ⟨_, alone_word hfetch hdo, ?_⟩
  rw [told_append, told_append, goes_hushed (hushed_access _) hfetch,
    goes_hushed (hushed_stop _) hstep, goes_hushed (hushed_settle r) hsettle]
  rfl

/-- **An END word after a SIGNAL word that asks for a list operation.** -/
theorem alone_end_request (watched : Bool) {b target arg : UInt32} {r : Request}
    (hr : Signal.request? i target b = some r) (ht : arg &&& 0xFFFF = target &&& 0xFFFF)
    (hi : i < w.slots.size) (h : (w.slot i).Agrees)
    (hsignal : w.memory.readWord ((w.slot i).pc - 4) = .ok (signalWord b (target >>> 16)))
    (hend : w.memory.readWord (w.slot i).pc = .ok (endWord arg)) :
    ∃ past reply u m, Past i 4 w past ∧ Gives r.serve past reply u ∧
      Alone (word watched i) w m (goingOn reply) u ∧ told m = [] ∧
      (u.slot i).status = (past.slot i).status := by
  obtain ⟨hb, -, tr, htr, hr⟩ := transfer?_of_request? hr
  obtain ⟨past, hpast, hstop⟩ := alone_end watched hi h hend
  obtain ⟨reply, u, hserve, hgo⟩ := gives_transfer hr past
  rw [← stopWith_transfer hb htr ht] at hgo
  rw [hsignal] at hstop
  obtain ⟨m, hm, htold⟩ := hstop _ _ hgo
  exact ⟨past, reply, u, m, hpast, hserve, hm, htold, status_of_gives hr hserve⟩

end Engine

open Engine

variable {i : Nat} {w₀ w : FrontEnd}

/-- **Transfers by a SIGNAL word and an END word.** Where the cursor of a list agrees with its
instruction address, a SIGNAL word that asks for a transfer and the END word after it do what the
list operation with the whole target does past both of them, and tell the host nothing; the list
goes on, or fails as the operation does. An END word after a SIGNAL word that asks for a pause
pauses the list, and ends it after any other word, or after none. -/
theorem signal_end_transfers (watched : Bool) (hfresh : w₀.Fresh)
    (hreach : Relation.ReflTransGen Anybody w₀ w) (hi : i < w.slots.size)
    (hcursor : ∀ c, (w.slot i).fetcher.cursor? = some c → c = ⟨(w.slot i).pc, .word⟩) :
    (∀ behavior target arg r, Signal.request? i target behavior = some r →
      arg &&& 0xFFFF = target &&& 0xFFFF →
      w.memory.readWord (w.slot i).pc = .ok (signalWord behavior (target >>> 16)) →
      w.memory.readWord ((w.slot i).pc + 4) = .ok (endWord arg) →
      ∃ v past reply u m m', Alone (word watched i) w m (.inl ()) v ∧ told m = [] ∧
        Past i 8 w past ∧ Gives r.serve past reply u ∧
        Alone (word watched i) v m' (goingOn reply) u ∧ told m' = [] ∧
        (u.slot i).status = (w.slot i).status) ∧
    (∀ arg, w.memory.readWord (w.slot i).pc = .ok (endWord arg) → ∃ past, Past i 4 w past ∧
      (∀ x, w.memory.readWord ((w.slot i).pc - 4) = .ok x → behavior? x = some 0x03 →
        Gives (word watched i) w (.inr (.ok .paused)) (past.setSlot i { past.slot i with
          flags := { (past.slot i).flags with paused := true } })) ∧
      ((∀ x b, w.memory.readWord ((w.slot i).pc - 4) = .ok x → behavior? x = some b →
          b ∉ asking) →
        Gives (word watched i) w (.inr (.ok (.ended (w.slot i).flags.finished)))
          (concluded i past))) ∧
    ∀ v m x u, (v.slot i).flags.paused = false → (v.slot i).isStalled = false →
      Alone (word watched i) v m x u →
      Alone (round watched i) v (.act (.look i) v :: .act (.look i) v :: m) x u := by
  have hagrees : (w.slot i).Agrees := (placed_reachable hfresh hreach i).agrees hcursor
  refine ⟨fun b target arg r hr ht hsignal hend => ?_, fun arg hend => ?_, fun v m x u hp hs h =>
    alone_round hp hs h⟩
  · obtain ⟨hb, hcalls, -⟩ := transfer?_of_request? hr
    obtain ⟨m, v, hword, hv, htold⟩ := alone_signal watched hagrees (by rwa [hb]) hsignal
    have hback : v.memory.readWord ((v.slot i).pc - 4) = .ok (signalWord b (target >>> 16)) := by
      rw [hv.memory, hv.pc hi, UInt32.add_sub_cancel, hsignal]
    have hnext : v.memory.readWord (v.slot i).pc = .ok (endWord arg) := by
      rw [hv.memory, hv.pc hi, hend]
    obtain ⟨past, reply, u, m', hpast, hserve, hword', htold', hstatus⟩ :=
      alone_end_request watched hr ht (hv.size ▸ hi) (hv.agrees hi hagrees.aligned hsignal) hback
        hnext
    have hpast' : Past i 8 w past := hv.trans hi hpast rfl
    obtain ⟨fetcher, hslot, -⟩ := hpast'.slot hi
    rw [hslot] at hstatus
    exact ⟨v, past, reply, u, m, m', hword, htold, hpast', hserve, hword', htold', hstatus⟩
  · obtain ⟨past, hpast, hstop⟩ := alone_end watched hi hagrees hend
    obtain ⟨fetcher, hslot, -⟩ := hpast.slot hi
    have hi' : i < past.slots.size := hpast.size ▸ hi
    refine ⟨past, hpast, fun x hx hpause => ?_, fun hnone => ?_⟩
    · have hgo : Gives ((transfer i .pause (Command.argument arg)).bind settle) past
          (.inr (.ok .paused)) (past.setSlot i { past.slot i with
            flags := { (past.slot i).flags with paused := true } }) := .act (gives_done _ _)
      rw [← stopWith_pause hpause] at hgo
      rw [hx] at hstop
      obtain ⟨m, hm, -⟩ := hstop _ _ hgo
      exact ⟨m, hm⟩
    · have hended : Gives ((conclude i).bind ended) past
          (.ok (some (.ended (past.slot i).flags.finished))) (concluded i past) :=
        (gives_conclude hi').bind (gives_done _ _)
      rw [hslot, ← stopWith_conclude hnone] at hended
      obtain ⟨m, hm, -⟩ := hstop _ _ (hended.bind (gives_done _ _))
      exact ⟨m, hm⟩

/-- A list of a SIGNAL word and an END word that call a routine. -/
def callingPair : List Action :=
  [.write 0x08800000 [signalWord 0x11 ((0x08900040 : UInt32) >>> 16), endWord 0xAB0040],
    .change 0 (.init ⟨0x08800000, 0, 9, none⟩)]

/-- The list before it runs. -/
def atPair : FrontEnd :=
  callingPair.foldl (fun w a => (a.perform w).2) (Replay.frontEnd {})

theorem signal_end_transfers_atPair : (Replay.frontEnd {}).Fresh ∧
    Relation.ReflTransGen Anybody (Replay.frontEnd {}) atPair ∧ 0 < atPair.slots.size ∧
    (∀ c, (atPair.slot 0).fetcher.cursor? = some c → c = ⟨(atPair.slot 0).pc, .word⟩) ∧
    ∃ v past reply u m m', Alone (word true 0) atPair m (.inl ()) v ∧ told m = [] ∧
      Past 0 8 atPair past ∧ Gives (Request.call 0 .absolute 0x08900040).serve past reply u ∧
      Alone (word true 0) v m' (goingOn reply) u ∧ told m' = [] ∧
      (u.slot 0).status = (atPair.slot 0).status := by
  have hfresh : (Replay.frontEnd {}).Fresh := FrontEnd.fresh_of_slots rfl
  have hreach : Relation.ReflTransGen Anybody (Replay.frontEnd {}) atPair := reach_foldl _ _
  have hi : 0 < atPair.slots.size := by decide +kernel
  have hcursor : ∀ c, (atPair.slot 0).fetcher.cursor? = some c →
      c = ⟨(atPair.slot 0).pc, .word⟩ := by
    intro c hc
    have hnone : (atPair.slot 0).fetcher.cursor? = none := by decide +kernel
    rw [hnone] at hc
    cases hc
  have hread : ∀ a y, (atPair.memory.readWord a).toOption = some y →
      atPair.memory.readWord a = .ok y := by
    intro a y h
    cases hr : atPair.memory.readWord a with
    | error f => simp [hr, Except.toOption] at h
    | ok x => simpa [hr, Except.toOption] using h
  have hsignal := hread (atPair.slot 0).pc (signalWord 0x11 ((0x08900040 : UInt32) >>> 16))
    (by decide +kernel)
  have hend := hread ((atPair.slot 0).pc + 4) (endWord 0xAB0040) (by decide +kernel)
  exact ⟨hfresh, hreach, hi, hcursor, (signal_end_transfers true hfresh hreach hi hcursor).1 0x11
    0x08900040 0xAB0040 _ rfl (by decide) hsignal hend⟩

end DisplayList

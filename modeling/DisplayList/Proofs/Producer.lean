import DisplayList.Proofs.Fed
import DisplayList.Replay

/-!
# The producer

The producer writes a part of the list behind what it has handed over and then moves the stall
address to its end; with the new stall address it may hand over a cursor for the part. Whoever runs
the list writes to no memory and moves no stall address, and so the producer keeps the list one that
is handed over in parts, and changes nothing that is shown.

* `Replay.supply`: the producer, with cursors or without; `feed_eq`: without them it is
  `Replay.feed`;
* `Runs`, `Feeds`: what the producer relies on, and what it guarantees;
* **`keeps_supply`**: it does guarantee that, and succeeds.
-/

namespace DisplayList

namespace Replay

open Process

/-- A part of a list: its words, and the cursor that is handed over with them, if any. -/
structure Part where
  words : List UInt32
  cursor : Option Cursor

/-- Moves the stall address from `a` to `stop`, perhaps with a cursor for what lies between. -/
def handOver (i : Nat) (a stop : Address) : Option Cursor → Process Unit
  | none => Operation.setStall i stop
  | some c => Operation.setStallWith i stop ⟨c, a, stop⟩

/-- The producer: writes one part after the other from `a` on and hands each of them over. -/
def supply (i : Nat) (a : Address) : List Part → Process (Except Error Unit)
  | [] => do
    perform .close
    return .ok ()
  | part :: rest => do
    match ← load a part.words with
    | .error e => return .error e
    | .ok stop =>
      handOver i a stop part.cursor
      supply i stop rest

theorem feed_eq (i : Nat) (a : Address) (chunks : List (List UInt32)) :
    feed i a chunks = supply i a (chunks.map fun words => ⟨words, none⟩) := by
  induction chunks generalizing a with
  | nil => rfl
  | cons chunk rest ih =>
    unfold feed
    rw [List.map_cons]
    unfold supply
    congr 1
    funext x
    cases x with
    | error e => rfl
    | ok stop =>
      dsimp only
      rw [ih]
      rfl

/-- The part has words, and its cursor is one over whole words. -/
structure Part.Sound (part : Part) : Prop where
  words : part.words ≠ []
  cursor : ∀ c, part.cursor = some c → c.Tidy

end Replay

/-! ## Rely and guarantee -/

/-- What whoever runs the list leaves alone. -/
structure Runs (i : Nat) (v u : FrontEnd) : Prop where
  memory : u.memory = v.memory
  stall : (u.slot i).stall = (v.slot i).stall
  size : u.slots.size = v.slots.size
  closed : u.closed = v.closed

theorem Runs.trans {i : Nat} {w v u : FrontEnd} (h : Runs i w v) (h' : Runs i v u) : Runs i w u where
  memory := h'.memory.trans h.memory
  stall := h'.stall.trans h.stall
  size := h'.size.trans h.size
  closed := h'.closed.trans h.closed

/-- What the producer does to a list. -/
structure Feeds (i : Nat) (start stop : Address) (goal : Memory) (v u : FrontEnd) : Prop where
  fed : u.Fed i start stop goal
  shown : u.shown = v.shown
  status : (u.slot i).status = (v.slot i).status
  stall : (v.slot i).stall.toNat ≤ (u.slot i).stall.toNat
  /-- The next access finds a cursor as before. -/
  atHand : (v.slot i).pc.toNat ≤ (v.slot i).stall.toNat →
    (v.slot i).fetcher.AtHand (v.slot i).pc → (u.slot i).fetcher.AtHand (u.slot i).pc

variable {i : Nat} {start stop : Address} {goal : Memory} {v u w : FrontEnd}

theorem feeds_refl (h : w.Fed i start stop goal) : Feeds i start stop goal w w :=
  ⟨h, rfl, rfl, Nat.le_refl _, fun _ h => h⟩

/-! ### Moving the stall address -/

namespace Slot

variable {s : Slot} {a b : Address}

theorem moveStall_eq (s : Slot) (a : Address) :
    (s.moveStall a).2 = { s with stall := Address.aligned a } := by
  unfold moveStall
  dsimp only
  split
  next h =>
    rw [← h]
  next => rfl

theorem moveStallWith_eq (s : Slot) (a : Address) (w : Window) : (s.moveStallWith a w).2 =
    { s with
      stall := Address.aligned a
      fetcher := (s.fetcher.setWindow w).follow s.pc s.pc } := by
  unfold moveStallWith
  dsimp only
  rw [moveStall_eq]

/-- A list that has not run past `a` finds a cursor as before when a window from there on is handed
over: one that it had stays, or there is memory where it is. -/
theorem atHand_window {c : Cursor} (h : s.Fed start stop) (hspan : Spans start stop)
    (ha : a.toNat < stop.toNat) (hpc : s.pc.toNat ≤ a.toNat) (hat : s.fetcher.AtHand s.pc) :
    ((s.fetcher.setWindow ⟨c, a, b⟩).follow s.pc s.pc).AtHand s.pc := by
  rcases hat with hw | hm
  · have hleave : ∀ f : Fetcher, (∃ c, f.source = .own c) →
        (f.leaveWindow s.pc s.pc).wanted s.pc = none := by
      rintro f ⟨c, hc⟩
      have hcross : (decide (s.pc < Region.ram.first) && decide (Region.ram.first ≤ s.pc)) =
          false := by
        rw [Bool.and_eq_false_iff, decide_eq_false_iff_not, decide_eq_false_iff_not,
          UInt32.lt_iff_toNat_lt, UInt32.le_iff_toNat_le]
        omega
      have hle : decide (s.pc ≤ s.pc) = true := decide_eq_true (UInt32.le_refl _)
      unfold Fetcher.leaveWindow
      dsimp only
      rw [hcross, hle, hc]
      rfl
    cases hs : s.fetcher.source with
    | unset =>
      unfold Fetcher.wanted at hw
      rw [hs] at hw
      cases hw
    | pending b =>
      unfold Fetcher.wanted at hw
      rw [hs] at hw
      cases hw
    | window =>
      -- The window in use begins at `start` or later, and so is the list.
      have hlo := h.within.source hs
      exact .inr (hspan.isMapped h.follows.aligned hlo (by omega))
    | own c' =>
      left
      unfold Fetcher.follow
      dsimp only [Fetcher.setWindow]
      split
      · rfl
      · refine hleave _ ⟨c', ?_⟩
        dsimp only
        rw [hs]
        rfl
  · exact .inr hm

end Slot

theorem feeds_change {c : Change} (h : w.Fed i start stop goal)
    (hshown : (c.perform (w.slot i)).2.shown = (w.slot i).shown)
    (hstatus : (c.perform (w.slot i)).2.status = (w.slot i).status)
    (hfed : (c.perform (w.slot i)).2.Fed start stop)
    (hstall : (w.slot i).stall.toNat ≤ (c.perform (w.slot i)).2.stall.toNat)
    (hmem : w.memory.AgreesOutside (c.perform (w.slot i)).2.stall.toNat stop.toNat goal)
    (hclosed : w.closed = true → (c.perform (w.slot i)).2.stall = stop)
    (hat : (w.slot i).pc.toNat ≤ (w.slot i).stall.toNat →
      (w.slot i).fetcher.AtHand (w.slot i).pc →
      (c.perform (w.slot i)).2.fetcher.AtHand (c.perform (w.slot i)).2.pc) :
    Feeds i start stop goal w ((Action.change i c).perform w).2 := by
  have hslot : (((Action.change i c).perform w).2.slot i) = (c.perform (w.slot i)).2 := by
    rw [Action.slot_perform, if_pos h.size, Action.onto_change, if_pos rfl]
  have hsh : ((Action.change i c).perform w).2.shown = w.shown :=
    FrontEnd.shown_setSlot_of hshown
  have hsize : ((Action.change i c).perform w).2.slots.size = w.slots.size :=
    Action.size_perform ..
  refine ⟨⟨?_, h.builtin, h.quiet, ?_, ?_, ?_⟩, hsh, ?_, ?_, ?_⟩
  · rw [hsize]
    exact h.size
  · rw [hslot]
    exact hfed
  · rw [hslot]
    exact hmem
  · rw [hslot]
    exact hclosed
  · rw [hslot]
    exact hstatus
  · rw [hslot]
    exact hstall
  · rw [hslot]
    exact hat

/-! ### The moves of the producer -/

/-- What the producer guarantees. -/
def Feeder (i : Nat) (start stop : Address) (goal : Memory) (v u : FrontEnd) : Prop :=
  v.Fed i start stop goal → Feeds i start stop goal v u

/-- The move is one of the producer's. -/
def Move.IsFeeder (i : Nat) (start stop : Address) (goal : Memory) (m : Move) : Prop :=
  Feeder i start stop goal m.before m.after

namespace Replay

open Process

variable {a b : Address} {t : List Move}

/-- The producer has handed over all words before `a`, and is not done. -/
structure HandedOver (i : Nat) (start stop : Address) (goal : Memory) (a : Address)
    (t : List Move) (w : FrontEnd) : Prop where
  moves : All (Move.IsFeeder i start stop goal) t
  stall : (w.slot i).stall = a
  size : i < w.slots.size
  closed : w.closed = false

theorem stable_handedOver : Stable (Runs i) (HandedOver i start stop goal a) := by
  intro t w v ho hw
  refine ⟨hw.moves, ho.stall.trans hw.stall, ?_, ho.closed.trans hw.closed⟩
  rw [ho.size]
  exact hw.size

/-- Behind them it has written the bytes `bs`. -/
def WrittenBehind (i : Nat) (start stop : Address) (goal : Memory) (a : Address)
    (bs : List UInt8) : Assertion :=
  fun t w => HandedOver i start stop goal a t w ∧ w.memory.Holds a.toNat bs

theorem stable_writtenBehind {bs : List UInt8} :
    Stable (Runs i) (WrittenBehind i start stop goal a bs) := by
  intro t w v ho hw
  refine ⟨stable_handedOver t w v ho hw.1, ?_⟩
  rw [ho.memory]
  exact hw.2

theorem HandedOver.snoc {m : Move} (h : HandedOver i start stop goal a t w)
    (hm : m.IsFeeder i start stop goal) :
    All (Move.IsFeeder i start stop goal) (t ++ [m]) :=
  all_append.2 ⟨h.moves, all_cons.2 ⟨hm, all_nil⟩⟩

theorem HandedOver.change {c : Change} (h : HandedOver i start stop goal a t w)
    (hm : Move.IsFeeder i start stop goal (.act (.change i c) w))
    (hs : (c.perform (w.slot i)).2.stall = b) :
    HandedOver i start stop goal b (t ++ [.act (.change i c) w])
      ((Action.change i c).perform w).2 := by
  have hslot : ((Action.change i c).perform w).2.slot i = (c.perform (w.slot i)).2 := by
    rw [Action.slot_perform, if_pos h.size, Action.onto_change, if_pos rfl]
  refine ⟨h.snoc hm, ?_, ?_, h.closed⟩
  · rw [hslot]
    exact hs
  · rw [Action.size_perform]
    exact h.size

theorem keeps_handedOver : Keeps (Runs i) (HandedOver i start stop goal a) (.done ())
    (All (Move.IsFeeder i start stop goal)) fun _ => HandedOver i start stop goal a :=
  keeps_stay stable_handedOver (fun _ _ h => h.moves) fun _ _ h => h

theorem keeps_stallMoved : Keeps (Runs i) (HandedOver i start stop goal a) (Operation.stallMoved i)
    (All (Move.IsFeeder i start stop goal)) fun _ => HandedOver i start stop goal a := by
  refine keeps_perform stable_handedOver (fun _ _ h => h.moves) fun t w hw => ?_
  have hm : Move.IsFeeder i start stop goal (.act (.notify i .stallMoved) w) := by
    intro hf
    change w.Fed i start stop goal at hf
    change Feeds i start stop goal w (w.notify i .stallMoved)
    rw [FrontEnd.notify_builtin hf.builtin]
    exact feeds_refl hf
  obtain ⟨queue, events, journal, hn⟩ := w.notify_frame i .stallMoved
  have hnow : HandedOver i start stop goal a (t ++ [.act (.notify i .stallMoved) w])
      (w.notify i .stallMoved) := by
    refine ⟨hw.snoc hm, ?_, ?_, ?_⟩
    · rw [FrontEnd.slot_congr w i (FrontEnd.slots_notify w i _)]
      exact hw.stall
    · rw [FrontEnd.slots_notify]
      exact hw.size
    · rw [hn]
      exact hw.closed
  refine Keeps.now ?_ hnow
  refine keeps_act stable_handedOver (fun _ _ h => h.moves) fun t w hw => ?_
  have hm : Move.IsFeeder i start stop goal (.act (.change i .postWake) w) := fun hf =>
    feeds_change hf rfl rfl (hf.slot.congr rfl rfl rfl rfl rfl) (Nat.le_refl _) hf.memory
      hf.closed fun _ h => h
  exact keeps_handedOver.now (hw.change hm hw.stall)

/-! ### Handing over a part -/

variable (hspan : Spans start stop)

theorem agrees_behind {bs : List UInt8} {m : Memory}
    (h : m.AgreesOutside a.toNat stop.toNat goal) (hm : m.Holds a.toNat bs)
    (hg : goal.Holds a.toNat bs) (hb : b.toNat = a.toNat + bs.length) :
    m.AgreesOutside b.toNat stop.toNat goal := by
  intro n hn
  by_cases hna : n < a.toNat ∨ stop.toNat ≤ n
  · exact h n hna
  · exact hm.eq hg (by omega) (by omega)

theorem isFeeder_moved {bs : List UInt8} {c : Change} {f : Fetcher}
    (hw : WrittenBehind i start stop goal a bs t w) (hg : goal.Holds a.toNat bs)
    (hb : Address.aligned b = b) (hab : b.toNat = a.toNat + bs.length)
    (hstop : b.toNat ≤ stop.toNat)
    (hc : (c.perform (w.slot i)).2 = { w.slot i with stall := b, fetcher := f })
    (hf : (w.slot i).Fed start stop → f.At (w.slot i).pc ∧ f.Within start (w.slot i).pc ∧
      ((w.slot i).pc.toNat ≤ a.toNat → (w.slot i).fetcher.AtHand (w.slot i).pc →
        f.AtHand (w.slot i).pc)) :
    Move.IsFeeder i start stop goal (.act (.change i c) w) := by
  intro hfed
  change w.Fed i start stop goal at hfed
  change Feeds i start stop goal w ((Action.change i c).perform w).2
  have hmem := hfed.memory
  have hlow := hfed.slot.low
  have hstall := hw.1.stall
  obtain ⟨hat, hwithin, hhand⟩ := hf hfed.slot
  rw [hstall] at hmem hlow
  have hlow' : start.toNat < b.toNat := by omega
  have hslot : (c.perform (w.slot i)).2.Fed start stop := by
    rw [hc]
    exact ⟨⟨hfed.slot.follows.aligned, hat⟩, hwithin, hb, hlow', hstop, hfed.slot.kept,
      hfed.slot.running⟩
  have hshown : (c.perform (w.slot i)).2.shown = (w.slot i).shown := by
    rw [hc]
    rfl
  have hstatus : (c.perform (w.slot i)).2.status = (w.slot i).status := by
    rw [hc]
  refine feeds_change hfed hshown hstatus hslot ?_ ?_ (fun hcl => ?_) ?_
  · rw [hc, hstall]
    change a.toNat ≤ b.toNat
    omega
  · rw [hc]
    exact agrees_behind hmem hw.2 hg hab
  · rw [hw.1.closed] at hcl
    cases hcl
  · rw [hc, hstall]
    exact hhand

include hspan in
/-- **A part is handed over**, with a cursor or without. -/
theorem keeps_handOver {bs : List UInt8} {c : Option Cursor} (hg : goal.Holds a.toNat bs)
    (hb : Address.aligned b = b) (hab : b.toNat = a.toNat + bs.length)
    (hpos : 0 < bs.length) (hstop : b.toNat ≤ stop.toNat) (hc : ∀ c', c = some c' → c'.Tidy) :
    Keeps (Runs i) (WrittenBehind i start stop goal a bs) (handOver i a b c)
      (All (Move.IsFeeder i start stop goal)) fun _ => HandedOver i start stop goal b := by
  have hmoved : ∀ (t : List Move) (r : Bool) (w : FrontEnd), HandedOver i start stop goal b t w →
      Keeps (Runs i) (Now t w) (if r then Operation.stallMoved i else pure ())
        (All (Move.IsFeeder i start stop goal)) fun _ => HandedOver i start stop goal b := by
    intro t r w h
    split
    · exact keeps_stallMoved.now h
    · exact keeps_handedOver.now h
  cases c with
  | none =>
    refine keeps_perform stable_writtenBehind (fun _ _ h => h.1.moves) fun t w hw => ?_
    have hslot : ((Change.moveStall b).perform (w.slot i)).2 =
        { w.slot i with stall := b, fetcher := (w.slot i).fetcher } := by
      change ((w.slot i).moveStall b).2 = _
      rw [Slot.moveStall_eq, hb]
    have hm := isFeeder_moved hw hg hb hab hstop hslot fun hf =>
      ⟨hf.follows.fetcher, hf.within, fun _ h => h⟩
    refine hmoved _ _ _ (hw.1.change hm ?_)
    rw [hslot]
  | some c =>
    refine keeps_perform stable_writtenBehind (fun _ _ h => h.1.moves) fun t w hw => ?_
    have hslot : ((Change.moveStallWith b ⟨c, a, b⟩).perform (w.slot i)).2 = { w.slot i with
        stall := b
        fetcher :=
          ((w.slot i).fetcher.setWindow ⟨c, a, b⟩).follow (w.slot i).pc (w.slot i).pc } := by
      change ((w.slot i).moveStallWith b ⟨c, a, b⟩).2 = _
      rw [Slot.moveStallWith_eq, hb]
    have hm := isFeeder_moved hw hg hb hab hstop hslot fun hf => by
      have hlow := hf.low
      rw [hw.1.stall] at hlow
      have hset : ((w.slot i).fetcher.setWindow ⟨c, a, b⟩).At (w.slot i).pc :=
        hf.follows.fetcher.setWindow (hc c rfl)
      have hwithin : ((w.slot i).fetcher.setWindow ⟨c, a, b⟩).Within start (w.slot i).pc :=
        Fetcher.within_setWindow (Nat.le_of_lt hlow)
      exact ⟨hset.follow hf.follows.mod hf.follows.mod, hwithin.follow,
        Slot.atHand_window hf hspan (by omega)⟩
    refine hmoved _ _ _ (hw.1.change hm ?_)
    rw [hslot]

/-! ### The whole list -/

/-- The bytes of the words in some parts. -/
def bytesOf (parts : List Part) : List UInt8 :=
  (parts.flatMap Part.words).flatMap Word.bytes

theorem bytesOf_cons (part : Part) (rest : List Part) :
    bytesOf (part :: rest) = part.words.flatMap Word.bytes ++ bytesOf rest := by
  unfold bytesOf
  rw [List.flatMap_cons, List.flatMap_append]

theorem isFeeder_write {words : List UInt32} (hw : HandedOver i start stop goal a t w)
    (hwrite : w.memory.writeWords a words =
      .ok (w.memory.pokeAll a.toNat (words.flatMap Word.bytes)))
    (hstop : a.toNat + 4 * words.length ≤ stop.toNat) :
    Move.IsFeeder i start stop goal (.act (.write a words) w) := by
  intro hfed
  change w.Fed i start stop goal at hfed
  change Feeds i start stop goal w ((Action.write a words).perform w).2
  rw [Action.perform_write_ok hwrite]
  refine ⟨⟨hfed.size, hfed.builtin, hfed.quiet, hfed.slot, fun n hn => ?_, hfed.closed⟩, rfl, rfl,
    Nat.le_refl _, fun _ h => h⟩
  have hn' : n < a.toNat ∨ stop.toNat ≤ n := by
    rw [← hw.stall]
    exact hn
  have hlen := length_bytes words
  change (w.memory.pokeAll a.toNat (words.flatMap Word.bytes)).peek n = _
  rw [Memory.peek_pokeAll_of_not (by omega)]
  exact hfed.memory n hn

theorem isFeeder_close (hw : HandedOver i start stop goal a t w) (ha : a.toNat = stop.toNat) :
    Move.IsFeeder i start stop goal (.act .close w) := by
  intro hfed
  change w.Fed i start stop goal at hfed
  refine ⟨⟨hfed.size, hfed.builtin, hfed.quiet, hfed.slot, hfed.memory, fun _ => ?_⟩, rfl, rfl,
    Nat.le_refl _, fun _ h => h⟩
  exact hw.stall.trans (UInt32.toNat_inj.1 ha)

include hspan in
/-- **The producer keeps the list one that is handed over in parts**, and succeeds; then it is
done. -/
theorem keeps_supply {parts : List Part} (hparts : ∀ part ∈ parts, part.Sound)
    (ha : Address.aligned a = a) (hlo : start.toNat ≤ a.toNat)
    (hstop : a.toNat + (bytesOf parts).length = stop.toNat)
    (hg : goal.Holds a.toNat (bytesOf parts)) :
    Keeps (Runs i) (HandedOver i start stop goal a) (supply i a parts)
      (All (Move.IsFeeder i start stop goal)) fun r _ u => r = .ok () ∧ u.closed = true := by
  induction parts generalizing a with
  | nil =>
    refine keeps_perform stable_handedOver (fun _ _ h => h.moves) fun t w hw => ?_
    have hmoves := hw.snoc (isFeeder_close hw hstop)
    have hst : Stable (Runs i) fun t u =>
        All (Move.IsFeeder i start stop goal) t ∧ u.closed = true := fun _ _ _ ho h =>
      ⟨h.1, ho.closed.trans h.2⟩
    exact (keeps_stay hst (fun _ _ h => h.1) fun _ _ h => ⟨rfl, h.2⟩).now ⟨hmoves, rfl⟩
  | cons part rest ih =>
    have hpart := hparts part List.mem_cons_self
    have hpos := List.length_pos_iff.2 hpart.words
    have hlen := length_bytes part.words
    rw [bytesOf_cons] at hstop hg
    rw [List.length_append] at hstop
    rw [Memory.holds_append] at hg
    have hfit : a.toNat + 4 * part.words.length ≤ stop.toNat := by omega
    obtain ⟨hb, hab⟩ := hspan.after ha hfit
    generalize hbdef : a + 4 * UInt32.ofNat part.words.length = b at hb hab
    refine keeps_act (a := .write a part.words) stable_handedOver (fun _ _ h => h.moves)
      fun t w hw => ?_
    have hwrite := hspan.writeWords w.memory ha hlo hpart.words hfit
    have hinside := hspan.inside hlo (hlen.symm ▸ hfit)
    have hm := isFeeder_write hw hwrite hfit
    rw [Action.perform_write_ok hwrite]
    have hnow : WrittenBehind i start stop goal a (part.words.flatMap Word.bytes)
        (t ++ [.act (.write a part.words) w])
        { w with memory := w.memory.pokeAll a.toNat (part.words.flatMap Word.bytes) } :=
      ⟨⟨hw.snoc hm, hw.stall, hw.size, hw.closed⟩, Memory.holds_pokeAll _ hinside⟩
    refine Keeps.now ?_ hnow
    change Keeps _ _ (handOver i a (a + 4 * UInt32.ofNat part.words.length) part.cursor >>= fun _ =>
      supply i (a + 4 * UInt32.ofNat part.words.length) rest) _ _
    rw [hbdef]
    refine keeps_bind (keeps_handOver hspan hg.1 hb (by omega) (by omega) (by omega) hpart.cursor)
      fun _ => ?_
    refine ih (fun p hp => hparts p (List.mem_cons_of_mem _ hp)) hb (by omega) (by omega) ?_
    rw [hab, ← hlen]
    exact hg.2

end Replay

end DisplayList

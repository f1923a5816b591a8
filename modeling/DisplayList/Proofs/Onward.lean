import DisplayList.Proofs.Halting
import DisplayList.Proofs.Transferring

/-!
# A list left to itself

Others who leave the lists and memory alone may do what they like between the moves of a run: the
words that it fetches, and when it comes to its end, are as if there were nobody.

* `Elsewhere`: what such others do;
* `MovedOn`, **`halts_next`**, **`halts_unmapped`**: the fetch of a word, and of one that is not
  there;
* `InPlace`, **`halts_previous`**: a look back; `Action.KeepsPlace`, `halts_inPlace`: what is done
  between two fetches;
* `Slot.agrees_init`: where the cursor of a list is after a submission.
-/

namespace DisplayList

open Process

/-! ## The cursor of a list just submitted -/

theorem Slot.agrees_moveTo {s : Slot} (hpc : Address.aligned s.pc = s.pc)
    (hs : s.fetcher.source = .unset) (hw : s.fetcher.window = none) (a : Address) :
    (s.moveTo a).Agrees := by
  unfold moveTo
  dsimp only
  split
  · refine ⟨hpc, fun c hc => ?_, fun b hb => ?_⟩
    · simp [Fetcher.cursor?, hs] at hc
    · simp only [Fetcher.wanted, hs, Option.some.injEq] at hb
      exact hb.symm
  · have hfollow : (s.fetcher.follow s.pc (Address.aligned a)).source =
        .pending (Address.aligned a) := by
      unfold Fetcher.follow
      rw [hw]
      dsimp only
      unfold Fetcher.leaveWindow
      rw [hs]
      dsimp only
      split <;> rfl
    refine ⟨Address.aligned_aligned a, fun c hc => ?_, fun b hb => ?_⟩
    · simp [Fetcher.cursor?, hfollow] at hc
    · simp only [Fetcher.wanted, hfollow, Option.some.injEq] at hb
      exact hb.symm

theorem Slot.agrees_init (s : Slot) (sub : Submission) : (s.init sub).Agrees := by
  have hzero : Address.aligned 0 = 0 := by decide
  have h := Slot.agrees_moveTo (s := { s.clear with
    list := Address.aligned sub.list, stall := Address.aligned sub.stall
    callbackId := sub.callbackId, params := sub.params }) hzero rfl rfl (Address.aligned sub.list)
  exact ⟨h.aligned, h.cursor, h.wanted⟩

/-! ## What is done between two fetches -/

/-- The action fetches nothing, does not touch memory, and leaves the list at position `i` where it
is, with its cursor and its wake-up. -/
structure Action.KeepsPlace (i : Nat) (a : Action) : Prop where
  fetchless : ¬ a.IsNext
  memory : ∀ w, (a.perform w).2.memory = w.memory
  onto : ∀ m s, (a.onto i m s).pc = s.pc ∧ (a.onto i m s).fetcher = s.fetcher ∧
    (a.onto i m s).wake = s.wake

theorem Action.keepsPlace_change {i : Nat} {c : Change}
    (h : ∀ s, (c.perform s).2.pc = s.pc ∧ (c.perform s).2.fetcher = s.fetcher ∧
      (c.perform s).2.wake = s.wake) : (Action.change i c).KeepsPlace i where
  fetchless h := h
  memory _ := rfl
  onto m s := by
    rw [onto_change, if_pos rfl]
    exact h s

theorem Action.keepsPlace_notify {i j : Nat} {n : Notice} : (Action.notify j n).KeepsPlace i where
  fetchless h := h
  memory w := by
    obtain ⟨queue, events, journal, h⟩ := w.notify_frame j n
    change (w.notify j n).memory = w.memory
    rw [h]
  onto _ _ := ⟨rfl, rfl, rfl⟩

theorem Action.keepsPlace_of {i : Nat} {a : Action} (hn : ¬ a.IsNext)
    (hm : ∀ w, (a.perform w).2.memory = w.memory) (ho : ∀ m s, a.onto i m s = s) :
    a.KeepsPlace i where
  fetchless := hn
  memory := hm
  onto m s := by
    rw [ho]
    exact ⟨rfl, rfl, rfl⟩

theorem Process.only_keepsPlace_look {i j : Nat} : Only (Action.KeepsPlace i) (look j) :=
  only_perform (Action.keepsPlace_of id (fun _ => rfl) fun _ _ => rfl)

namespace Process

/-! ## The others -/

/-- The lists and memory are left alone. -/
structure Elsewhere (w v : FrontEnd) : Prop where
  memory : v.memory = w.memory
  slots : v.slots = w.slots

theorem Elsewhere.slot {w v : FrontEnd} (h : Elsewhere w v) (i : Nat) : v.slot i = w.slot i :=
  FrontEnd.slot_congr w i h.slots

theorem Elsewhere.refl (w : FrontEnd) : Elsewhere w w :=
  ⟨rfl, rfl⟩

theorem Elsewhere.trans {w v u : FrontEnd} (h : Elsewhere w v) (h' : Elsewhere v u) :
    Elsewhere w u :=
  ⟨h'.memory.trans h.memory, h'.slots.trans h.slots⟩

theorem Elsewhere.tryAccess {w v : FrontEnd} (h : Elsewhere w v) (i : Nat) (a : Slot.Access) :
    (v.slot i).tryAccess v.memory a = (w.slot i).tryAccess w.memory a := by
  rw [h.slot, h.memory]

theorem elsewhere_tell (r : Report) (w : FrontEnd) : Elsewhere w (w.tell r).2 := by
  obtain ⟨host, journal, h⟩ := w.tell_frame r
  rw [h]
  exact ⟨rfl, rfl⟩

section Alone

variable {α : Type} {others : FrontEnd → FrontEnd → Prop}
  (hothers : ∀ v u, others v u → Elsewhere v u) {i n : Nat} {w w₀ v u : FrontEnd} {word : UInt32}

include hothers

theorem elsewhere_of (h : Relation.ReflTransGen others w v) : Elsewhere w v := by
  induction h with
  | refl => exact .refl w
  | tail _ ho ih => exact ih.trans (hothers _ _ ho)

/-! ## Fetches -/

omit hothers in
theorem price_access {r : Address ⊕ Except Failure UInt32} {s : Slot}
    (h : (v.slot i).tryAccess v.memory .next = (r, s)) :
    price i (.act (.access i .next) v) = (r.getRight?.bind Except.toOption).toList.length := by
  rw [price_eq]
  simp only [Move.word?, h]
  cases r with
  | inl => rfl
  | inr r =>
    cases r with
    | error => rfl
    | ok => simp [Except.toOption]

omit hothers in
theorem price_accessWith {r : Option (Except Failure UInt32)} {s : Slot} {a : Address} {c : Cursor}
    (h : (v.slot i).accessWith v.memory a c .next = (r, s)) :
    price i (.act (.accessWith i a c .next) v) = (r.bind Except.toOption).toList.length := by
  rw [price_eq]
  simp only [Move.word?, h]
  cases r with
  | none => rfl
  | some r =>
    cases r with
    | error => rfl
    | ok => simp [Except.toOption]

theorem halts_done {Q : α → FrontEnd → Nat → Prop} {a : α}
    (hQ : ∀ v u, Elsewhere v u → Q a v n → Q a u n) (h : Q a w n) :
    Halts others i Q (.done a) w n :=
  .done fun v hv => hQ w v (elsewhere_of hothers hv) h

theorem halts_tried {a : Slot.Access} {Q : Except Failure a.Answer → FrontEnd → Nat → Prop}
    {r : Except Failure a.Answer} {s : Slot} (k : Nat)
    (hQ : ∀ v u m, Elsewhere v u → Q r v m → Q r u m)
    (ht : (w.slot i).tryAccess w.memory a = (.inr r, s))
    (hprice : ∀ v, Elsewhere w v → price i (.act (.access i a) v) = k)
    (h : ∀ v, Elsewhere w v → Q r (v.setSlot i s) n) :
    Halts others i Q (Operation.access i a) w (n + k) := by
  refine .loop (.act (fun v hv => ?_) fun v hv => ?_)
  · rw [hprice v (elsewhere_of hothers hv)]
    exact Nat.le_add_left k n
  · have he := elsewhere_of hothers hv
    rw [hprice v he, Nat.add_sub_cancel, perform_access ((he.tryAccess i a).trans ht)]
    exact halts_done hothers (fun v u => hQ v u n) (h v he)

theorem halts_seek {Q : Except Failure UInt32 → FrontEnd → Nat → Prop} {address : Address}
    (hQ : ∀ r v u m, Elsewhere v u → Q r v m → Q r u m)
    (hw : (w.slot i).fetcher.wanted (w.slot i).pc = some address)
    (h : ∀ v, Elsewhere w v → Halts others i (Sum.elim (fun _ _ _ => False) Q)
      (Operation.found i .next address (Cursor.openAt address 4)) v n) :
    Halts others i Q (Operation.access i .next) w n := by
  have ht : (w.slot i).tryAccess w.memory .next = (.inl address, w.slot i) := by
    unfold Slot.tryAccess
    rw [hw]
  -- The others leave the list alone, so that the cursor is still wanted where it is found.
  have hattempt : Halts others i (Sum.elim (fun _ _ _ => False) Q) (Operation.attempt i .next) w
      n := by
    have hprice : ∀ v, Elsewhere w v → price i (.act (.access i .next) v) = 0 := fun v hv =>
      price_access ((hv.tryAccess i _).trans ht)
    refine .act (fun v hv => ?_) fun v hv => ?_
    · rw [hprice v (elsewhere_of hothers hv)]
      exact Nat.zero_le n
    · have he := elsewhere_of hothers hv
      have hp := perform_access ((he.tryAccess i _).trans ht)
      rw [← he.slot i, FrontEnd.setSlot_slot] at hp
      rw [hprice v he, hp]
      exact .report fun u hu =>
        h _ (he.trans ((elsewhere_of hothers hu).trans (elsewhere_tell _ u)))
  rw [Operation.access_eq]
  refine .loop (Halts.bind (hattempt.mono fun x v m hx => ?_))
  cases x with
  | inl => exact hx.elim
  | inr r => exact halts_done hothers (hQ r · · m) hx

/-- The list has fetched a word: its cursor has gone along. -/
structure MovedOn (i : Nat) (w v : FrontEnd) : Prop where
  memory : v.memory = w.memory
  size : v.slots.size = w.slots.size
  pc : (v.slot i).pc = (w.slot i).pc + 4
  cursor : (v.slot i).fetcher.cursor? = some ⟨(v.slot i).pc, .word⟩
  wake : (v.slot i).wake = (w.slot i).wake

omit hothers in
theorem MovedOn.elsewhere (h : MovedOn i w v) (hu : Elsewhere v u) : MovedOn i w u where
  memory := hu.memory.trans h.memory
  size := by rw [hu.slots, h.size]
  pc := by rw [hu.slot, h.pc]
  cursor := by rw [hu.slot, h.cursor]
  wake := by rw [hu.slot, h.wake]

omit hothers in
theorem movedOn_setSlot (hi : i < w.slots.size) {fetcher : Fetcher}
    (hc : fetcher.cursor? = some ⟨(w.slot i).pc + 4, .word⟩) :
    MovedOn i w (w.setSlot i { w.slot i with pc := (w.slot i).pc + 4, fetcher }) := by
  refine ⟨rfl, w.size_setSlot .., ?_, ?_, ?_⟩
  all_goals rw [FrontEnd.slot_setSlot_self hi]
  exact hc

omit hothers in
theorem Elsewhere.movedOn (h : Elsewhere w v) (hu : MovedOn i v u) : MovedOn i w u where
  memory := hu.memory.trans h.memory
  size := by rw [hu.size, h.slots]
  pc := by rw [hu.pc, h.slot]
  cursor := hu.cursor
  wake := by rw [hu.wake, h.slot]

theorem halts_found (hi : i < w.slots.size) (ha : Address.aligned (w.slot i).pc = (w.slot i).pc)
    (hw : (w.slot i).fetcher.wanted (w.slot i).pc = some (w.slot i).pc)
    (hx : w.memory.readWord (w.slot i).pc = .ok word) :
    Halts others i (Sum.elim (fun _ _ _ => False) fun r v m =>
        r = .ok word ∧ m = n ∧ MovedOn i w v)
      (Operation.found i .next (w.slot i).pc (.ok ⟨(w.slot i).pc, .word⟩)) w (n + 1) := by
  obtain ⟨fetcher, hwith, hc⟩ := Slot.accessWith_next_at ha hw hx
  have hp : ∀ v, Elsewhere w v →
      (v.slot i).accessWith v.memory (w.slot i).pc ⟨(w.slot i).pc, .word⟩ .next =
        (some (.ok word), { w.slot i with pc := (w.slot i).pc + 4, fetcher }) := fun v hv => by
    rw [hv.slot, hv.memory, hwith]
  refine .act (fun v hv => ?_) fun v hv => ?_
  · rw [price_accessWith (hp v (elsewhere_of hothers hv))]
    exact Nat.le_add_left 1 n
  · have he := elsewhere_of hothers hv
    rw [price_accessWith (hp v he), perform_accessWith (hp v he)]
    refine halts_done hothers (fun v u hu h => ⟨h.1, h.2.1, h.2.2.elsewhere hu⟩) ⟨rfl, rfl, ?_⟩
    rw [← he.slot i]
    exact he.movedOn (movedOn_setSlot (he.slots ▸ hi) (by rw [he.slot, hc]))

/-- **The fetch of a word.** -/
theorem halts_next (hi : i < w.slots.size) (h : (w.slot i).Agrees)
    (hx : w.memory.readWord (w.slot i).pc = .ok word) :
    Halts others i (fun r v m => r = .ok word ∧ m = n ∧ MovedOn i w v)
      (Operation.access i .next) w (n + 1) := by
  cases hw : (w.slot i).fetcher.wanted (w.slot i).pc with
  | none =>
    obtain ⟨c, hc⟩ := Fetcher.cursor_of_wanted hw
    rw [h.cursor c hc] at hc
    obtain ⟨fetcher, hnext, hc'⟩ := Slot.access_next_at h.aligned hc hx
    have ht : (w.slot i).tryAccess w.memory .next =
        (.inr (.ok word), { w.slot i with pc := (w.slot i).pc + 4, fetcher }) := by
      unfold Slot.tryAccess
      rw [hw, hnext]
    refine halts_tried hothers 1 (fun v u m hu h => ⟨h.1, h.2.1, h.2.2.elsewhere hu⟩) ht
      (fun v hv => price_access ((hv.tryAccess i _).trans ht)) fun v hv => ⟨rfl, rfl, ?_⟩
    rw [← hv.slot i]
    exact hv.movedOn (movedOn_setSlot (hv.slots ▸ hi) (by rw [hv.slot, hc']))
  | some a =>
    obtain rfl := h.wanted a hw
    refine halts_seek hothers (fun r v u m hu h => ⟨h.1, h.2.1, h.2.2.elsewhere hu⟩) hw
      fun v hv => ?_
    rw [Cursor.openAt_of_readWord h.aligned hx]
    rw [← hv.slot i] at h hw hx ⊢
    rw [← hv.memory] at hx
    exact (halts_found hothers (hv.slots ▸ hi) h.aligned hw hx).mono fun x u m hu => by
      cases x with
      | inl => exact hu
      | inr r => exact ⟨hu.1, hu.2.1, hv.movedOn hu.2.2⟩

/-- **The fetch of a word that is not there.** -/
theorem halts_unmapped (h : (w.slot i).Agrees) (hm : Memory.isMapped (w.slot i).pc = false) :
    Halts others i (fun r _ m => r = .error (.memory (.unmapped (w.slot i).pc)) ∧ m = n)
      (Operation.access i .next) w n := by
  cases hw : (w.slot i).fetcher.wanted (w.slot i).pc with
  | none =>
    obtain ⟨c, hc⟩ := Fetcher.cursor_of_wanted hw
    rw [h.cursor c hc] at hc
    have ht : (w.slot i).tryAccess w.memory .next =
        (.inr (.error (.memory (.unmapped (w.slot i).pc))), w.slot i) := by
      unfold Slot.tryAccess Slot.access
      rw [hw, hc]
      dsimp only
      rw [Slot.read_at, Memory.readWord_unmapped w.memory h.aligned hm]
      rfl
    exact halts_tried hothers 0 (fun _ _ _ _ h => h) ht
      (fun v hv => price_access ((hv.tryAccess i _).trans ht)) fun _ _ => ⟨rfl, rfl⟩
  | some a =>
    obtain rfl := h.wanted a hw
    cases ho : Cursor.openAt (w.slot i).pc 4 with
    | ok c =>
      rw [(Cursor.openAt_eq h.aligned ho).2] at hm
      cases hm
    | error f =>
      refine halts_seek hothers (fun _ _ _ _ _ h => h) hw fun v _ => ?_
      rw [ho, (Cursor.openAt_error h.aligned ho).1]
      exact halts_done hothers (fun _ _ _ h => h) ⟨rfl, rfl⟩

/-! ## Between two fetches -/

/-- The list is where it was. -/
structure InPlace (i : Nat) (w v : FrontEnd) : Prop where
  memory : v.memory = w.memory
  size : v.slots.size = w.slots.size
  pc : (v.slot i).pc = (w.slot i).pc
  fetcher : (v.slot i).fetcher = (w.slot i).fetcher
  wake : (v.slot i).wake = (w.slot i).wake

omit hothers in
theorem Elsewhere.inPlace (h : Elsewhere w v) (i : Nat) : InPlace i w v where
  memory := h.memory
  size := by rw [h.slots]
  pc := by rw [h.slot]
  fetcher := by rw [h.slot]
  wake := by rw [h.slot]

omit hothers in
theorem InPlace.trans (h : InPlace i w v) (h' : InPlace i v u) : InPlace i w u where
  memory := h'.memory.trans h.memory
  size := h'.size.trans h.size
  pc := h'.pc.trans h.pc
  fetcher := h'.fetcher.trans h.fetcher
  wake := h'.wake.trans h.wake

omit hothers in
theorem InPlace.act (h : InPlace i w v) {a : Action} (ha : a.KeepsPlace i) :
    InPlace i w (a.perform v).2 := by
  have hslot : ∀ s : Slot, s = a.onto i v.memory (v.slot i) → s.pc = (v.slot i).pc ∧
      s.fetcher = (v.slot i).fetcher ∧ s.wake = (v.slot i).wake := fun s hs => by
    rw [hs]
    exact ha.onto v.memory (v.slot i)
  have hhere := Action.slot_perform_of (a := a) (P := fun s => s.pc = (v.slot i).pc ∧
    s.fetcher = (v.slot i).fetcher ∧ s.wake = (v.slot i).wake) ⟨rfl, rfl, rfl⟩ (hslot _ rfl)
  exact h.trans ⟨ha.memory v, a.size_perform v, hhere.1, hhere.2.1, hhere.2.2⟩

theorem halts_inPlace {S : α → Prop} {p : Process α} (hS : Leads S p)
    (hp : Only (Action.KeepsPlace i) p) (h : InPlace i w₀ w) :
    Halts others i (fun a v m => m = n ∧ S a ∧ InPlace i w₀ v) p w n :=
  halts_leads (fun v u ho hv => hv.trans ((hothers v u ho).inPlace i)) (fun _ ha => ha.fetchless)
    (fun _ _ ha hv => hv.act ha) (fun r v hv => hv.trans ((elsewhere_tell r v).inPlace i)) hS hp h

/-- **A look back.** -/
theorem halts_previous (hc : (w.slot i).fetcher.cursor? = some ⟨(w.slot i).pc, .word⟩) :
    Halts others i (fun r v m =>
        r = (w.memory.readWord ((w.slot i).pc - 8)).mapError .memory ∧ m = n ∧ InPlace i w v)
      (Operation.access i .previous) w n := by
  have ht : (w.slot i).tryAccess w.memory .previous =
      (.inr ((w.memory.readWord ((w.slot i).pc - 8)).mapError .memory), w.slot i) := by
    unfold Slot.tryAccess
    rw [Fetcher.wanted_of_cursor hc, Slot.access_previous_at hc]
  refine halts_tried (a := .previous) hothers 0
    (fun v u m hu hv => ⟨hv.1, hv.2.1, hv.2.2.trans (hu.inPlace i)⟩) ht
    (fun v _ => price_of_not_isNext (a := .access i .previous) id v) fun v hv => ⟨rfl, rfl, ?_⟩
  rw [← hv.slot i, FrontEnd.setSlot_slot]
  exact hv.inPlace i

end Alone

end Process

end DisplayList

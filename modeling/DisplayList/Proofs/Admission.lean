import DisplayList.Proofs.Exclusion

/-!
# Admission

The pool admits a list to the free slot of the smallest number. It refuses one that clashes with a
list still running, before it asks whether a slot is free, and changes nothing then.

Two guest addresses that differ in their alias bits alone name the same memory. The address of a
list is compared without these bits; that of a stack is compared as it was given.

* `FrontEnd.Numbered`: the slots of a pool; `numbered_of_slots`, `Numbered.reach`: when it is made,
  and ever after;
* `FrontEnd.Clashes`, `FrontEnd.FirstFree`, `accepts_iff`: where a list is accepted;
* `Slot.Holds`, `Admission`: a slot with a list that has not run, and all that an admission does;
  **`submit_admission`**;
* `Submission.Aliases`: submissions that name the same memory; **`aliases_alike_iff`**: they are
  answered alike unless it depends on the alias bits of the stack whether it is in use.
-/

namespace DisplayList

namespace FrontEnd

variable (w : FrontEnd)

/-- The slots of the pool are there, and are numbered by their positions. -/
structure Numbered : Prop where
  size : w.poolSize ≤ w.slots.size
  id : ∀ j < w.poolSize, (w.slot j).id = j

theorem numbered_of_slots {w : FrontEnd} {n : Nat} (h : w.slots = (Array.range n).map Slot.new)
    (hn : w.poolSize ≤ n) : w.Numbered := by
  refine ⟨by simpa [h] using hn, fun j hj => ?_⟩
  have hlt : j < n := Nat.lt_of_lt_of_le hj hn
  unfold slot
  rw [h, Array.getD_eq_getD_getElem?, Array.getElem?_map, Array.getElem?_range, if_pos hlt]
  rfl

theorem Numbered.reach {w v : FrontEnd} (hw : w.Numbered)
    (h : Relation.ReflTransGen Process.Anybody w v) : v.Numbered := by
  induction h with
  | refl => exact hw
  | @tail v u _ ho ih =>
    have hpool : u.poolSize = v.poolSize := by
      cases ho with
      | act _ => exact (Action.perform_settled _ v).2
      | tell r => exact v.poolSize_tell r
    refine ⟨?_, fun j hj => ?_⟩
    · rw [hpool, Process.size_anybody ho]
      exact ih.size
    · rw [id_anybody ho]
      exact ih.id j (hpool ▸ hj)

/-- A list still running was submitted at this address. -/
def ListInUse (list : Address) : Prop :=
  ∃ j < w.poolSize, (w.slot j).isDone = false ∧ (w.slot j).list = list

/-- A list still running has this stack. -/
def StackInUse (stack : Address) : Prop :=
  stack ≠ 0 ∧ ∃ j < w.poolSize, (w.slot j).isDone = false ∧ (w.slot j).stack = stack

/-- A list still running is in the way of a submission. -/
def Clashes (sub : Submission) : Prop :=
  w.ListInUse (Address.aligned sub.list) ∨ w.StackInUse sub.stack

/-- The position is that of the free slot with the smallest number. -/
structure FirstFree (i : Nat) : Prop where
  lt : i < w.poolSize
  isDone : (w.slot i).isDone = true
  least : ∀ j < w.poolSize, (w.slot j).isDone = true → (w.slot i).id ≤ (w.slot j).id

variable {w}

theorem isBusy_iff {list stack : Address} : w.isBusy list stack (List.range w.poolSize) = true ↔
    w.ListInUse list ∨ w.StackInUse stack := by
  unfold isBusy ListInUse StackInUse
  simp only [List.any_eq_true, List.mem_range, Bool.and_eq_true, Bool.not_eq_eq_eq_not,
    Bool.not_true, Slot.isInUse, Bool.or_eq_true, beq_iff_eq, bne_iff_ne]
  constructor
  · rintro ⟨j, hj, hd, h | ⟨h0, h⟩⟩
    · exact .inl ⟨j, hj, hd, h⟩
    · exact .inr ⟨h0, j, hj, hd, h⟩
  · rintro (⟨j, hj, hd, h⟩ | ⟨h0, j, hj, hd, h⟩)
    · exact ⟨j, hj, hd, .inl h⟩
    · exact ⟨j, hj, hd, .inr ⟨h0, h⟩⟩

theorem firstFree_none_iff : w.firstFree (List.range w.poolSize) = none ↔
    ∀ j < w.poolSize, (w.slot j).isDone = false := by
  simp [firstFree, List.find?_eq_none]

/-- **The first free slot** is the one with the smallest number. -/
theorem firstFree_some_iff (hw : w.Numbered) {i : Nat} :
    w.firstFree (List.range w.poolSize) = some i ↔ w.FirstFree i := by
  unfold firstFree
  rw [List.find?_range_eq_some]
  constructor
  · rintro ⟨hd, hi, hbefore⟩
    refine ⟨List.mem_range.1 hi, hd, fun j hj hj' => ?_⟩
    rw [hw.id i (List.mem_range.1 hi), hw.id j hj]
    by_contra hlt
    have hfree := hbefore j (by omega)
    rw [hj'] at hfree
    cases hfree
  · intro h
    refine ⟨h.isDone, List.mem_range.2 h.lt, fun j hj => ?_⟩
    have hlt : j < w.poolSize := Nat.lt_trans hj h.lt
    by_contra hd
    have hle := h.least j hlt (by simpa using hd)
    rw [hw.id i h.lt, hw.id j hlt] at hle
    omega

/-- **Where the pool accepts a list**, and why it does not. -/
theorem accepts_iff (hw : w.Numbered) (sub : Submission) :
    (w.accepts sub = .error (.busy (Address.aligned sub.list)) ↔ w.Clashes sub) ∧
    (w.accepts sub = .error .noFreeSlot ↔
      ¬ w.Clashes sub ∧ ∀ j < w.poolSize, (w.slot j).isDone = false) ∧
    ∀ i, w.accepts sub = .ok i ↔ ¬ w.Clashes sub ∧ w.FirstFree i := by
  unfold Clashes
  simp only [← isBusy_iff, ← firstFree_none_iff, ← firstFree_some_iff hw]
  unfold accepts
  split
  next h => simp [h]
  next h => cases w.firstFree (List.range w.poolSize) <;> simp [h]

end FrontEnd

/-! ## What an admission does -/

/-- The slot holds the list submitted, of which nothing has run. -/
structure Slot.Holds (s : Slot) (sub : Submission) (p : Placement) : Prop where
  list : s.list = Address.aligned sub.list
  stall : s.stall = Address.aligned sub.stall
  callbackId : s.callbackId = sub.callbackId
  params : s.params = sub.params
  pc : s.pc = s.list
  /-- A list that may not even run its first word has stalled. -/
  status : s.status = if s.list = s.stall then .stallReached else .queued
  flags : s.flags = .fresh
  calls : s.calls.toList = []
  save : s.save = 0
  window : s.fetcher.window = none
  /-- For the first word a fresh cursor has to be found. -/
  cursor : s.fetcher.wanted s.pc = some s.pc
  blocked : s.blocked = []
  wake : s.wake.pending = true ↔ p = .tail

theorem Slot.fetcher_init (s : Slot) (sub : Submission) :
    (s.init sub).fetcher.window = none ∧
      (s.init sub).fetcher.wanted (s.init sub).pc = some (s.init sub).pc := by
  have hfollow : ∀ a,
      s.fetcher.clear.follow 0 a = { s.fetcher.clear with source := .pending a } := by
    intro a
    simp [Fetcher.follow, Fetcher.clear, Fetcher.leaveWindow]
  unfold init moveTo
  dsimp only
  split
  · exact ⟨rfl, rfl⟩
  · change (s.fetcher.clear.follow 0 _).window = none ∧ (s.fetcher.clear.follow 0 _).wanted _ = _
    rw [hfollow]
    exact ⟨rfl, rfl⟩

/-- **The slot of an admitted list**, whatever was in it before. -/
theorem Slot.holds_init (s : Slot) (sub : Submission) (p : Placement) :
    ((s.init sub).handed p).Holds sub p := by
  obtain ⟨hwindow, hcursor⟩ := s.fetcher_init sub
  obtain ⟨f, hf⟩ := s.init_frame sub
  rw [hf] at hwindow hcursor ⊢
  have hcalls := s.calls.toList_clear
  cases p with
  | tail =>
    exact ⟨rfl, rfl, rfl, rfl, rfl, rfl, rfl, hcalls, rfl, hwindow, hcursor, rfl,
      fun _ => rfl, fun _ => rfl⟩
  | head =>
    exact ⟨rfl, rfl, rfl, rfl, rfl, rfl, rfl, hcalls, rfl, hwindow, hcursor, rfl, nofun, nofun⟩

/-- **What an admission does.** -/
structure Admission (w : FrontEnd) (sub : Submission) (p : Placement) (r : Except Failure Nat)
    (u : FrontEnd) : Prop where
  busy : r = .error (.busy (Address.aligned sub.list)) ↔ w.Clashes sub
  full : r = .error .noFreeSlot ↔
    ¬ w.Clashes sub ∧ ∀ j < w.poolSize, (w.slot j).isDone = false
  admitted : ∀ i, r = .ok i ↔ ¬ w.Clashes sub ∧ w.FirstFree i
  slot : ∀ i, r = .ok i → (u.slot i).Holds sub p
  others : ∀ i j, r = .ok i → j ≠ i → u.slot j = w.slot j
  /-- With the builtin engine a slot that is still queued leaves its place. -/
  tail : ∀ i, r = .ok i → w.selected? = none → p = .tail →
    u.queue = w.queue.filter (· != i) ++ [i]
  head : ∀ i, r = .ok i → w.selected? = none → p = .head →
    u.queue = i :: w.queue.filter (· != i)
  refused : ∀ e, r = .error e → u = w

namespace Process

variable {w : FrontEnd} {sub : Submission} {p : Placement}

theorem slot_receive {i : Nat} (hi : i < w.slots.size) (j : Nat) :
    (w.receive i sub p).slot j = if j = i then ((w.slot i).init sub).handed p else w.slot j := by
  unfold FrontEnd.receive FrontEnd.start
  rw [FrontEnd.slot_setSlot]
  by_cases hj : j = i
  · simp [hj, hi]
  · rw [if_neg fun h => hj h.1, if_neg hj, FrontEnd.slot_congr _ j (FrontEnd.slots_notify ..),
      FrontEnd.slot_congr _ j (FrontEnd.slots_notify ..), FrontEnd.slot_setSlot,
      if_neg fun h => hj h.1]

theorem gives_accepts (hw : w.Numbered) (sub : Submission) (p : Placement) :
    Gives (Pool.submit sub p) w (w.accepts sub) (match w.accepts sub with
      | .ok i => w.receive i sub p
      | .error _ => w) := by
  cases h : w.accepts sub with
  | ok i => exact gives_receive (Nat.lt_of_lt_of_le (lt_of_accepts h) hw.size) h p
  | error e => exact gives_submit_error h

/-- **Admission.** A submission comes to an end, and does what is said of an admission: whatever is
in the pool, and whoever runs the lists. -/
theorem submit_admission (hw : w.Numbered) : Returns (Pool.submit sub p) w ∧
    ∀ t r u, Alone (Pool.submit sub p) w t r u → Admission w sub p r u := by
  obtain ⟨t', h'⟩ := gives_accepts hw sub p
  refine ⟨⟨t', _, _, h'⟩, fun t r u h => ?_⟩
  obtain ⟨rfl, hu⟩ := h.unique h'
  obtain ⟨hbusy, hfull, hok⟩ := FrontEnd.accepts_iff hw sub
  have hreceive : ∀ i, w.accepts sub = .ok i → u = w.receive i sub p := by
    intro i hi
    rw [hu, hi]
  have hsize : ∀ i, w.accepts sub = .ok i → i < w.slots.size := fun i hi =>
    Nat.lt_of_lt_of_le (lt_of_accepts hi) hw.size
  have hqueue : ∀ i, w.accepts sub = .ok i → w.selected? = none →
      u.queue = (w.enqueue i p).queue := by
    intro i hi hs
    rw [hreceive i hi, receive_builtin hs]
    rfl
  refine ⟨hbusy, hfull, hok, fun i hi => ?_, fun i j hi hj => ?_, fun i hi hs hp => ?_,
    fun i hi hs hp => ?_, fun e he => ?_⟩
  · rw [hreceive i hi, slot_receive (hsize i hi), if_pos rfl]
    exact Slot.holds_init ..
  · rw [hreceive i hi, slot_receive (hsize i hi), if_neg hj]
  · rw [hqueue i hi hs, hp]
    rfl
  · rw [hqueue i hi hs, hp]
    rfl
  · rw [hu, he]

theorem numbered_idlePool : idlePool.Numbered :=
  FrontEnd.numbered_of_slots rfl (Nat.le_refl _)

/-- A list still queued was cancelled; its slot is used again, and goes behind the other. -/
theorem submit_admission_requeued : ∃ w t u, w.Numbered ∧ w.queue = [0, 1] ∧
    Alone (Pool.submit ⟨0x08A00000, 0, 0, none⟩ .tail) w t (.ok 0) u ∧ u.queue = [1, 0] ∧
      Admission w ⟨0x08A00000, 0, 0, none⟩ .tail (.ok 0) u := by
  let x := idlePool.accept 0 ⟨0x08800000, 0, 0, none⟩
  let v := x.accept 1 ⟨0x08900000, 0, 0, none⟩
  let w := ((Action.change 0 (.setStatus .cancelled)).perform v).2
  have hx : Relation.ReflTransGen Anybody idlePool x :=
    reach_accept rfl (by decide +kernel) (by decide +kernel)
  have hv : Relation.ReflTransGen Anybody idlePool v :=
    hx.trans (reach_accept rfl (by decide +kernel) (by decide +kernel))
  have hw : w.Numbered := numbered_idlePool.reach (hv.tail (.act trivial _))
  have haccepts : w.accepts ⟨0x08A00000, 0, 0, none⟩ = .ok 0 := by decide +kernel
  obtain ⟨t, ht⟩ := gives_receive (by decide +kernel) haccepts .tail
  have hadmission := (submit_admission hw).2 t _ _ ht
  have hqueue := hadmission.tail 0 rfl rfl rfl
  exact ⟨w, t, _, hw, by decide +kernel, ht, hqueue, hadmission⟩

end Process

/-! ## Addresses that name the same memory -/

/-- The parameters differ at most in the alias bits of their stack. -/
structure Params.Aliases (a b : Params) : Prop where
  contextAddress : a.contextAddress = b.contextAddress
  stackCount : a.stackCount = b.stackCount
  stack : Address.canonical a.stackAddress = Address.canonical b.stackAddress
  /-- No stack is no alias of a stack. -/
  none : a.stackAddress = 0 ↔ b.stackAddress = 0

/-- The submissions differ only in the alias bits of their list, of their stall address and of
their stack. -/
structure Submission.Aliases (a b : Submission) : Prop where
  list : Address.canonical a.list = Address.canonical b.list
  stall : Address.canonical a.stall = Address.canonical b.stall
  callbackId : a.callbackId = b.callbackId
  params : Option.Rel Params.Aliases a.params b.params

theorem Address.aligned_eq_of_canonical {a b : Address} (h : canonical a = canonical b) :
    aligned a = aligned b := by
  have hmod : a.toNat % 2 ^ 30 = b.toNat % 2 ^ 30 := by
    rw [← toNat_canonical, ← toNat_canonical, h]
  rw [← UInt32.toNat_inj, toNat_aligned, toNat_aligned]
  omega

namespace FrontEnd

variable {w : FrontEnd} {a b : Submission}

theorem accepts_eq_iff (h : Address.aligned a.list = Address.aligned b.list) :
    w.accepts a = w.accepts b ↔ (w.Clashes a ↔ w.Clashes b) := by
  unfold Clashes accepts
  simp only [← isBusy_iff, ← h]
  generalize w.isBusy (Address.aligned a.list) a.stack (List.range w.poolSize) = busy
  generalize w.isBusy (Address.aligned a.list) b.stack (List.range w.poolSize) = busy'
  cases busy <;> cases busy' <;> cases w.firstFree (List.range w.poolSize) <;> simp

theorem clashes_congr_iff (h : Address.aligned a.list = Address.aligned b.list) :
    (w.Clashes a ↔ w.Clashes b) ↔
      w.ListInUse (Address.aligned a.list) ∨ (w.StackInUse a.stack ↔ w.StackInUse b.stack) := by
  unfold Clashes
  rw [← h]
  tauto

end FrontEnd

namespace Process

variable {w : FrontEnd} {a b : Submission} {p : Placement}

/-- **Which aliases are answered alike.** Two submissions that differ in alias bits alone are
admitted to the same slot, or refused for the same reason, exactly if a list still running was
submitted at their address, or a list still running uses the stack of both as it was given, or of
neither. -/
theorem aliases_alike_iff (hw : w.Numbered) (h : a.Aliases b) {t t' : List Move}
    {r r' : Except Failure Nat} {u u' : FrontEnd} (ha : Alone (Pool.submit a p) w t r u)
    (hb : Alone (Pool.submit b p) w t' r' u') :
    r = r' ↔ w.ListInUse (Address.aligned a.list) ∨
      (w.StackInUse a.stack ↔ w.StackInUse b.stack) := by
  have hlist := Address.aligned_eq_of_canonical h.list
  obtain ⟨s, hs⟩ := gives_accepts hw a p
  obtain ⟨s', hs'⟩ := gives_accepts hw b p
  rw [(ha.unique hs).1, (hb.unique hs').1, FrontEnd.accepts_eq_iff hlist]
  exact FrontEnd.clashes_congr_iff hlist

/-- A pool in which a list with a stack still runs. -/
def stackPool : FrontEnd :=
  idlePool.accept 0 ⟨0x08800000, 0, 0, some ⟨0, 0, 0x09000000⟩⟩

/-- A submission of a list with this stack. -/
def onStack (stack : Address) : Submission :=
  ⟨0x08900000, 0, 0, some ⟨0, 0, stack⟩⟩

theorem aliases_onStack : (onStack 0x09000000).Aliases (onStack 0x49000000) :=
  ⟨rfl, rfl, rfl, .some ⟨rfl, rfl, by decide, by decide⟩⟩

/-- The alias of a stack in use is not found in use. -/
theorem aliases_alike_iff_onStack : ∃ t t' r r' u u',
    Alone (Pool.submit (onStack 0x09000000) .tail) stackPool t r u ∧
      Alone (Pool.submit (onStack 0x49000000) .tail) stackPool t' r' u' ∧
      (r = r' ↔ stackPool.ListInUse 0x08900000 ∨
        (stackPool.StackInUse 0x09000000 ↔ stackPool.StackInUse 0x49000000)) := by
  have hw : stackPool.Numbered :=
    numbered_idlePool.reach (reach_accept rfl (by decide +kernel) (by decide +kernel))
  obtain ⟨t, h⟩ := gives_accepts hw (onStack 0x09000000) .tail
  obtain ⟨t', h'⟩ := gives_accepts hw (onStack 0x49000000) .tail
  exact ⟨t, t', _, _, _, _, h, h', aliases_alike_iff hw aliases_onStack h h'⟩

/-- **A stack in use is given to a second list** under another of its addresses: the first of two
submissions that differ in alias bits alone is refused, the second is admitted. -/
theorem stack_shared : (onStack 0x09000000).Aliases (onStack 0x49000000) ∧
    Gives (Pool.submit (onStack 0x09000000) .tail) stackPool
      (.error (.busy 0x08900000)) stackPool ∧
    ∃ u, Gives (Pool.submit (onStack 0x49000000) .tail) stackPool (.ok 1) u := by
  have hbusy : stackPool.accepts (onStack 0x09000000) = .error (.busy 0x08900000) := by
    decide +kernel
  have hfree : stackPool.accepts (onStack 0x49000000) = .ok 1 := by
    decide +kernel
  exact ⟨aliases_onStack, gives_submit_error hbusy, _,
    gives_receive (by decide +kernel) hfree .tail⟩

end Process

end DisplayList

import DisplayList.Proofs.Access
import DisplayList.Proofs.Alike
import DisplayList.Proofs.Alone
import DisplayList.Proofs.Coherence
import DisplayList.Proofs.Histories

/-!
# How calls and returns nest

A call saves where the list is and the offset register, and a return puts both back. Between a call
and its return the list may run anywhere, and the registers may be set to anything.

* `Request.rise`, `Closed`, `WellNested`: requests among which calls and returns nest;
* `Course`: requests served one after the other;
* `calls_of_flat`, `keeps_call`, `keeps_ret`: what each of them makes of the call stack;
* `opened`, **`split_of_opened`**: the calls still open, the innermost last, and what was asked
  since;
* **`Course.frames`**: the stack holds the frames of the calls still open;
* `Unwinds`, **`calls_nest`**: each return restores what its call has saved, and the depth is what
  it was; a call that would nest too deep changes nothing.
-/

namespace DisplayList

open Process

/-! ## Requests that nest -/

namespace Request

/-- How much deeper the calls of a list are nested after a request. -/
def rise : Request → Int
  | call .. => 1
  | ret _ => -1
  | _ => 0

/-- What moves the list at position `i` about: branches, fetches, and new values for the
registers. -/
def Steers (i : Nat) : Request → Prop
  | call j _ _ | jump j _ _ | ret j | moveTo j _ => j = i
  | access j a => j = i ∧ a = .next
  | setRegisters _ => True
  | _ => False

instance (i : Nat) : DecidablePred (Steers i) := fun r => by
  cases r <;> unfold Steers <;> infer_instance

end Request

/-- How much deeper the calls are nested after some requests. -/
def level : List Request → Int
  | [] => 0
  | r :: rs => r.rise + level rs

@[simp] theorem level_nil : level [] = 0 := rfl

@[simp] theorem level_cons (r : Request) (rs : List Request) :
    level (r :: rs) = r.rise + level rs := rfl

@[simp] theorem level_append (rs rs' : List Request) :
    level (rs ++ rs') = level rs + level rs' := by
  induction rs with
  | nil => simp
  | cons r rs ih => simp [ih, Int.add_assoc]

/-- The requests never return from a call made before them, and from all that are made among
them. -/
structure Closed (rs : List Request) : Prop where
  above : ∀ n, 0 ≤ level (rs.take n)
  level : level rs = 0

/-- The requests steer a list on which `depth` calls are open, and never return from one of those,
nor nest deeper than the stack allows. -/
structure Nestable (i depth : Nat) (rs : List Request) : Prop where
  steers : ∀ r ∈ rs, r.Steers i
  above : ∀ n, 0 ≤ level (rs.take n)
  within : ∀ n, depth + level (rs.take n) ≤ CallStack.capacity

/-- The requests steer a list on which `depth` calls are open; calls and returns nest, and never
too deep. -/
structure WellNested (i depth : Nat) (rs : List Request) : Prop extends
  Nestable i depth rs, Closed rs

theorem forall_take_iff {P : List Request → Prop} {rs : List Request} :
    (∀ n, P (rs.take n)) ↔ ∀ n ≤ rs.length, P (rs.take n) := by
  refine ⟨fun h n _ => h n, fun h n => ?_⟩
  by_cases hn : n ≤ rs.length
  · exact h n hn
  · rw [List.take_of_length_le (by omega), ← List.take_length (l := rs)]
    exact h _ (Nat.le_refl _)

instance (i depth : Nat) (rs : List Request) : Decidable (WellNested i depth rs) :=
  decidable_of_iff ((∀ r ∈ rs, r.Steers i) ∧ (∀ n ≤ rs.length, 0 ≤ level (rs.take n)) ∧
    (∀ n ≤ rs.length, depth + level (rs.take n) ≤ CallStack.capacity) ∧ level rs = 0) <| by
    rw [← forall_take_iff (P := fun a => 0 ≤ DisplayList.level a),
      ← forall_take_iff (P := fun a => depth + DisplayList.level a ≤ CallStack.capacity)]
    exact ⟨fun ⟨hs, ha, hw, hl⟩ => ⟨⟨hs, ha, hw⟩, hl⟩,
      fun h => ⟨h.steers, h.above, h.within, h.level⟩⟩

theorem Nestable.of_append {i depth : Nat} {a b : List Request} (h : Nestable i depth (a ++ b)) :
    Nestable i depth a := by
  have htake : ∀ n, ∃ m, (a ++ b).take m = a.take n := by
    intro n
    refine ⟨min n a.length, ?_⟩
    rw [List.take_append_of_le_length (Nat.min_le_right ..), List.take_eq_take_iff]
    omega
  refine ⟨fun r hr => h.steers r (List.mem_append_left b hr), fun n => ?_, fun n => ?_⟩
  · obtain ⟨m, hm⟩ := htake n
    exact hm ▸ h.above m
  · obtain ⟨m, hm⟩ := htake n
    exact hm ▸ h.within m

theorem Nestable.level_mem {i depth : Nat} {rs : List Request} (h : Nestable i depth rs) :
    0 ≤ level rs ∧ depth + level rs ≤ CallStack.capacity := by
  have ha := h.above rs.length
  have hw := h.within rs.length
  rw [List.take_length] at ha hw
  exact ⟨ha, hw⟩

theorem closed_nil : Closed [] where
  above n := by simp
  level := rfl

theorem Closed.append {a b : List Request} (ha : Closed a) (hb : Closed b) : Closed (a ++ b) where
  above n := by
    have h := ha.above n
    have h' := hb.above (n - a.length)
    rw [List.take_append, level_append]
    omega
  level := by rw [level_append, ha.level, hb.level]; rfl

theorem closed_flat {r : Request} (h : r.rise = 0) : Closed [r] where
  above n := by cases n <;> simp [h]
  level := by simp [h]

theorem Closed.enclose {c r : Request} {b : List Request} (hc : c.rise = 1) (hb : Closed b)
    (hr : r.rise = -1) : Closed (c :: b ++ [r]) where
  above n := by
    cases n with
    | zero => simp
    | succ n =>
      have h := hb.above n
      have h' : -1 ≤ DisplayList.level ([r].take (n - b.length)) := by
        cases n - b.length <;> simp [hr]
      rw [List.cons_append, List.take_succ_cons, level_cons, List.take_append, level_append, hc]
      omega
  level := by simp [hc, hr, hb.level]

/-! ## Requests served one after the other -/

/-- Others who may do everything but move the list at position `i`, call or return on it, or set the
offset register. -/
structure ApartFrom (i : Nat) (w v : FrontEnd) : Prop where
  anybody : Anybody w v
  pc : (v.slot i).pc = (w.slot i).pc
  calls : (v.slot i).calls = (w.slot i).calls
  offset : v.registers.offset = w.registers.offset

/-- A request that was served, and what it found. -/
structure Turn where
  request : Request
  before : FrontEnd
  reply : Reply
  after : FrontEnd

/-- The requests of some turns. -/
def requests (t : List Turn) : List Request :=
  t.map Turn.request

/-- `Course i w t u`: the turns `t` lead from `w` to `u`, each beside others who leave the list at
position `i` where it is. -/
inductive Course (i : Nat) : FrontEnd → List Turn → FrontEnd → Prop
  | nil (w : FrontEnd) : Course i w [] w
  | cons {r : Request} {reply : Reply} {w v u : FrontEnd} {m : List Move} {t : List Turn} :
    Goes (ApartFrom i) r.serve w m (.done reply) v → Course i v t u →
    Course i w (⟨r, w, reply, v⟩ :: t) u

namespace Course

variable {i : Nat} {w v u : FrontEnd} {a b t : List Turn} {c : Turn}

theorem of_append (h : Course i w (a ++ b) u) : ∃ v, Course i w a v ∧ Course i v b u := by
  induction a generalizing w with
  | nil => exact ⟨w, .nil w, h⟩
  | cons c a ih =>
    cases h with
    | cons hg h =>
      obtain ⟨v, ha, hb⟩ := ih h
      exact ⟨v, .cons hg ha, hb⟩

theorem at_turn (h : Course i w (a ++ c :: b) u) : Course i w a c.before ∧
    (∃ m, Goes (ApartFrom i) c.request.serve c.before m (.done c.reply) c.after) ∧
    Course i c.after b u := by
  obtain ⟨v, ha, hb⟩ := h.of_append
  cases hb with
  | cons hg hb => exact ⟨ha, ⟨_, hg⟩, hb⟩

theorem reach (h : Course i w t u) : Relation.ReflTransGen Anybody w u := by
  induction h with
  | nil => exact .refl
  | cons hg _ ih => exact (hg.mono fun _ _ ho => ho.anybody).anybody.trans ih

end Course

/-! ## What a request makes of the call stack -/

section Keeps

variable {i : Nat} {w v u : FrontEnd} {m : List Move} {reply : Reply}

/-- What a list at position `i` is like while it has been left alone since `w`. -/
def Unmoved (i : Nat) (w v : FrontEnd) : Prop :=
  v.slots.size = w.slots.size ∧ (v.slot i).pc = (w.slot i).pc ∧
    (v.slot i).calls = (w.slot i).calls ∧ v.registers.offset = w.registers.offset

theorem stable_unmoved : Stable (ApartFrom i) fun _ v => Unmoved i w v := by
  rintro t v u ho ⟨hsize, hpc, hcalls, hoffset⟩
  exact ⟨(size_anybody ho.anybody).trans hsize, ho.pc.trans hpc, ho.calls.trans hcalls,
    ho.offset.trans hoffset⟩

/-- The frame that a call saves. -/
def FrontEnd.frame (w : FrontEnd) (i : Nat) : Frame :=
  ⟨(w.slot i).pc, w.registers.offset⟩

theorem stable_calls {l : List Frame} :
    Stable (ApartFrom i) fun _ v => (v.slot i).calls.toList = l := by
  intro t v u ho hv
  rw [ho.calls]
  exact hv

/-- **A call with room left** saves a frame. -/
theorem keeps_call (hi : i < w.slots.size) (hd : (w.slot i).calls.depth < CallStack.capacity)
    (mode : Mode) (arg : UInt32) :
    Keeps (ApartFrom i) (fun _ v => Unmoved i w v) (Operation.call i mode arg) (fun _ => True)
      fun x _ u => x = .ok () ∧
        (u.slot i).calls.toList = (w.slot i).calls.toList ++ [w.frame i] := by
  refine keeps_perform stable_unmoved (fun _ _ _ => trivial) fun t v hv => ?_
  have hgoes : Keeps (ApartFrom i) (fun _ v => Unmoved i w v)
      (change i (.call (mode.target v.registers arg) v.registers.offset)) (fun _ => True)
      fun x _ u => x = .ok () ∧
        (u.slot i).calls.toList = (w.slot i).calls.toList ++ [w.frame i] := by
    have hoffset := hv.2.2.2
    refine keeps_act stable_unmoved (fun _ _ _ => trivial) fun t v' hv' => ?_
    obtain ⟨hsize, hpc, hcalls, -⟩ := hv'
    cases hpush : (v'.slot i).calls.push ⟨(v'.slot i).pc, v.registers.offset⟩ with
    | error e =>
      have hfull := (CallStack.push_eq_error_iff.1 hpush).1
      rw [hcalls] at hfull
      omega
    | ok calls =>
      have hcall : (v'.slot i).call (mode.target v.registers arg) v.registers.offset =
          .ok (Slot.moveTo { v'.slot i with calls } (mode.target v.registers arg)) := by
        unfold Slot.call
        rw [hpush]
        rfl
      have hp : (Action.change i (.call (mode.target v.registers arg)
          v.registers.offset)).perform v' = (.ok (), v'.setSlot i
            (Slot.moveTo { v'.slot i with calls } (mode.target v.registers arg))) := by
        simp only [Action.perform, Action.onSlot, Change.perform, hcall]
      rw [hp]
      refine Keeps.now (P := fun _ u => (u.slot i).calls.toList =
        (w.slot i).calls.toList ++ [w.frame i]) ?_ ?_
      · exact keeps_stay stable_calls (fun _ _ _ => trivial) fun _ _ hu => ⟨rfl, hu⟩
      · rw [FrontEnd.slot_setSlot, if_pos ⟨rfl, hsize ▸ hi⟩, Slot.calls_moveTo,
          CallStack.toList_of_push hpush, hcalls, hpc, hoffset]
        rfl
  exact hgoes.now hv

/-- The frame `f` is off the stack of the list at position `i`, which is back where it was called
from. -/
def Returned (i : Nat) (l : List Frame) (f : Frame) (u : FrontEnd) : Prop :=
  (u.slot i).calls.toList = l ∧ (u.slot i).pc = Address.aligned f.returnPc

/-- The list has returned, and the offset register is what it was. -/
def Restored (i : Nat) (l : List Frame) (f : Frame) (u : FrontEnd) : Prop :=
  Returned i l f u ∧ u.registers.offset = f.offset

theorem stable_returned {l : List Frame} {f : Frame} :
    Stable (ApartFrom i) fun _ u => Returned i l f u :=
  fun t v u ho hv => ⟨stable_calls t v u ho hv.1, ho.pc.trans hv.2⟩

theorem stable_restored {l : List Frame} {f : Frame} :
    Stable (ApartFrom i) fun _ u => Restored i l f u :=
  fun t v u ho hv => ⟨stable_returned t v u ho hv.1, ho.offset.trans hv.2⟩

/-- **A return** takes off the innermost frame, and puts back what was saved there. -/
theorem keeps_ret {l : List Frame} {f : Frame} (hi : i < w.slots.size)
    (hl : (w.slot i).calls.toList = l ++ [f]) :
    Keeps (ApartFrom i) (fun _ v => Unmoved i w v) (Operation.ret i) (fun _ => True)
      fun _ _ u => Restored i l f u := by
  refine keeps_perform stable_unmoved (fun _ _ _ => trivial) fun t v hv => ?_
  obtain ⟨hsize, hpc, hcalls, -⟩ := hv
  obtain ⟨x, hx⟩ : ∃ x, (v.slot i).calls.pop? = some x := by
    refine Option.ne_none_iff_exists'.1 fun hn => ?_
    rw [CallStack.pop?_eq_none_iff, hcalls, hl] at hn
    simp at hn
  obtain ⟨g, calls⟩ := x
  obtain ⟨rfl, rfl⟩ : l = calls.toList ∧ f = g := by
    have h := CallStack.toList_of_pop? hx
    rw [hcalls, hl] at h
    simpa using List.append_inj' h rfl
  have hp : (Action.change i .ret).perform v = (some f.offset,
      v.setSlot i (Slot.moveTo { v.slot i with calls } f.returnPc)) := by
    simp only [Action.perform, Action.onSlot, Change.perform, Slot.ret?, hx, Option.map_some]
  have hback : Returned i calls.toList f ((Action.change i .ret).perform v).2 := by
    obtain ⟨fetcher, hm⟩ := Slot.moveTo_frame { v.slot i with calls } f.returnPc
    rw [hp, Returned, FrontEnd.slot_setSlot, if_pos ⟨rfl, hsize ▸ hi⟩, hm]
    exact ⟨rfl, rfl⟩
  refine Keeps.now (P := fun _ u => Returned i calls.toList f u) ?_ hback
  rw [hp]
  -- The frame is off the stack before the offset register is put back.
  refine keeps_perform stable_returned (fun _ _ _ => trivial) fun t v hv => ?_
  refine Keeps.now (P := fun _ u => Returned i calls.toList f u) ?_ hv
  refine keeps_act stable_returned (fun _ _ _ => trivial) fun t u hu => ?_
  refine Keeps.now (P := fun _ u => Restored i calls.toList f u) ?_ ⟨hu, rfl⟩
  exact keeps_stay stable_restored (fun _ _ _ => trivial) fun _ _ hu => hu

/-- An action that leaves the calls of the list at position `i` as they are. -/
def Action.SparesCalls (i : Nat) (a : Action) : Prop :=
  ∀ m s, (a.onto i m s).calls = s.calls

theorem sparesCalls_access (a : Slot.Access) : (Action.access i a).SparesCalls i := by
  intro m s
  obtain ⟨pc, fetcher, hs⟩ := s.tryAccess_frame m a
  simp [Action.onto, hs]

theorem sparesCalls_accessWith (x : Address) (c : Cursor) (a : Slot.Access) :
    (Action.accessWith i x c a).SparesCalls i := by
  intro m s
  obtain ⟨pc, fetcher, hs⟩ := s.accessWith_frame m x c a
  simp [Action.onto, hs]

theorem only_sparesCalls {r : Request} (hr : r.Steers i) (h : r.rise = 0) :
    Only (Action.SparesCalls i) r.serve := by
  cases r with
  | jump j mode arg =>
    obtain rfl : j = i := hr
    refine only_bind (only_bind (only_perform fun m s => rfl) fun r => ?_) fun _ => only_pure _
    exact only_perform fun m s => by simp [Action.onto_change, Change.perform, Slot.calls_moveTo]
  | moveTo j a =>
    obtain rfl : j = i := hr
    refine only_bind (only_perform fun m s => ?_) fun _ => only_pure _
    simp [Action.onto_change, Change.perform, Slot.calls_moveTo]
  | access j a =>
    obtain ⟨rfl, rfl⟩ := hr
    have hwith : ∀ x c, (Action.accessWith j x c .next).SparesCalls j :=
      fun x c => sparesCalls_accessWith x c _
    exact only_bind (only_tries (sparesCalls_access _) fun x c _ => hwith x c) fun _ => only_pure _
  | setRegisters r => exact only_bind (only_perform fun m s => rfl) fun _ => only_pure _
  | call j mode arg => cases h
  | ret j => cases h
  | _ => exact hr.elim

/-- **What is neither a call nor a return** leaves the stack as it is. -/
theorem calls_of_flat {r : Request} (hr : r.Steers i) (h : r.rise = 0)
    (hg : Goes (ApartFrom i) r.serve w m (.done reply) u) :
    (u.slot i).calls = (w.slot i).calls := by
  have hk : Keeps (ApartFrom i) (fun _ v => (v.slot i).calls = (w.slot i).calls) r.serve
      (fun _ => True) fun _ _ v => (v.slot i).calls = (w.slot i).calls := by
    refine keeps_only (fun t v u ho hv => ho.calls.trans hv) (fun a v ha hv => ?_)
      (fun r v hv => ?_) (only_sparesCalls hr h)
    · exact Action.slot_perform_of (P := fun s => s.calls = (w.slot i).calls) hv
        ((ha _ _).trans hv)
    · rw [FrontEnd.slot_tell]
      exact hv
  exact (hk.ends rfl hg).2

theorem toList_of_call {mode : Mode} {arg : UInt32} (hi : i < w.slots.size)
    (hd : (w.slot i).calls.depth < CallStack.capacity)
    (hg : Goes (ApartFrom i) (Request.call i mode arg).serve w m (.done reply) u) :
    reply = .unit ∧ (u.slot i).calls.toList = (w.slot i).calls.toList ++ [w.frame i] := by
  have hk := keeps_bind (keeps_call hi hd mode arg) (f := fun x => .done
    (Reply.ofExcept (fun _ => .unit) x)) (Q := fun reply _ u => reply = .unit ∧
      (u.slot i).calls.toList = (w.slot i).calls.toList ++ [w.frame i]) fun x => ?_
  · exact (hk.ends ⟨rfl, rfl, rfl, rfl⟩ hg).2
  · refine keeps_stay (fun t v u ho hv => ⟨hv.1, stable_calls t v u ho hv.2⟩)
      (fun _ _ _ => trivial) fun _ _ hu => ?_
    rw [hu.1]
    exact ⟨rfl, hu.2⟩

theorem restored_of_ret {l : List Frame} {f : Frame} (hi : i < w.slots.size)
    (hl : (w.slot i).calls.toList = l ++ [f])
    (hg : Goes (ApartFrom i) (Request.ret i).serve w m (.done reply) u) : Restored i l f u := by
  have hk := keeps_bind (keeps_ret hi hl) (f := fun _ => .done Reply.unit)
    (Q := fun _ _ u => Restored i l f u) fun _ =>
      keeps_stay stable_restored (fun _ _ _ => trivial) fun _ _ hu => hu
  exact (hk.ends ⟨rfl, rfl, rfl, rfl⟩ hg).2

theorem returns_of_steers {r : Request} (hr : r.Steers i) (w : FrontEnd) : Returns r.serve w := by
  cases r with
  | call j mode arg => exact ⟨_, _, _, .act (.act (.stay ..))⟩
  | jump j mode arg => exact ⟨_, _, _, .act (.act (.stay ..))⟩
  | moveTo j a => exact ⟨_, _, _, .act (.stay ..)⟩
  | setRegisters r => exact ⟨_, _, _, .act (.stay ..)⟩
  | access j a =>
    obtain ⟨rfl, rfl⟩ := hr
    obtain ⟨t, x, u, hg⟩ := access_returns .next w j
    have hrest : Goes Nobody (.done (Reply.ofExcept .word x)) u []
      (.done (Reply.ofExcept .word x)) u := .stay ..
    exact ⟨_, _, _, (hg.bind _).trans hrest⟩
  | ret j =>
    -- The offset register is only set if a frame was taken off the stack.
    have hrest : ∀ x v, Returns ((match x with
        | none => pure ()
        | some offset => perform .registers >>= fun r =>
          perform (.setRegisters { r with offset }) : Process Unit).thenUnit) v := by
      intro x v
      cases x with
      | none => exact ⟨_, _, _, .stay ..⟩
      | some offset => exact ⟨_, _, _, .act (.act (.stay ..))⟩
    obtain ⟨t, x, u, hg⟩ := hrest ((Action.change j .ret).perform w).1
      ((Action.change j .ret).perform w).2
    exact ⟨_, _, _, .act hg⟩
  | _ => exact hr.elim

/-- **A call on a full stack** fails, and leaves everything as it is. -/
theorem gives_overflow (hd : (w.slot i).calls.depth = CallStack.capacity) (mode : Mode)
    (arg : UInt32) :
    Gives (Request.call i mode arg).serve w (.failure (.overflow CallStack.capacity)) w := by
  have hcall : (w.slot i).call (mode.target w.registers arg) w.registers.offset =
      .error (.overflow CallStack.capacity) := by
    unfold Slot.call
    rw [CallStack.push_eq_error_iff.2 ⟨hd, rfl⟩]
    rfl
  have hp : (Action.change i (.call (mode.target w.registers arg) w.registers.offset)).perform w =
      (.error (.overflow CallStack.capacity), w) := by
    simp only [Action.perform, Action.onSlot, Change.perform, hcall, FrontEnd.setSlot_slot]
  refine .act (.act ?_)
  change Gives (.done (Reply.ofExcept (fun _ => .unit) ((Action.change i (.call
    (mode.target w.registers arg) w.registers.offset)).perform w).1))
    ((Action.change i (.call (mode.target w.registers arg) w.registers.offset)).perform w).2 _ w
  rw [hp]
  exact gives_done ..

end Keeps

/-! ## The calls still open -/

/-- The calls still open after one more turn. -/
def stillOpen (q : List Turn) (c : Turn) : List Turn :=
  if c.request.rise = 1 then q ++ [c]
  else if c.request.rise = -1 then q.dropLast
  else q

/-- The calls that are still open after some turns, the innermost last. -/
def opened (t : List Turn) : List Turn :=
  t.foldl stillOpen []

section Opened

variable {i : Nat} {t q : List Turn} {c : Turn}

theorem opened_concat : opened (t ++ [c]) = stillOpen (opened t) c := by
  simp [opened]

theorem opened_call (h : c.request.rise = 1) : opened (t ++ [c]) = opened t ++ [c] := by
  rw [opened_concat, stillOpen, if_pos h]

theorem opened_ret (h : c.request.rise = -1) : opened (t ++ [c]) = (opened t).dropLast := by
  rw [opened_concat, stillOpen, h]
  rfl

theorem opened_flat (h : c.request.rise = 0) : opened (t ++ [c]) = opened t := by
  rw [opened_concat, stillOpen, h]
  rfl

theorem requests_append (a b : List Turn) : requests (a ++ b) = requests a ++ requests b :=
  List.map_append

theorem Nestable.before {depth : Nat} {a b : List Turn}
    (h : Nestable i depth (requests (a ++ b))) : Nestable i depth (requests a) := by
  rw [requests_append] at h
  exact h.of_append

theorem Nestable.upto {depth : Nat} {a b : List Turn}
    (h : Nestable i depth (requests (a ++ c :: b))) : Nestable i depth (requests (a ++ [c])) := by
  rw [List.append_cons] at h
  exact h.before

theorem Request.rise_cases (r : Request) : r.rise = 1 ∨ r.rise = -1 ∨ r.rise = 0 := by
  cases r with
  | call => exact .inl rfl
  | ret => exact .inr (.inl rfl)
  | _ => exact .inr (.inr rfl)

theorem Request.eq_call {r : Request} (hr : r.Steers i) (h : r.rise = 1) :
    ∃ mode arg, r = .call i mode arg := by
  cases r with
  | call j mode arg => exact ⟨mode, arg, by rw [show j = i from hr]⟩
  | ret => cases h
  | _ => cases h

theorem Request.eq_ret {r : Request} (hr : r.Steers i) (h : r.rise = -1) : r = .ret i := by
  cases r with
  | ret j => rw [show j = i from hr]
  | call => cases h
  | _ => cases h

/-- **The innermost of the calls still open**, and that all calls made since then have returned. -/
theorem split_of_opened (h : opened t = q ++ [c]) : ∃ a b, t = a ++ c :: b ∧ opened a = q ∧
    c.request.rise = 1 ∧ Closed (requests b) := by
  -- A return drops the call that encloses it, which stands somewhere before: the induction is on
  -- the length.
  induction hn : t.length using Nat.strongRecOn generalizing t q c with
  | _ n ih =>
    subst hn
    rcases List.eq_nil_or_concat t with rfl | ⟨t, x, rfl⟩
    · simp [opened] at h
    rw [List.concat_eq_append] at h ih ⊢
    rcases x.request.rise_cases with hx | hx | hx
    · rw [opened_call hx] at h
      obtain ⟨rfl, hc⟩ := List.append_inj' h rfl
      obtain rfl : x = c := by simpa using hc
      exact ⟨t, [], rfl, rfl, hx, closed_nil⟩
    · rw [opened_ret hx] at h
      obtain ⟨d, ho⟩ : ∃ d, opened t = q ++ [c] ++ [d] := by
        rcases List.eq_nil_or_concat (opened t) with ho | ⟨o, d, ho⟩
        · simp [ho] at h
        · rw [List.concat_eq_append] at ho
          rw [ho, List.dropLast_concat] at h
          exact ⟨d, by rw [ho, h]⟩
      obtain ⟨a, b, rfl, ha, hd, hb⟩ := ih t.length (by simp) ho rfl
      obtain ⟨a', b', rfl, ha', hc, hb'⟩ := ih a.length (by simp) ha rfl
      refine ⟨a', b' ++ (d :: b ++ [x]), by simp, ha', hc, ?_⟩
      rw [requests_append]
      have henclosed : requests (d :: b ++ [x]) = d.request :: requests b ++ [x.request] := by
        simp [requests]
      rw [henclosed]
      exact hb'.append (hb.enclose hd hx)
    · rw [opened_flat hx] at h
      obtain ⟨a, b, rfl, ha, hc, hb⟩ := ih t.length (by simp) h rfl
      refine ⟨a, b ++ [x], by simp, ha, hc, ?_⟩
      rw [requests_append]
      exact hb.append (closed_flat hx)

end Opened

/-! ## The stack in the course of the requests -/

/-- The stack of the list at position `i` holds what it held in `w`, and the frames of the calls
that are still open after the turns `t`. -/
structure Stacked (i : Nat) (w : FrontEnd) (t : List Turn) (u : FrontEnd) : Prop where
  toList : (u.slot i).calls.toList =
    (w.slot i).calls.toList ++ (opened t).map fun c => c.before.frame i
  length : ((opened t).length : Int) = level (requests t)

section Stacked

variable {i : Nat} {w v u : FrontEnd} {t : List Turn} {c : Turn} {m : List Move}

theorem Stacked.depth (h : Stacked i w t v) :
    ((v.slot i).calls.depth : Int) = (w.slot i).calls.depth + level (requests t) := by
  have hl := congrArg List.length h.toList
  rw [List.length_append, List.length_map, CallStack.length_toList,
    CallStack.length_toList] at hl
  rw [← h.length, hl]
  push_cast
  rfl

theorem Stacked.call (h : Stacked i w t c.before) (hi : i < c.before.slots.size)
    (hfit : Nestable i (w.slot i).calls.depth (requests (t ++ [c]))) (hc : c.request.rise = 1)
    (hg : Goes (ApartFrom i) c.request.serve c.before m (.done c.reply) c.after) :
    c.reply = .unit ∧ (c.after.slot i).calls.toList =
      (c.before.slot i).calls.toList ++ [c.before.frame i] := by
  have hroom := hfit.level_mem.2
  have hdepth := h.depth
  rw [requests_append] at hroom
  have hone : level (requests [c]) = 1 := by simp [requests, hc]
  rw [level_append, hone] at hroom
  obtain ⟨mode, arg, hr⟩ := Request.eq_call (hfit.steers c.request (by simp [requests])) hc
  rw [hr] at hg
  exact toList_of_call hi (by omega) hg

theorem Stacked.ret (h : Stacked i w t c.before) (hi : i < c.before.slots.size)
    (hfit : Nestable i (w.slot i).calls.depth (requests (t ++ [c]))) (hc : c.request.rise = -1)
    (hg : Goes (ApartFrom i) c.request.serve c.before m (.done c.reply) c.after) :
    ∃ q d, opened t = q ++ [d] ∧ Restored i ((w.slot i).calls.toList ++
      q.map fun c => c.before.frame i) (d.before.frame i) c.after := by
  have habove := hfit.level_mem.1
  rw [requests_append] at habove
  have hone : level (requests [c]) = -1 := by simp [requests, hc]
  rw [level_append, hone, ← h.length] at habove
  rcases List.eq_nil_or_concat (opened t) with ho | ⟨q, d, ho⟩
  · rw [ho] at habove
    simp at habove
  rw [List.concat_eq_append] at ho
  refine ⟨q, d, ho, ?_⟩
  have hr := Request.eq_ret (hfit.steers c.request (by simp [requests])) hc
  rw [hr] at hg
  refine restored_of_ret hi ?_ hg
  rw [h.toList, ho, List.map_append, ← List.append_assoc]
  rfl

/-- **One more turn.** -/
theorem Stacked.concat (h : Stacked i w t c.before) (hi : i < c.before.slots.size)
    (hfit : Nestable i (w.slot i).calls.depth (requests (t ++ [c])))
    (hg : Goes (ApartFrom i) c.request.serve c.before m (.done c.reply) c.after) :
    Stacked i w (t ++ [c]) c.after := by
  have hlevel : level (requests (t ++ [c])) = level (requests t) + c.request.rise := by
    simp [requests]
  have hlength := h.length
  rcases c.request.rise_cases with hc | hc | hc
  · have hcall := (h.call hi hfit hc hg).2
    refine ⟨?_, ?_⟩
    · rw [hcall, h.toList, opened_call hc, List.map_append, List.append_assoc]
      rfl
    · rw [opened_call hc, List.length_append, List.length_singleton, hlevel, hc]
      omega
  · obtain ⟨q, d, ho, hret⟩ := h.ret hi hfit hc hg
    rw [ho, List.length_append, List.length_singleton] at hlength
    refine ⟨?_, ?_⟩
    · rw [opened_ret hc, ho, List.dropLast_concat]
      exact hret.1.1
    · rw [opened_ret hc, ho, List.dropLast_concat, hlevel, hc]
      omega
  · have hflat := calls_of_flat (hfit.steers c.request (by simp [requests])) hc hg
    refine ⟨?_, ?_⟩
    · rw [opened_flat hc, hflat, h.toList]
    · rw [opened_flat hc, hlevel, hc]
      omega

theorem Course.size (h : Course i w t u) : u.slots.size = w.slots.size := by
  induction h with
  | nil => rfl
  | cons hg _ ih => exact ih.trans (goes_size (hg.mono fun _ _ ho => ho.anybody)).1

/-- **The stack holds the frames of the calls still open.** -/
theorem Course.frames (hi : i < w.slots.size) (h : Course i w t u)
    (hfit : Nestable i (w.slot i).calls.depth (requests t)) : Stacked i w t u := by
  induction t using List.reverseRecOn generalizing u with
  | nil =>
    cases h
    exact ⟨by simp [opened], rfl⟩
  | append_singleton t c ih =>
    obtain ⟨ht, ⟨m, hg⟩, hu⟩ := h.at_turn
    cases hu
    exact (ih ht hfit.before).concat (ht.size ▸ hi) hfit hg

theorem exists_course {rs : List Request} (hrs : ∀ r ∈ rs, r.Steers i) (w : FrontEnd) :
    ∃ t u, requests t = rs ∧ Course i w t u := by
  induction rs generalizing w with
  | nil => exact ⟨[], w, rfl, .nil w⟩
  | cons r rs ih =>
    obtain ⟨m, reply, v, hg⟩ := returns_of_steers (hrs r List.mem_cons_self) w
    obtain ⟨t, u, ht, hc⟩ := ih (fun r hr => hrs r (List.mem_cons_of_mem _ hr)) v
    exact ⟨⟨r, w, reply, v⟩ :: t, u, by rw [← ht]; rfl, .cons (hg.mono fun _ _ ho => ho.elim) hc⟩

end Stacked

/-! ## Exact nesting -/

/-- The call `c` is the one that the next turn after `a ++ c :: b` would return from. -/
def CallOf (i : Nat) (c : Turn) (b : List Turn) : Prop :=
  (∃ mode arg, c.request = .call i mode arg) ∧ Closed (requests b)

/-- **Each return restores** where the list was, and the offset register, just before its call. -/
def Unwinds (i : Nat) (t : List Turn) : Prop :=
  ∀ p r d, t = p ++ r :: d → r.request = .ret i → ∃ a c b, p = a ++ c :: b ∧ CallOf i c b ∧
    (r.after.slot i).pc = (c.before.slot i).pc ∧
    r.after.registers.offset = c.before.registers.offset

section CallsNest

variable {i : Nat} {w₀ w u : FrontEnd} {t : List Turn}

theorem Course.unwinds (hfresh : w₀.Fresh) (hreach : Relation.ReflTransGen Anybody w₀ w)
    (hi : i < w.slots.size) (h : Course i w t u)
    (hfit : Nestable i (w.slot i).calls.depth (requests t)) : Unwinds i t := by
  rintro p r d rfl hr
  obtain ⟨hp, ⟨m, hg⟩, -⟩ := h.at_turn
  have hbefore := hfit.before
  obtain ⟨q, c, ho, hret⟩ :=
    (hp.frames hi hbefore).ret (hp.size ▸ hi) hfit.upto (by rw [hr]; rfl) hg
  obtain ⟨a, b, rfl, -, hc, hb⟩ := split_of_opened ho
  have hcall := Request.eq_call (hbefore.steers c.request (by simp [requests])) hc
  -- A list is always at an instruction address, so what was saved needs no rounding.
  have hpc := (placed_reachable hfresh (hreach.trans hp.at_turn.1.reach) i).pc
  exact ⟨a, c, b, rfl, ⟨hcall, hb⟩, hret.1.2.trans hpc, hret.2⟩

theorem Course.calls_succeed (hi : i < w.slots.size) (h : Course i w t u)
    (hfit : Nestable i (w.slot i).calls.depth (requests t)) :
    ∀ c ∈ t, c.request.rise = 1 → c.reply = .unit := by
  intro c hc hrise
  obtain ⟨p, d, rfl⟩ := List.append_of_mem hc
  obtain ⟨hp, ⟨m, hg⟩, -⟩ := h.at_turn
  exact ((hp.frames hi hfit.before).call (hp.size ▸ hi) hfit.upto hrise hg).1

/-- **Calls and returns nest exactly.** Whatever is asked of a list between them, each return
restores where the list was, and the offset register, just before its call; every call succeeds, and
at the end the same calls are open as before. A call on a full stack fails and changes nothing. -/
theorem calls_nest (hfresh : w₀.Fresh) (hreach : Relation.ReflTransGen Anybody w₀ w)
    (hi : i < w.slots.size) {rs : List Request} (hrs : WellNested i (w.slot i).calls.depth rs) :
    (∃ t u, requests t = rs ∧ Course i w t u) ∧
    (∀ t u, requests t = rs → Course i w t u → Unwinds i t ∧
      (∀ c ∈ t, c.request.rise = 1 → c.reply = .unit) ∧
      (u.slot i).calls.toList = (w.slot i).calls.toList ∧
      (u.slot i).calls.depth = (w.slot i).calls.depth) ∧
    ∀ v j mode arg, (v.slot j).calls.depth = 32 →
      Gives (Request.call j mode arg).serve v (.failure (.overflow 32)) v := by
  refine ⟨exists_course hrs.steers w, ?_, fun v j mode arg hd => gives_overflow hd mode arg⟩
  rintro t u rfl h
  have hstacked := h.frames hi hrs.toNestable
  have hnone : opened t = [] := by
    have hlength := hstacked.length
    rw [hrs.level] at hlength
    exact List.length_eq_zero_iff.1 (by omega)
  have htoList : (u.slot i).calls.toList = (w.slot i).calls.toList := by
    rw [hstacked.toList, hnone, List.map_nil, List.append_nil]
  refine ⟨h.unwinds hfresh hreach hi hrs.toNestable, h.calls_succeed hi hrs.toNestable, htoList, ?_⟩
  rw [← CallStack.length_toList, htoList, CallStack.length_toList]

/-- Two calls by different registers, with branches, a fetch and changes of the registers between
them. -/
def nestedCalls : List Request :=
  [.setRegisters ⟨0x08000000, 0x40⟩, .moveTo 0 0x08800003, .call 0 .relativeOffset 0x900000,
    .setRegisters ⟨0x09000000, 0xFFFFFFFC⟩, .access 0 .next, .call 0 .relative 0x10,
    .setRegisters {}, .jump 0 .absolute 0xC8000001, .ret 0, .moveTo 0 0, .ret 0]

theorem calls_nest_twice : (Replay.frontEnd {}).Fresh ∧
    WellNested 0 ((Replay.frontEnd {}).slot 0).calls.depth nestedCalls ∧
    ∃ t u, requests t = nestedCalls ∧ Course 0 (Replay.frontEnd {}) t u ∧ Unwinds 0 t ∧
      (u.slot 0).calls.depth = 0 := by
  have hfresh : (Replay.frontEnd {}).Fresh := FrontEnd.fresh_of_slots rfl
  have hrs : WellNested 0 ((Replay.frontEnd {}).slot 0).calls.depth nestedCalls := by
    decide +kernel
  obtain ⟨⟨t, u, ht, hc⟩, hall, -⟩ := calls_nest hfresh .refl (by decide +kernel) hrs
  obtain ⟨hunwinds, -, -, hdepth⟩ := hall t u ht hc
  exact ⟨hfresh, hrs, t, u, ht, hc, hunwinds, hdepth.trans (by decide +kernel)⟩

end CallsNest

end DisplayList

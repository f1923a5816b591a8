import DisplayList.Proofs.Access
import DisplayList.Proofs.Following
import DisplayList.Replay

/-!
# Cursors are transparent

However the lists of a front end are steered, by however many processes at once, and whatever
windows the producers supply: a fetch is what it would be if there were no cursors at all, a read
of memory at the instruction address. This holds as long as every cursor is found in guest memory or
supplied over whole words at a multiple of four, and nobody moves a cursor away from the instruction
address by hand.

* `Action.Tidy`: the actions that heed this;
* `FrontEnd.Follows`, **`Follows.reach`**: the cursor of every list is at its instruction address,
  after any number of such actions;
* **`next_transparent`**: at one moment of an access, the list does an uncached fetch.
-/

namespace DisplayList

/-- Nobody gives a list a cursor out of place: a cursor is found in guest memory, or is a producer's
over whole words at a multiple of four, and is not moved by hand. -/
def Action.Tidy : Action → Prop
  | .change _ (.useCursor _) => False
  | .change _ (.moveStallWith _ window) => window.cursor.Tidy
  | .access _ (.rewind _) => False
  | .accessWith _ _ _ (.rewind _) => False
  | .accessWith _ address c _ => Cursor.openAt address 4 = .ok c
  | _ => True

theorem Slot.Follows.onto {a : Action} {s : Slot} (h : s.Follows) (ha : a.Tidy) (i : Nat)
    (m : Memory) : (a.onto i m s).Follows := by
  cases a with
  | change j c =>
    unfold Action.onto
    dsimp only
    split
    · cases c with
      | init sub => exact follows_init s sub
      | reset => exact follows_clear _
      | moveTo a => exact h.moveTo a
      | call target offset =>
        unfold Change.perform
        dsimp only
        split
        next s' hs => exact h.call hs
        next => exact h
      | ret =>
        unfold Change.perform
        dsimp only
        split
        next offset s' hs => exact h.ret hs
        next => exact h
      | moveStall a => exact h.moveStall a
      | moveStallWith a window => exact h.moveStallWith a ha
      | useCursor c => exact ha.elim
      | _ => exact ⟨h.aligned, h.fetcher⟩
    · exact h
  | await j =>
    unfold Action.onto
    dsimp only
    split
    · exact ⟨h.aligned, h.fetcher⟩
    · exact h
  | access j a =>
    unfold Action.onto
    dsimp only
    split
    · refine h.tryAccess fun n hn => ?_
      rw [hn] at ha
      exact ha
    · exact h
  | accessWith j address c a =>
    unfold Action.onto
    dsimp only
    split
    · cases a with
      | next => exact h.accessWith (by simp) ha
      | previous => exact h.accessWith (by simp) ha
      | rewind n => exact ha.elim
    · exact h
  | _ => exact h

namespace FrontEnd

/-- Every list was just made. -/
def Fresh (w : FrontEnd) : Prop :=
  ∀ i, ∃ id, w.slot i = Slot.new id

/-- The cursor of every list is at its instruction address. -/
def Follows (w : FrontEnd) : Prop :=
  ∀ i, (w.slot i).Follows

/-- The front end without its fetchers. -/
def bare (w : FrontEnd) : FrontEnd :=
  { w with slots := w.slots.map Slot.bare }

/-- Fetches the next word of a list without a cursor. -/
def fetch (w : FrontEnd) (i : Nat) : Except Failure UInt32 × FrontEnd :=
  Action.onSlot w i (·.fetch w.memory)

theorem fresh_of_slots {w : FrontEnd} {n : Nat} (h : w.slots = (Array.range n).map Slot.new) :
    w.Fresh := by
  intro i
  refine ⟨i, ?_⟩
  unfold slot
  rw [h, Array.getD_eq_getD_getElem?, Array.getElem?_map, Array.getElem?_range]
  split
  · rfl
  · rfl

theorem Fresh.follows {w : FrontEnd} (h : w.Fresh) : w.Follows := by
  intro i
  obtain ⟨id, hi⟩ := h i
  rw [hi]
  exact Slot.follows_new id

/-- **A tidy action leaves every cursor at its instruction address.** -/
theorem Follows.perform {w : FrontEnd} {a : Action} (h : w.Follows) (ha : a.Tidy) :
    (a.perform w).2.Follows :=
  fun i => Action.slot_perform_of (h i) ((h i).onto ha i w.memory)

theorem Follows.tell {w : FrontEnd} (h : w.Follows) (r : Report) : (w.tell r).2.Follows := by
  intro i
  rw [slot_tell]
  exact h i

theorem Follows.step {w v : FrontEnd} (hs : Process.Somebody Action.Tidy w v) (h : w.Follows) :
    v.Follows := by
  cases hs with
  | act ha => exact h.perform ha
  | tell r => exact h.tell r

/-- **So do any number of tidy actions**, whoever does them. -/
theorem Follows.reach {w v : FrontEnd}
    (hs : Relation.ReflTransGen (Process.Somebody Action.Tidy) w v) (h : w.Follows) :
    v.Follows := by
  induction hs with
  | refl => exact h
  | tail _ hl ih => exact ih.step hl

theorem bare_setSlot (w : FrontEnd) (i : Nat) (s : Slot) :
    (w.setSlot i s).bare = w.bare.setSlot i s.bare := by
  unfold bare setSlot
  dsimp only
  rw [Array.map_setIfInBounds]

theorem bare_fetch {w : FrontEnd} {i : Nat} {s : Slot}
    (h : s.bare = ((w.slot i).fetch w.memory).2.bare) :
    (w.setSlot i s).bare = (w.fetch i).2.bare := by
  unfold fetch Action.onSlot
  dsimp only
  rw [bare_setSlot, bare_setSlot, h]

end FrontEnd
/-! ## Accesses beside others -/

namespace Process

variable {others : FrontEnd → FrontEnd → Prop} {w : FrontEnd} {i : Nat}

/-- What happens before and after the one moment at which an operation counts: the others act, and
the host hears something. -/
inductive Meanwhile (others : FrontEnd → FrontEnd → Prop) : FrontEnd → FrontEnd → Prop
  | other {w v : FrontEnd} : others w v → Meanwhile others w v
  | tell (r : Report) (w : FrontEnd) : Meanwhile others w (w.tell r).2

/-- The access `r` from `w` to `v` is an uncached fetch at one moment of it. -/
def Fetches (others : FrontEnd → FrontEnd → Prop) (i : Nat) (w : FrontEnd)
    (r : Except Failure UInt32) (v : FrontEnd) : Prop :=
  ∃ u u', Relation.ReflTransGen (Meanwhile others) w u ∧
    Relation.ReflTransGen (Meanwhile others) u' v ∧
    r = (u.fetch i).1 ∧ u'.bare = (u.fetch i).2.bare ∧
    (Memory.isMapped (u.slot i).pc = false →
      r = .error (.memory (.unmapped (u.slot i).pc)) ∧ u' = u)

theorem fetches_of_slot {v x : FrontEnd} {r : Except Failure UInt32} {s : Slot}
    (hw : Relation.ReflTransGen (Meanwhile others) w v) (hv : v.Follows)
    (hs : Slot.Fetched v.memory (v.slot i) r s)
    (hx : Relation.ReflTransGen (Meanwhile others) (v.setSlot i s) x) : Fetches others i w r x := by
  refine ⟨v, v.setSlot i s, hw, hx, hs.answer, FrontEnd.bare_fetch hs.slot, fun hu => ?_⟩
  have hf := Slot.fetch_unmapped (m := v.memory) (hv i).aligned hu
  refine ⟨hs.answer.trans (by rw [hf]), ?_⟩
  rw [hs.unmapped hu, FrontEnd.setSlot_slot]

variable (hothers : ∀ w v, others w v → Somebody Action.Tidy w v)

include hothers in
theorem stable_follows (w : FrontEnd) : Stable (Meanwhile others) fun _ v =>
    v.Follows ∧ Relation.ReflTransGen (Meanwhile others) w v := by
  intro t v x hs hv
  refine ⟨?_, hv.2.tail hs⟩
  cases hs with
  | other h => exact hv.1.step (hothers _ _ h)
  | tell r => exact hv.1.tell r

theorem stable_of_meanwhile {P : Assertion} (h : Stable (Meanwhile others) P) : Stable others P :=
  fun t w v hs => h t w v (.other hs)

theorem meanwhile_of_others {w v : FrontEnd} (h : Relation.ReflTransGen others w v) :
    Relation.ReflTransGen (Meanwhile others) w v :=
  Relation.ReflTransGen.mono (fun _ _ => .other) _ _ h

include hothers in
/-- **An access to the next word of a list is an uncached fetch at one moment of it.** -/
theorem keeps_next (hw : w.Follows) :
    Keeps others (Now [] w) (Operation.access i .next) (fun _ => True)
      fun r _ v => Fetches others i w r v := by
  have hst := stable_follows hothers w
  have hst' := stable_of_meanwhile hst
  refine keeps_iterate
    (I := fun _ _ v => v.Follows ∧ Relation.ReflTransGen (Meanwhile others) w v)
    (fun t v ⟨_, hv⟩ => by rw [hv]; exact ⟨hw, .refl⟩) (fun _ _ _ => trivial) hst' fun _ => ?_
  refine keeps_perform hst' (fun _ _ _ => trivial) fun t v ⟨hv, hwv⟩ => ?_
  cases hr : (v.slot i).tryAccess v.memory .next with
  | mk r s =>
  rw [perform_access hr]
  cases r with
  | inr r =>
    refine keeps_done (fun _ _ _ => trivial) fun t x u hx hu => ?_
    rw [hx.2] at hu
    exact fetches_of_slot hwv hv ((hv i).tryAccess_next hr) (meanwhile_of_others hu)
  | inl address =>
    obtain ⟨rfl, rfl⟩ := (hv i).tryAccess_wanted hr
    rw [FrontEnd.setSlot_slot]
    -- Should no cursor be found there, this was the moment of the fetch.
    have hst₂ := stable_of_meanwhile ((stable_follows hothers w).and (stable_since v))
    refine (keeps_tell hst₂ (fun _ _ _ => trivial)
      fun t x ⟨⟨hx, hwx⟩, hvx⟩ => ?_).now ⟨⟨hv, hwv⟩, .refl⟩
    cases hc : Cursor.openAt (v.slot i).pc 4 with
    | error f =>
      refine keeps_done (fun _ _ _ => trivial) fun t y u hy hu => ?_
      refine fetches_of_slot hwv hv ((hv i).not_found hc) ?_
      rw [FrontEnd.setSlot_slot]
      rw [hy.2] at hu
      exact (hvx.tail (.tell ..)).trans (meanwhile_of_others hu)
    | ok c =>
      refine (keeps_perform hst' (fun _ _ _ => trivial)
        fun t y ⟨hy, hwy⟩ => ?_).now ⟨hx.tell _, hwx.tail (.tell ..)⟩
      cases hr' : (y.slot i).accessWith y.memory (v.slot i).pc c .next with
      | mk r s =>
      rw [perform_accessWith hr']
      cases r with
      | some r =>
        refine keeps_done (fun _ _ _ => trivial) fun t z u hz hu => ?_
        rw [hz.2] at hu
        exact fetches_of_slot hwy hy ((hy i).accessWith_next hc hr') (meanwhile_of_others hu)
      | none =>
        rw [accessWith_none hr', FrontEnd.setSlot_slot]
        refine keeps_done (fun _ _ _ => trivial) fun t z u hz hu => ?_
        exact hst'.closure (t := t) hu (hz.2 ▸ ⟨hy, hwy⟩)

/-- **Cursors are transparent.** After whatever tidy actions, by whomever, an access to the next
word of a list comes to an end if it is left alone; and whoever acts meanwhile, its answer is the
word that memory holds at the instruction address at one moment of it, and the instruction address
has gone on by one word from then. Where there is no memory the access says so and nothing at all
has changed. -/
theorem next_transparent {w₀ w : FrontEnd} (hfresh : w₀.Fresh)
    (hw : Relation.ReflTransGen (Somebody Action.Tidy) w₀ w)
    {others : FrontEnd → FrontEnd → Prop}
    (hothers : ∀ v u, others v u → Somebody Action.Tidy v u) (i : Nat) :
    Returns (Operation.access i .next) w ∧
    ∀ t r v, Goes others (Operation.access i .next) w t (.done r) v → Fetches others i w r v := by
  refine ⟨access_returns .next w i, fun t r v hg => ?_⟩
  have hk := keeps_next (i := i) hothers (hfresh.follows.reach hw)
  exact (hk ⟨rfl, rfl⟩ hg).2 r rfl

/-- A front end whose first slot has just been made ready. -/
def submitted : FrontEnd :=
  ((Action.change 0 (.init ⟨0x08800000, 0, 0, none⟩)).perform (Replay.frontEnd {})).2

/-- A list just submitted, and others who do as they like with it. -/
theorem next_transparent_submitted :
    Returns (Operation.access 0 .next) submitted ∧
    ∀ t r v, Goes (Somebody Action.Tidy) (Operation.access 0 .next) submitted t (.done r) v →
      Fetches (Somebody Action.Tidy) 0 submitted r v :=
  next_transparent (FrontEnd.fresh_of_slots rfl) (.single (.act trivial _)) (fun _ _ h => h) 0

end Process

end DisplayList

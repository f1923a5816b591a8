import DisplayList.Operation
import DisplayList.Proofs.Residual
import DisplayList.Proofs.Slots

/-!
# The course of an access

An access to the words of a list tries the cursor at hand; if a cursor has to be found first, it is
looked for with the list unlocked and tried after that; and if another address is wanted by then,
the access starts over.

* `Slot.equip`, `Slot.accessWith_wanted`: a list with a cursor that was found for it;
* `Operation.attempt`, `Operation.seek`, `Operation.found`: a round of an access, cut up;
* `Accessing`, **`left_access`**: what may be left of an access;
* `Move.Answers`, **`Accessing.ends`**: left alone, an access comes to an end, and its answer is
  that of one of its moves unless no cursor is found;
* `Tries`, **`keeps_tries`**: what an access keeps beside others.
-/

namespace DisplayList

namespace Slot

/-- The list with a cursor that was found for it. -/
def equip (s : Slot) (c : Cursor) : Slot :=
  { s with fetcher := { s.fetcher with source := .own c, found := s.fetcher.found + 1 } }

@[simp] theorem cursor?_equip (s : Slot) (c : Cursor) : (s.equip c).fetcher.cursor? = some c :=
  rfl

theorem accessWith_wanted {s : Slot} {m : Memory} {a : Access} {address : Address} {c : Cursor}
    (h : s.fetcher.wanted s.pc = some address) : s.accessWith m address c a =
      (some ((s.equip c).access m a).1, ((s.equip c).access m a).2) := by
  unfold accessWith Fetcher.install?
  rw [h]
  simp [equip]

end Slot

namespace Operation

open Process

variable (i : Nat) (a : Slot.Access)

/-- Goes on with the cursor found at an address, if there is one. -/
def found (address : Address) :
    Except Memory.Fault Cursor → Process (Unit ⊕ Except Failure a.Answer)
  | .error f => .done (.inr (.error (.memory f)))
  | .ok c => perform (.accessWith i address c a) >>= fun
    | some r => .done (.inr r)
    | none => .done (.inl ())

/-- Looks for a cursor. -/
def seek (address : Address) : Process (Unit ⊕ Except Failure a.Answer) :=
  tell (.cursor address 4) >>= fun _ => found i a address (Cursor.openAt address 4)

/-- A round of an access. -/
def attempt : Process (Unit ⊕ Except Failure a.Answer) :=
  perform (.access i a) >>= fun
    | .inr r => .done (.inr r)
    | .inl address => seek i a address

/-- What comes after a round of an access. -/
def again : Unit ⊕ Except Failure a.Answer → Process (Except Failure a.Answer) :=
  resume (fun _ => attempt i a) .done

theorem access_eq : access i a = .loop (fun _ => attempt i a) () .done := rfl

end Operation

/-- The answer of the move is the answer of an access. -/
inductive Move.Answers (i : Nat) (a : Slot.Access) (r : Except Failure a.Answer) : Move → Prop
  | access {w : FrontEnd} :
    ((Action.access i a).perform w).1 = .inr r → Answers i a r (.act (.access i a) w)
  | accessWith {address : Address} {c : Cursor} {w : FrontEnd} :
    ((Action.accessWith i address c a).perform w).1 = some r →
    Answers i a r (.act (.accessWith i address c a) w)

/-- The move fetches a word of the list at position `i`. -/
def Move.Fetches (i : Nat) (m : Move) : Prop :=
  ∃ word, m.Answers i .next (.ok word)

namespace Process

open Operation

variable {i : Nat} {a : Slot.Access} {w v : FrontEnd} {p : Process (Except Failure a.Answer)}

/-! ## What may be left of an access -/

/-- An access under way. -/
inductive Accessing (i : Nat) (a : Slot.Access) : Process (Except Failure a.Answer) → Prop
  | start : Accessing i a (access i a)
  | attempt : Accessing i a ((attempt i a).bind (again i a))
  | seek (address : Address) : Accessing i a ((seek i a address).bind (again i a))
  | found {address : Address} {c : Cursor} : Cursor.openAt address 4 = .ok c →
    Accessing i a ((found i a address (.ok c)).bind (again i a))
  | done (r : Except Failure a.Answer) : Accessing i a (.done r)

theorem left_attempt {q : Process (Unit ⊕ Except Failure a.Answer)} (h : Left (attempt i a) q) :
    Accessing i a (q.bind (again i a)) := by
  have hdone : ∀ x : Unit ⊕ Except Failure a.Answer,
      Accessing i a ((Process.done x).bind (again i a)) := by
    intro x
    cases x with
    | inl s => exact .start
    | inr r => exact .done r
  have hx : ∀ x q, Left (Process.done x) q → Accessing i a (q.bind (again i a)) := by
    intro x q hq
    rw [left_done hq]
    exact hdone x
  rcases left_act h with rfl | ⟨r, h⟩
  · exact .attempt
  cases r with
  | inr r => exact hx _ _ h
  | inl address =>
    rcases left_report h with rfl | h
    · exact .seek address
    cases hc : Cursor.openAt address 4 with
    | error f =>
      change Left (found i a address (Cursor.openAt address 4)) q at h
      rw [hc] at h
      exact hx _ _ h
    | ok c =>
      change Left (found i a address (Cursor.openAt address 4)) q at h
      rw [hc] at h
      rcases left_act h with rfl | ⟨r, h⟩
      · exact .found hc
      cases r with
      | some r => exact hx _ _ h
      | none => exact hx _ _ h

/-- **What may be left of an access.** -/
theorem left_access (h : Left (access i a) p) : Accessing i a p := by
  rw [access_eq] at h
  rcases left_loop h with rfl | ⟨s, q, rfl, hq⟩ | ⟨r, h⟩
  · exact .start
  · exact left_attempt hq
  · rw [left_done h]
    exact .done r

/-! ## Single moves -/

theorem perform_access {r : Address ⊕ Except Failure a.Answer} {s : Slot}
    (h : (v.slot i).tryAccess v.memory a = (r, s)) :
    (Action.access i a).perform v = (r, v.setSlot i s) := by
  unfold Action.perform Action.onSlot
  dsimp only
  rw [h]

theorem perform_accessWith {address : Address} {c : Cursor}
    {r : Option (Except Failure a.Answer)} {s : Slot}
    (h : (v.slot i).accessWith v.memory address c a = (r, s)) :
    (Action.accessWith i address c a).perform v = (r, v.setSlot i s) := by
  unfold Action.perform Action.onSlot
  dsimp only
  rw [h]

theorem tryAccess_inl {s s' : Slot} {m : Memory} {address : Address}
    (hr : s.tryAccess m a = (.inl address, s')) :
    s' = s ∧ s.fetcher.wanted s.pc = some address := by
  unfold Slot.tryAccess at hr
  split at hr
  next b hb =>
    cases hr
    exact ⟨rfl, hb⟩
  next => cases hr

theorem accessWith_none {s s' : Slot} {m : Memory} {address : Address} {c : Cursor}
    (hr : s.accessWith m address c a = (none, s')) : s' = s := by
  unfold Slot.accessWith at hr
  split at hr
  next =>
    cases hr
    rfl
  next => cases hr

/-! ## An access left alone -/

/-- Left alone, the access comes to an end, and its answer is that of a move unless no cursor is
found. -/
def Ends (i : Nat) (a : Slot.Access) (p : Process (Except Failure a.Answer)) : Prop :=
  ∀ w, ∃ t r u, Goes Nobody p w t (.done r) u ∧
    ((∃ m ∈ t, m.Answers i a r) ∨ ∃ f, r = .error (.memory f))

theorem Ends.cons {m : Move} {t : List Move} {r : Except Failure a.Answer}
    (h : (∃ m ∈ t, m.Answers i a r) ∨ ∃ f, r = .error (.memory f)) :
    (∃ m' ∈ m :: t, m'.Answers i a r) ∨ ∃ f, r = .error (.memory f) := by
  rcases h with ⟨m', hm, ha⟩ | hf
  · exact .inl ⟨m', List.mem_cons_of_mem _ hm, ha⟩
  · exact .inr hf

theorem ends_attempt : Ends i a ((attempt i a).bind (again i a)) := by
  intro w
  cases hr : (w.slot i).tryAccess w.memory a with
  | mk r s =>
  have hp := perform_access hr
  cases r with
  | inr r =>
    refine ⟨[.act (.access i a) w], r, w.setSlot i s, .act ?_, .inl ?_⟩
    · rw [hp]
      exact .stay ..
    · exact ⟨_, List.mem_singleton_self _, .access (by rw [hp])⟩
  | inl address =>
    obtain ⟨rfl, hw⟩ := tryAccess_inl hr
    rw [FrontEnd.setSlot_slot] at hp
    have hw' : ((w.tell (.cursor address 4)).2.slot i).fetcher.wanted
        ((w.tell (.cursor address 4)).2.slot i).pc = some address := by
      rw [FrontEnd.slot_tell]
      exact hw
    -- Nobody has moved the list meanwhile.
    have hfound : ∃ t r u, Goes Nobody ((found i a address (Cursor.openAt address 4)).bind
        (again i a)) (w.tell (.cursor address 4)).2 t (.done r) u ∧
        ((∃ m ∈ t, m.Answers i a r) ∨ ∃ f, r = .error (.memory f)) := by
      cases Cursor.openAt address 4 with
      | error f => exact ⟨[], _, _, .stay .., .inr ⟨f, rfl⟩⟩
      | ok c =>
        generalize (w.tell (.cursor address 4)).2 = v at hw' ⊢
        have hp' := perform_accessWith (i := i) (a := a)
          (Slot.accessWith_wanted (m := v.memory) (c := c) hw')
        refine ⟨[.act (.accessWith i address c a) v], (((v.slot i).equip c).access v.memory a).1,
          v.setSlot i (((v.slot i).equip c).access v.memory a).2, .act ?_, .inl ?_⟩
        · rw [hp']
          exact .stay ..
        · exact ⟨_, List.mem_singleton_self _, .accessWith (by rw [hp'])⟩
    obtain ⟨t, r, u, hg, ha⟩ := hfound
    refine ⟨.act (.access i a) w :: .report (.cursor address 4) w :: t, r, u, .act ?_, ?_⟩
    · rw [hp]
      exact .report hg
    · exact Ends.cons (Ends.cons ha)

theorem ends_start : Ends i a (access i a) := by
  intro w
  obtain ⟨t, r, u, hg, ha⟩ := ends_attempt (i := i) (a := a) w
  exact ⟨t, r, u, .loop hg, ha⟩

theorem ends_found (address : Address) (x : Except Memory.Fault Cursor) :
    Ends i a ((found i a address x).bind (again i a)) := by
  intro w
  cases x with
  | error f => exact ⟨[], _, w, .stay .., .inr ⟨f, rfl⟩⟩
  | ok c =>
    cases hr : (w.slot i).accessWith w.memory address c a with
    | mk r s =>
    have hp := perform_accessWith hr
    cases r with
    | some r =>
      refine ⟨[.act (.accessWith i address c a) w], r, w.setSlot i s, .act ?_, .inl ?_⟩
      · rw [hp]
        exact .stay ..
      · exact ⟨_, List.mem_singleton_self _, .accessWith (by rw [hp])⟩
    | none =>
      obtain ⟨t, r, u, hg, ha⟩ := ends_start (i := i) (a := a) (w.setSlot i s)
      refine ⟨.act (.accessWith i address c a) w :: t, r, u, .act ?_, Ends.cons ha⟩
      rw [hp]
      exact hg

/-- **An access left alone comes to an end**, wherever it is. -/
theorem Accessing.ends (h : Accessing i a p) (hp : ∀ r, p ≠ .done r) : Ends i a p := by
  cases h with
  | start => exact ends_start
  | attempt => exact ends_attempt
  | seek address =>
    intro w
    obtain ⟨t, r, u, hg, ha⟩ :=
      ends_found (i := i) (a := a) address (Cursor.openAt address 4) (w.tell (.cursor address 4)).2
    exact ⟨_, r, u, .report hg, Ends.cons ha⟩
  | found hc => exact ends_found _ _
  | done r => exact absurd rfl (hp r)

/-! ## An access beside others -/

/-- Until the access is answered, `P` holds after each of its moves, and then `Q` of the answer. -/
structure Tries (i : Nat) (a : Slot.Access) (P : Assertion)
    (Q : Except Failure a.Answer → Assertion) : Prop where
  answered : ∀ {t w r s}, P t w → (w.slot i).tryAccess w.memory a = (.inr r, s) →
    Q r (t ++ [.act (.access i a) w]) (w.setSlot i s)
  wanted : ∀ {t w address}, P t w → (w.slot i).tryAccess w.memory a = (.inl address, w.slot i) →
    P (t ++ [.act (.access i a) w]) w
  looked : ∀ {t w address}, P t w →
    P (t ++ [.report (.cursor address 4) w]) (w.tell (.cursor address 4)).2
  unmapped : ∀ {t w f}, P t w → Q (.error (.memory f)) t w
  found : ∀ {t w address c r s}, P t w → Cursor.openAt address 4 = .ok c →
    (w.slot i).accessWith w.memory address c a = (some r, s) →
    Q r (t ++ [.act (.accessWith i address c a) w]) (w.setSlot i s)
  late : ∀ {t w address c}, P t w → Cursor.openAt address 4 = .ok c →
    (w.slot i).accessWith w.memory address c a = (none, w.slot i) →
    P (t ++ [.act (.accessWith i address c a) w]) w

/-- **An access** keeps what its moves keep. -/
theorem keeps_tries {others : FrontEnd → FrontEnd → Prop} {P : Assertion} {T : List Move → Prop}
    {Q : Except Failure a.Answer → Assertion} (h : Tries i a P Q) (hP : Stable others P)
    (hQ : ∀ r, Stable others (Q r)) (hT : ∀ t w, P t w → T t) (hT' : ∀ r t w, Q r t w → T t) :
    Keeps others P (access i a) T Q := by
  have hback : ∀ r, Keeps others (Q r) (.done (.inr r) : Process (Unit ⊕ Except Failure a.Answer)) T
      (Sum.elim (fun _ => P) Q) := fun r => keeps_stay (hQ r) (hT' r) fun _ _ hq => hq
  refine keeps_iterate (I := fun _ => P) (fun _ _ hp => hp) hT hP fun _ => ?_
  refine keeps_perform hP hT fun t w hw => ?_
  cases hr : (w.slot i).tryAccess w.memory a with
  | mk r s =>
  rw [perform_access hr]
  cases r with
  | inr r => exact (hback r).now (h.answered hw hr)
  | inl address =>
    obtain rfl := (tryAccess_inl hr).1
    rw [FrontEnd.setSlot_slot]
    refine Keeps.now ?_ (h.wanted hw hr)
    refine keeps_tell hP hT fun t w hw => Keeps.now ?_ (h.looked hw)
    cases hc : Cursor.openAt address 4 with
    | error f => exact (hback (.error (.memory f))).pre fun _ _ hp => h.unmapped hp
    | ok c =>
      refine keeps_perform hP hT fun t w hw => ?_
      cases hr : (w.slot i).accessWith w.memory address c a with
      | mk r s =>
      rw [perform_accessWith hr]
      cases r with
      | some r => exact (hback r).now (h.found hw hc hr)
      | none =>
        obtain rfl := accessWith_none hr
        rw [FrontEnd.setSlot_slot]
        exact (keeps_stay hP hT fun _ _ hp => hp).now (h.late hw hc hr)

theorem access_returns (a : Slot.Access) (w : FrontEnd) (i : Nat) :
    Returns (access i a) w := by
  obtain ⟨t, r, u, hg, -⟩ := ends_start (i := i) (a := a) w
  exact ⟨t, r, u, hg⟩

end Process

end DisplayList

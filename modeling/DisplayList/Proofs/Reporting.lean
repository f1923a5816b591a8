import DisplayList.Proofs.Exclusion
import DisplayList.Proofs.Riding

/-!
# Reports of lists that have ended

The engine collects what has become of the lists it has run, and answers with it once the queue is
empty or a list does not run to its END word. If that list fails, the answer is the failure, and the
lists that have ended before are not reported.

* `endings`: the lists that the engine has brought to their end, of those in a trace of its moves;
  `heard`: those of which the caller hears;
* `Concluded`: what is known while lists are run; **`keeps_drain_concluded`**: the outcomes are
  those of the lists that have ended;
* **`heard_iff`**: all of them are heard of, unless the run fails.
-/

namespace DisplayList

/-- The number of the list that the engine ends by this move. -/
def Move.ending? : Move → Option Nat
  | .act (.change i (.setStatus .done)) w => some (w.slot i).id
  | _ => none

/-- The lists that have ended by these moves, in order. -/
def endings (t : List Move) : List Nat :=
  t.filterMap Move.ending?

/-- The lists that have ended, of those with an outcome. -/
def endedIds (outcomes : List (Nat × Outcome)) : List Nat :=
  (outcomes.filter fun x => x.2.isEnded).map Prod.fst

/-- The lists of which the caller hears that they have ended. -/
def heard : Except Failure (List (Nat × Outcome)) → List Nat
  | .ok outcomes => endedIds outcomes
  | .error _ => []

theorem endings_snoc (t : List Move) (m : Move) :
    endings (t ++ [m]) = endings t ++ m.ending?.toList :=
  filterMap_concat ..

theorem endedIds_snoc (outcomes : List (Nat × Outcome)) (n : Nat) (o : Outcome) :
    endedIds (outcomes ++ [(n, o)]) = endedIds outcomes ++ if o.isEnded then [n] else [] := by
  unfold endedIds
  cases h : o.isEnded <;> simp [h]

theorem Action.Drives.ending? {i : Nat} {a : Action} (h : a.Drives i) (w : FrontEnd) :
    (Move.act a w).ending? = none := by
  rcases h with h | ⟨s, hs, rfl⟩
  · cases a with
    | change j c =>
      cases c with
      | setStatus s => exact h.2.elim
      | _ => rfl
    | _ => rfl
  · cases s <;> first | rfl | cases hs

namespace Process

variable {w : FrontEnd} {ids : List Nat} {i : Nat}

/-- So far these lists have ended, and every list has the number that it has in `w`. -/
def Concluded (w : FrontEnd) (ids : List Nat) : Assertion :=
  fun t v => endings t = ids ∧ ∀ j, (v.slot j).id = (w.slot j).id

theorem stable_concluded : Stable Anybody (Concluded w ids) :=
  fun _ _ _ ho h => ⟨h.1, fun j => (id_anybody ho j).trans (h.2 j)⟩

theorem Concluded.snoc {t : List Move} {m : Move} (h : Concluded w ids t m.before) :
    Concluded w (ids ++ m.ending?.toList) (t ++ [m]) m.after := by
  refine ⟨by rw [endings_snoc, h.1], fun j => ?_⟩
  cases m with
  | act a v => exact (id_anybody (.act trivial v) j).trans (h.2 j)
  | report r v => exact (id_anybody (.tell r v) j).trans (h.2 j)

theorem Concluded.past {t : List Move} {m : Move} (h : Concluded w ids t m.before)
    (hm : m.ending? = none) : Concluded w ids (t ++ [m]) m.after := by
  have hs := h.snoc
  rwa [hm, Option.toList_none, List.append_nil] at hs

/-- The list at position `i` has ended, if this is its outcome. -/
def endedWith (w : FrontEnd) (i : Nat) : Except Failure Outcome → List Nat
  | .ok (.ended _) => [(w.slot i).id]
  | _ => []

theorem keeps_past {α : Type} {p : Process α} (hp : Only (Action.Drives i) p) :
    Keeps Anybody (Concluded w ids) p (fun _ => True) fun _ => Concluded w ids :=
  keeps_moves stable_concluded (fun _ _ _ => trivial)
    (fun a _ v ha h => h.past (m := .act a v) (ha.ending? v))
    (fun r _ v h => h.past (m := .report r v) rfl) hp

theorem keeps_conclude_concluded : Keeps Anybody (Concluded w ids) (Engine.conclude i)
    (fun _ => True) fun o => Concluded w (ids ++ endedWith w i (.ok o)) := by
  refine keeps_bind (keeps_past only_endList.drives) fun _ => ?_
  refine keeps_perform stable_concluded (fun _ _ _ => trivial) fun t v hv => ?_
  have hended := hv.snoc (m := .act (.change i (.setStatus .done)) v)
  change Concluded w (ids ++ [(v.slot i).id]) _ _ at hended
  rw [hv.2 i] at hended
  refine Keeps.now ?_ hended
  refine keeps_perform stable_concluded (fun _ _ _ => trivial) fun t v hv => ?_
  refine Keeps.now ?_ (hv.past (m := .act (.look i) v) rfl)
  exact keeps_stay stable_concluded (fun _ _ _ => trivial) fun _ _ h => h

/-- **While the engine runs a list** no other list ends. -/
theorem rides_concluded : Rides Anybody i (fun _ => True) (Concluded w ids)
    fun r => Concluded w (ids ++ endedWith w i r) where
  stable := stable_concluded
  trace _ _ _ := trivial
  act a _ v ha h := h.past (m := .act a v) (ha.ending? v)
  report r _ v h := h.past (m := .report r v) rfl
  unended r _ v hr h := by
    have hnone : endedWith w i r = [] := by
      cases r with
      | error e => rfl
      | ok o =>
        cases o with
        | ended f => cases hr _ rfl
        | _ => rfl
    rwa [hnone, List.append_nil]
  conclude := keeps_conclude_concluded
  stable_over _ := stable_concluded
  trace_over _ _ _ _ := trivial

/-- What is known of the answer: it reports all the lists that have ended, if it is none of a
failure. -/
def Answered (w : FrontEnd) (r : Except Failure (List (Nat × Outcome))) : Assertion :=
  fun t v => ∀ outcomes, r = .ok outcomes → Concluded w (endedIds outcomes) t v

theorem keeps_passing {α : Type} {a : Action} {f : a.Answer → Process α} {Q : α → Assertion}
    (ha : ∀ v, (Move.act a v).ending? = none)
    (h : ∀ r, Keeps Anybody (Concluded w ids) (f r) (fun _ => True) Q) :
    Keeps Anybody (Concluded w ids) (perform a >>= f) (fun _ => True) Q :=
  keeps_perform stable_concluded (fun _ _ _ => trivial) fun _ v hv =>
    (h _).now (hv.past (m := .act a v) (ha v))

/-- What is known after a turn. -/
abbrev TurnConcluded (w : FrontEnd) : Engine.Served → Assertion :=
  Sum.elim (fun outcomes => Concluded w (endedIds outcomes)) (Answered w)

theorem keeps_leave_concluded {outcomes : List (Nat × Outcome)} (r : Except Failure Outcome) :
    Keeps Anybody (Concluded w (endedIds outcomes ++ endedWith w i r))
      (Engine.leave i outcomes r) (fun _ => True) (TurnConcluded w) := by
  cases r with
  | error e =>
    refine keeps_passing (fun _ => rfl) fun _ => ?_
    exact keeps_stay stable_concluded (fun _ _ _ => trivial) fun _ _ _ _ he => by cases he
  | ok o =>
    refine keeps_perform stable_concluded (fun _ _ _ => trivial) fun t v hv => ?_
    have hids : endedIds (outcomes ++ [((v.slot i).id, o)]) =
        endedIds outcomes ++ endedWith w i (.ok o) := by
      rw [endedIds_snoc, hv.2 i]
      cases o <;> rfl
    have hlooked := hv.past (m := .act (.look i) v) rfl
    rw [← hids] at hlooked
    refine Keeps.now ?_ hlooked
    change Keeps _ _ (if o.isEnded then _ else _) _ _
    split
    · exact keeps_stay stable_concluded (fun _ _ _ => trivial) fun _ _ h => h
    · refine keeps_passing (fun _ => rfl) fun _ => ?_
      refine keeps_stay stable_concluded (fun _ _ _ => trivial) fun _ _ h _ he => ?_
      cases he
      exact h

/-- **The outcomes are those of the lists that have ended.** -/
theorem keeps_drain_concluded (watched : Bool) : Keeps Anybody (Concluded w [])
    (Engine.drain watched) (fun _ => True) (Answered w) := by
  rw [Engine.drain_eq]
  refine keeps_iterate (I := fun outcomes => Concluded w (endedIds outcomes)) (fun _ _ h => h)
    (fun _ _ _ => trivial) stable_concluded fun outcomes => ?_
  have hdropped : Keeps Anybody (Concluded w (endedIds outcomes)) (.done (.inl outcomes))
      (fun _ => True) (TurnConcluded w) :=
    keeps_stay stable_concluded (fun _ _ _ => trivial) fun _ _ h => h
  refine keeps_passing (fun _ => rfl) fun next => ?_
  cases next with
  | none =>
    refine keeps_stay stable_concluded (fun _ _ _ => trivial) fun _ _ h _ he => ?_
    cases he
    exact h
  | some i =>
    refine keeps_passing (fun _ => rfl) fun s => ?_
    split
    · exact hdropped
    · refine keeps_passing (fun _ => rfl) fun s => ?_
      split
      · exact hdropped
      · exact keeps_bind (rides_concluded.execute watched) keeps_leave_concluded

/-- **When no outcome is lost.** Beside anybody, the caller of a run hears of exactly the lists that
have ended in it, in order, exactly if the run does not fail, or fails before any list has ended. -/
theorem heard_iff {watched : Bool} {r : Except Failure (List (Nat × Outcome))} {u : FrontEnd}
    {t : List Move} (h : Goes Anybody (Engine.drain watched) w t (.done r) u) :
    heard r = endings t ↔ endings t = [] ∨ ∃ outcomes, r = .ok outcomes := by
  have hstart : Concluded w [] [] w := ⟨rfl, fun _ => rfl⟩
  have hend := ((keeps_drain_concluded watched).ends hstart h).2
  cases r with
  | ok outcomes => exact ⟨fun _ => .inr ⟨outcomes, rfl⟩, fun _ => (hend outcomes rfl).1.symm⟩
  | error e =>
    constructor
    · exact fun he => .inl he.symm
    · rintro (he | ⟨outcomes, he⟩)
      · exact he.symm
      · cases he

/-! ## Lists of one word -/

/-- A list is queued that is nothing but an END word. -/
def endQueued : FrontEnd :=
  ((Action.write 0x08800000 [0x0C000000]).perform idlePool).2.accept 0 ⟨0x08800000, 0, 0, none⟩

/-- The caller hears that the list has ended. -/
theorem heard_iff_endQueued : ∃ t u,
    Goes Anybody (Engine.drain true) endQueued t (.done (.ok [(0, .ended false)])) u ∧
      endings t = [0] ∧
      (heard (.ok [(0, .ended false)]) = endings t ↔
        endings t = [] ∨ ∃ outcomes, Except.ok [(0, .ended false)] =
          (.ok outcomes : Except Failure (List (Nat × Outcome)))) := by
  have hrun : ((Engine.drain true).trace 60 endQueued).map (fun x => (x.2.1, endings x.1)) =
      some (.ok [(0, .ended false)], [0]) := by decide +kernel
  obtain ⟨⟨t, r, u⟩, hu, he⟩ := Option.map_eq_some_iff.1 hrun
  obtain ⟨rfl, hended⟩ := Prod.mk.inj he
  have hgoes : Goes Anybody (Engine.drain true) endQueued t (.done _) u :=
    (alone_of_trace hu).mono fun _ _ ho => ho.elim
  exact ⟨t, u, hgoes, hended, heard_iff hgoes⟩

/-- **An outcome is lost.** Behind the list a second one is queued, for which there is no memory:
the first has ended, is done and out of the queue, and the caller hears of the failure alone. -/
theorem outcome_lost : ∃ t u,
    Alone (Engine.drain true) (endQueued.accept 1 ⟨0x0A000000, 0, 0, none⟩) t
        (.error (.memory (.unmapped 0x0A000000))) u ∧
      endings t = [0] ∧ heard (.error (.memory (.unmapped 0x0A000000))) = [] ∧
      (u.slot 0).status = .done ∧ u.queue = [1] := by
  have hrun : ((Engine.drain true).trace 60
      (endQueued.accept 1 ⟨0x0A000000, 0, 0, none⟩)).map
        (fun x => (x.2.1, endings x.1, (x.2.2.slot 0).status, x.2.2.queue)) =
      some (.error (.memory (.unmapped 0x0A000000)), [0], .done, [1]) := by decide +kernel
  obtain ⟨⟨t, r, u⟩, hu, he⟩ := Option.map_eq_some_iff.1 hrun
  obtain ⟨rfl, he⟩ := Prod.mk.inj he
  obtain ⟨hended, he⟩ := Prod.mk.inj he
  obtain ⟨hstatus, hqueue⟩ := Prod.mk.inj he
  exact ⟨t, u, alone_of_trace hu, hended, rfl, hstatus, hqueue⟩

end Process

end DisplayList

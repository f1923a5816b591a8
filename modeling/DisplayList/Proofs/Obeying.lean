import DisplayList.Proofs.Reading
import DisplayList.Proofs.Riding

/-!
# Doing a word

What a word makes the engine do is the same beside the producer and alone, with all words in
memory, if the words that it looks back at were handed over.

* `Action.Obeys`, **`only_obeys`**: all that a word makes the engine do; it fetches nothing;
* **`keeps_read`**, **`keeps_dispatch`**: an access and a word, beside the producer and alone;
* `Over`, **`over_dispatch`**: a list that a word has ended is done.
-/

namespace DisplayList

variable {i : Nat} {start stop : Address} {goal : Memory} {x y : FrontEnd}

/-! ## Words that are done -/

/-- The action may fetch a word. -/
def Action.IsNext : Action → Prop
  | access _ .next | accessWith _ _ _ .next => True
  | _ => False

/-- An action by which the engine does what a word says: it fetches none. -/
structure Action.Obeys (a : Action) : Prop where
  serves : a.Serves
  fetchless : ¬ a.IsNext

theorem Action.Plain.obeys {a : Action} (h : a.Plain) : a.Obeys := by
  refine ⟨h.serves, fun hn => ?_⟩
  cases a <;> first | exact hn | exact h

theorem Action.Obeys.not_fetches {a : Action} (h : a.Obeys) (w : FrontEnd) :
    ¬ (Move.act a w).Fetches i := by
  rintro ⟨word, ha⟩
  cases ha with
  | access => exact h.fetchless trivial
  | accessWith => exact h.fetchless trivial

theorem Move.not_fetches_report (r : Report) (w : FrontEnd) : ¬ (Move.report r w).Fetches i := by
  rintro ⟨word, ha⟩
  cases ha

namespace Process

open Engine

variable {watched : Bool}

theorem oblivious_settle (r : Except Failure (Option Outcome)) : Oblivious (settle r) := by
  cases r with
  | error e => exact oblivious_done _
  | ok o =>
    cases o with
    | none => exact oblivious_done _
    | some outcome => exact oblivious_done _

/-- **All that a command makes the engine do**: it serves the list, and fetches nothing. -/
theorem only_obeys (c : Command) : Only Action.Obeys (Engine.step watched i c) := by
  have hplain : ∀ {α : Type} {p : Process α}, Oblivious p → Only Action.Obeys p := fun h =>
    h.only.mono fun _ ha => ha.obeys
  by_cases hc : ∃ arg, c = .stop arg
  · obtain ⟨arg, rfl⟩ := hc
    change Only Action.Obeys (Engine.stop i arg)
    rw [stop_eq]
    refine Only.bind ?_ fun r => hplain (oblivious_stopWith arg r)
    exact only_tries ⟨by simp [Action.Serves], id⟩ fun _ _ ho => ⟨⟨by simp, ho⟩, id⟩
  · exact hplain (oblivious_step watched fun arg he => hc ⟨arg, he⟩)

theorem only_dispatch (r : Except Failure UInt32) : Only Action.Obeys (dispatch watched i r) :=
  only_dispatch_of only_obeys r

theorem alone_dispatch_ne {r : Except Failure UInt32} {b : Unit ⊕ Except Failure Outcome}
    {t : List Move} (h : Alone (dispatch watched i r) x t b y) : b ≠ .inr (.ok .stalled) := by
  have hne : Keeps Nobody (fun _ _ => True) (dispatch watched i r) (fun _ => True)
      fun b _ _ => b ≠ .inr (.ok .stalled) := keeps_dispatch_ne watched r
  exact (hne.alone trivial h).2

/-! ## A word, beside the producer and alone -/

variable {others : FrontEnd → FrontEnd → Prop}
  (ho : ∀ v u, others v u → Feeder i start stop goal v u)

/-- The words for the access `a` were handed over, and it finds a cursor. -/
structure Can (i : Nat) (a : Slot.Access) (w : FrontEnd) : Prop where
  legible : (w.slot i).Legible a
  atHand : a = .previous → (w.slot i).fetcher.AtHand (w.slot i).pc

theorem feeder_nobody (v u : FrontEnd) (h : Nobody v u) : Feeder i start stop goal v u :=
  h.elim

include ho in
/-- **An access, beside the producer and alone.** -/
theorem keeps_read {a : Slot.Access} {r : Except Failure a.Answer} {t : List Move}
    (ha : ∀ n, a ≠ .rewind n) (hx : x.Fed i start stop goal) (hc : Can i a x)
    (h : Alone (Operation.access i a) x t r y) :
    All (FetchesAt i x) t ∧ y.Fed i start stop goal ∧ (∀ z, r = .ok z → Can i .previous y) ∧
      Keeps others (fun _ v => Mirrors i start stop goal x v ∧ Can i a v) (Operation.access i a)
        (fun _ => True) fun r' _ v =>
          r' = r ∧ Mirrors i start stop goal y v ∧ ∀ z, r = .ok z → Can i .previous v := by
  have halone : Reading i start stop goal a x [] x := ⟨⟨hx, rfl⟩, hc.legible, hc.atHand, all_nil⟩
  obtain ⟨ht, hy⟩ := (keeps_access feeder_nobody ha).alone halone h
  refine ⟨ht, hy.mirrors.fed, fun z hz => ⟨hy.legible, fun _ => hy.atHand z hz⟩, ?_⟩
  have hkeeps := (keeps_access (x := x) ho ha).anew
  refine hkeeps.weaken (fun t v hv => ?_) (fun _ h => h) fun r' t v hv => ?_
  · exact ⟨hv.1, hv.2.legible, hv.2.atHand, all_nil⟩
  · obtain ⟨t', hv⟩ := hv
    have hr : r' = r := hv.answer.trans hy.answer.symm
    refine ⟨hr, ⟨hv.mirrors.fed, hv.mirrors.shown.trans hy.mirrors.shown.symm⟩, fun z hz => ?_⟩
    exact ⟨hv.legible, fun _ => hv.atHand z (hr.trans hz)⟩

include ho in
/-- **What a word makes the engine do**, beside the producer and alone. -/
theorem keeps_dispatch {r : Except Failure UInt32} {b : Unit ⊕ Except Failure Outcome}
    {t : List Move} (hx : x.Fed i start stop goal) (hc : ∀ word, r = .ok word → Can i .previous x)
    (h : Alone (dispatch watched i r) x t b y) :
    Keeps others
      (fun _ v => Mirrors i start stop goal x v ∧ ∀ word, r = .ok word → Can i .previous v)
      (dispatch watched i r) (fun _ => True)
      fun b' _ v => b' = b ∧ Mirrors i start stop goal y v := by
  cases r with
  | error e =>
    have hd : Oblivious (dispatch watched i (.error e)) := trivial
    exact (keeps_oblivious ho hd hx.builtin h).pre fun _ _ hv => hv.1
  | ok word =>
    by_cases hs : ∃ arg, Command.decode word = .stop arg
    · obtain ⟨arg, hs⟩ := hs
      have hd : dispatch watched i (.ok word) = (Operation.access i .previous).bind fun r =>
          (stopWith i arg r).bind settle := by
        unfold dispatch
        dsimp only
        rw [hs]
        change (Engine.stop i arg).bind settle = _
        rw [stop_eq, bind_assoc]
      rw [hd] at h ⊢
      obtain ⟨r, x₁, t₁, t₂, rfl, h₁, h₂⟩ := alone_bind.1 h
      obtain ⟨-, hx₁, -, hread⟩ := keeps_read ho (by simp) hx (hc word rfl) h₁
      refine keeps_bind (hread.pre fun t v hv => ⟨hv.1, hv.2 word rfl⟩) fun r' => ?_
      refine keeps_iff.2 fun t v hv => ?_
      obtain ⟨rfl, hm, -⟩ := hv
      have hobl : Oblivious ((stopWith i arg r').bind settle) :=
        (oblivious_stopWith arg r').bind oblivious_settle
      exact (keeps_oblivious ho hobl hx₁.builtin h₂).now hm
    · have hobl : Oblivious (dispatch watched i (.ok word)) :=
        (oblivious_step watched fun arg he => hs ⟨arg, he⟩).bind oblivious_settle
      exact (keeps_oblivious ho hobl hx.builtin h).pre fun _ _ hv => hv.1

/-! ## The status of a list that has ended -/

/-- The list is handed over in parts, and is done if this is its end. -/
structure Over (i : Nat) (start stop : Address) (goal : Memory) (o : Option Outcome)
    (v : FrontEnd) : Prop where
  fed : v.Fed i start stop goal
  status : ∀ f, o = some (.ended f) → (v.slot i).status = .done

/-- The outcome of a step. -/
def outcome? : Except Failure (Option Outcome) → Option Outcome
  | .ok o => o
  | .error _ => none

/-- The outcome of a round. -/
def finished? : Unit ⊕ Except Failure Outcome → Option Outcome
  | .inr (.ok outcome) => some outcome
  | _ => none

include ho in
theorem stable_fed : Stable others fun _ v => v.Fed i start stop goal :=
  fun _ v u hvu hv => (ho v u hvu hv).fed

include ho in
theorem keeps_fed {α : Type} {p : Process α} (hp : Only Action.Serves p) :
    Keeps others (fun _ v => v.Fed i start stop goal) p (fun _ => True)
      fun _ _ v => v.Fed i start stop goal :=
  keeps_only (stable_fed ho) (fun _ _ ha h => h.perform ha) (fun r _ h => h.tell r) hp

include ho in
theorem stable_over {o : Option Outcome} : Stable others fun _ => Over i start stop goal o := by
  intro t v u hvu hv
  have hf := ho v u hvu hv.fed
  exact ⟨hf.fed, fun f he => hf.status.trans (hv.status f he)⟩

include ho in
theorem over_of_leads {p : Process (Except Failure (Option Outcome))} (hp : Leads Continues p)
    (hp' : Only Action.Serves p) :
    Keeps others (fun _ v => v.Fed i start stop goal) p (fun _ => True)
      fun o _ => Over i start stop goal (outcome? o) := by
  refine ((keeps_fed ho hp').and hp.keeps).weaken (P := fun _ v => v.Fed i start stop goal ∧
    v.Fed i start stop goal) (fun t v hv => ⟨hv, hv⟩) (fun _ _ => trivial)
    fun o t v hv => ⟨hv.1, fun f he => ?_⟩
  obtain ⟨-, hc⟩ := hv
  match o with
  | .error e => cases he
  | .ok none => cases he
  | .ok (some outcome) =>
    cases he
    cases hc

include ho in
theorem over_conclude : Keeps others (fun _ v => v.Fed i start stop goal)
    ((conclude i).bind ended) (fun _ => True) fun o _ => Over i start stop goal (outcome? o) := by
  have hend : Only Action.Serves (Operation.endList i) :=
    oblivious_endList.only.mono fun _ ha => ha.serves
  change Keeps others _ (Operation.endList i >>= fun _ => change i (.setStatus .done) >>= fun _ =>
    look i >>= fun s => ended (.ended s.flags.ended)) _ _
  refine keeps_bind (keeps_fed ho hend) fun _ => ?_
  refine keeps_perform (stable_fed ho) (fun _ _ _ => trivial) fun t v hv => ?_
  have hset : (Action.change i (.setStatus .done)).Serves := trivial
  have hdone : ∀ o,
      Over i start stop goal o ((Action.change i (.setStatus .done)).perform v).2 := by
    intro o
    refine ⟨hv.perform hset, fun f _ => ?_⟩
    rw [Action.slot_perform, if_pos hv.size, Action.onto_change, if_pos rfl]
    rfl
  refine Keeps.now (P := fun _ v => ∀ o, Over i start stop goal o v) ?_ hdone
  have hst : Stable others fun _ v => ∀ o, Over i start stop goal o v := fun t v u hvu hv o =>
    stable_over ho t v u hvu (hv o)
  refine keeps_perform hst (fun _ _ _ => trivial) fun t v hv => ?_
  refine Keeps.now (P := fun _ v => ∀ o, Over i start stop goal o v) ?_ hv
  exact keeps_stay hst (fun _ _ _ => trivial) fun t v hv => hv _

include ho in
theorem over_stopWith (arg : UInt32) (r : Except Failure UInt32) :
    Keeps others (fun _ v => v.Fed i start stop goal) (stopWith i arg r) (fun _ => True)
      fun o _ => Over i start stop goal (outcome? o) := by
  unfold stopWith
  split
  · exact over_conclude ho
  · exact keeps_stay (stable_fed ho) (fun _ _ _ => trivial) fun t v hv =>
      ⟨hv, fun f he => by cases he⟩
  · split
    · split
      · exact over_of_leads ho (leads_transfer _ _)
          ((oblivious_transfer _ _).only.mono fun _ ha => ha.serves)
      · exact over_conclude ho
    · exact over_conclude ho

include ho in
/-- **If a word ends the list, the list is done.** -/
theorem over_dispatch (r : Except Failure UInt32) :
    Keeps others (fun _ v => v.Fed i start stop goal) (dispatch watched i r) (fun _ => True)
      fun b _ => Over i start stop goal (finished? b) := by
  have hsettle : ∀ o, Keeps others (fun _ => Over i start stop goal (outcome? o)) (settle o)
      (fun _ => True) fun b _ => Over i start stop goal (finished? b) := by
    intro o
    match o with
    | .error e => exact keeps_stay (stable_over ho) (fun _ _ _ => trivial) fun _ _ h => h
    | .ok none => exact keeps_stay (stable_over ho) (fun _ _ _ => trivial) fun _ _ h => h
    | .ok (some outcome) => exact keeps_stay (stable_over ho) (fun _ _ _ => trivial) fun _ _ h => h
  cases r with
  | error e =>
    exact keeps_stay (stable_fed ho) (fun _ _ _ => trivial) fun t v hv =>
      ⟨hv, fun f he => by cases he⟩
  | ok word =>
    refine keeps_bind ?_ hsettle
    by_cases hs : ∃ arg, Command.decode word = .stop arg
    · obtain ⟨arg, hs⟩ := hs
      rw [hs]
      change Keeps others _ (Engine.stop i arg) _ _
      rw [stop_eq]
      refine keeps_bind (keeps_fed ho ?_) fun r => over_stopWith ho arg r
      exact only_tries (by simp [Action.Serves]) fun _ _ hc => ⟨by simp, hc⟩
    · exact over_of_leads ho (leads_step watched fun arg he => hs ⟨arg, he⟩)
        ((oblivious_step watched fun arg he => hs ⟨arg, he⟩).only.mono fun _ ha => ha.serves)

end Process

end DisplayList

import DisplayList.Proofs.Stalling

/-!
# Trailing a run of the whole list

A list is run beside its producer, and the same list is run alone with all its words in memory. If
that run never goes on past words that it has not come to, then the former trails the latter: it
does the same words in the same order, with waits at the stall address between them.

* `Near`: a run that does not go on past words that it has not come to;
* `OnWay`, `Trails`: a front end on its way through a run of the whole list, and one that follows
  it; **`keeps_word`**: a word takes the two to the same place;
* **`trails_round`**, **`trails_rounds`**: the list trails the run to its end, or to a wait in vain.
-/

namespace DisplayList

/-- The address `n` is not past the word after `start` and the words after those fetched in `t`. -/
def Reached (i : Nat) (start : Address) (t : List Move) (n : Nat) : Prop :=
  n ≤ start.toNat + 4 ∨ ∃ m ∈ t, m.Fetches i ∧ n ≤ (m.before.slot i).pc.toNat + 4

/-- The instruction address of the list at position `i` is never past the word after `start` and
the words after those fetched before. -/
def Near (i : Nat) (start : Address) (t : List Move) : Prop :=
  ∀ t₁ m t₂, t = t₁ ++ m :: t₂ → Reached i start t₁ (m.before.slot i).pc.toNat

variable {i n : Nat} {start stop : Address} {goal : Memory} {x y v u w : FrontEnd}

theorem Reached.append {t t' : List Move} (h : Reached i start t n) :
    Reached i start (t ++ t') n := by
  rcases h with hs | ⟨m, hm, hf, hle⟩
  · exact .inl hs
  · exact .inr ⟨m, List.mem_append_left _ hm, hf, hle⟩

theorem Near.left {t t' : List Move} (h : Near i start (t ++ t')) : Near i start t := by
  intro t₁ m t₂ ht
  refine h t₁ m (t₂ ++ t') ?_
  rw [ht, List.append_assoc, List.cons_append]

theorem Near.right {t t' : List Move} (h : Near i start (t ++ t'))
    (ht : ∀ m ∈ t, ¬ m.Fetches i) : Near i start t' := by
  rintro t₁ m t₂ rfl
  rcases h (t ++ t₁) m t₂ (List.append_assoc ..).symm with hle | ⟨m', hm', hf, hle⟩
  · exact .inl hle
  · rcases List.mem_append.1 hm' with hm' | hm'
    · exact absurd hf (ht m' hm')
    · exact .inr ⟨m', hm', hf, hle⟩

/-- Whether the move fetches a word of the list at position `i`. -/
def Move.isFetch (i : Nat) : Move → Bool
  | act (.access j .next) w =>
    j == i && ((Action.access i .next).perform w).1.elim (fun _ => false) fun r => r.toBool
  | act (.accessWith j a c .next) w =>
    j == i && ((Action.accessWith i a c .next).perform w).1.any Except.toBool
  | _ => false

theorem Move.fetches_of_isFetch {m : Move} (h : m.isFetch i = true) : m.Fetches i := by
  unfold isFetch at h
  split at h
  next j w =>
    rw [Bool.and_eq_true, beq_iff_eq] at h
    obtain ⟨rfl, h⟩ := h
    match hr : ((Action.access j .next).perform w).1, h with
    | .inr (.ok word), _ => exact ⟨word, .access hr⟩
  next j a c w =>
    rw [Bool.and_eq_true, beq_iff_eq] at h
    obtain ⟨rfl, h⟩ := h
    match hr : ((Action.accessWith j a c .next).perform w).1, h with
    | some (.ok word), _ => exact ⟨word, .accessWith hr⟩
  next => cases h

/-- Whether the instruction address is never past `bound` and the words after those fetched
before. -/
def isNear (i : Nat) : (bound : Nat) → List Move → Bool
  | _, [] => true
  | bound, m :: t =>
    let pc := (m.before.slot i).pc.toNat
    decide (pc ≤ bound) && isNear i (if m.isFetch i then max bound (pc + 4) else bound) t

theorem near_of_isNear {t : List Move} (h : isNear i (start.toNat + 4) t = true) :
    Near i start t := by
  -- All that was reached before stays reached, and `bound` is the end of it.
  have hgo : ∀ (t t₀ : List Move) (bound : Nat), isNear i bound t = true →
      (∀ n, n ≤ bound → Reached i start t₀ n) →
      ∀ t₁ m t₂, t = t₁ ++ m :: t₂ → Reached i start (t₀ ++ t₁) (m.before.slot i).pc.toNat := by
    intro t
    induction t with
    | nil =>
      intro t₀ bound _ _ t₁ m t₂ ht
      cases t₁ <;> cases ht
    | cons m₀ t ih =>
      intro t₀ bound h hb t₁ m t₂ ht
      unfold isNear at h
      rw [Bool.and_eq_true, decide_eq_true_iff] at h
      cases t₁ with
      | nil =>
        cases ht
        rw [List.append_nil]
        exact hb _ h.1
      | cons m₁ t₁ =>
        cases ht
        have hstep := ih (t₀ ++ [m₀]) _ h.2 (fun n hn => ?_) t₁ m t₂ rfl
        · rwa [List.append_assoc] at hstep
        by_cases hle : n ≤ bound
        · exact (hb n hle).append
        · split at hn
          next hf =>
            have hm₀ : m₀ ∈ t₀ ++ [m₀] := List.mem_append_right _ (List.mem_singleton_self _)
            exact .inr ⟨m₀, hm₀, Move.fetches_of_isFetch hf, by omega⟩
          next => exact absurd hn hle
  exact hgo t [] _ h fun n hn => .inl hn

/-! ## On the way -/

namespace Process

open Engine

variable {watched : Bool} {ρ : Except Failure Outcome}

/-- The front end `x` is on the way of a run of the whole list that ends with `ρ` in `y`. The words
fetched so far are those before `bound` at most. -/
structure OnWay (i : Nat) (start stop : Address) (goal : Memory) (watched : Bool)
    (ρ : Except Failure Outcome) (y : FrontEnd) (bound : Nat) (x : FrontEnd) : Prop where
  fed : x.Fed i start stop goal
  closed : x.closed = true
  run : ∃ t₁ t, Alone (iterate () fun _ => round watched i) x t ρ y ∧ Near i start (t₁ ++ t) ∧
    ∀ m ∈ t₁, m.Fetches i → (m.before.slot i).pc.toNat + 4 ≤ bound

/-- The front end trails a run of the whole list that has come to `x`, and at least the words before
`n` were handed over. -/
structure Trails (i : Nat) (start stop : Address) (goal : Memory) (watched : Bool)
    (ρ : Except Failure Outcome) (y : FrontEnd) (n : Nat) (x v : FrontEnd) : Prop where
  way : OnWay i start stop goal watched ρ y (v.slot i).stall.toNat x
  mirrors : Mirrors i start stop goal x v
  low : n ≤ (v.slot i).stall.toNat

/-- It trails the run, wherever that has come to. -/
def Trailing (i : Nat) (start stop : Address) (goal : Memory) (watched : Bool)
    (ρ : Except Failure Outcome) (y : FrontEnd) (n : Nat) (v : FrontEnd) : Prop :=
  ∃ x, Trails i start stop goal watched ρ y n x v

theorem OnWay.mono {m : Nat} (h : OnWay i start stop goal watched ρ y n x) (hnm : n ≤ m) :
    OnWay i start stop goal watched ρ y m x := by
  obtain ⟨t₁, t, hrun, hnear, hbound⟩ := h.run
  exact ⟨h.fed, h.closed, t₁, t, hrun, hnear, fun m hm hf => Nat.le_trans (hbound m hm hf) hnm⟩

theorem OnWay.stall (h : OnWay i start stop goal watched ρ y n x) : (x.slot i).stall = stop :=
  h.fed.closed h.closed

theorem alone_round {α : Type} {k : Unit ⊕ Except Failure Outcome → Process α} {t : List Move}
    {r : α} (h : Alone ((round watched i).bind k) x t r y) : ∃ t', t = .act (.look i) x :: t' ∧
      Alone (Process.bind (if (x.slot i).flags.paused then .done (.inr (.ok .paused))
        else unpaused watched i) k) x t' r y :=
  alone_act.1 h

theorem alone_word {α : Type} {k : Unit ⊕ Except Failure Outcome → Process α} {t : List Move}
    {r : α} (h : Alone ((unpaused watched i).bind k) x t r y) (hs : (x.slot i).isStalled = false) :
    ∃ z x₁ b x₂ t₁ t₂ t₃, t = .act (.look i) x :: (t₁ ++ (t₂ ++ t₃)) ∧
      Alone (Operation.access i .next) x t₁ z x₁ ∧ Alone (dispatch watched i z) x₁ t₂ b x₂ ∧
      Alone (k b) x₂ t₃ r y := by
  obtain ⟨t', rfl, h'⟩ := alone_act.1 h
  change Alone (Process.bind (if (x.slot i).isStalled then _ else _) k) x t' r y at h'
  rw [if_neg (by rw [hs]; decide), bind_assoc] at h'
  obtain ⟨z, x₁, t₁, t₂', rfl, h₁, h₂⟩ := alone_bind.1 h'
  obtain ⟨b, x₂, t₂, t₃, rfl, h₂, h₃⟩ := alone_bind.1 h₂
  exact ⟨z, x₁, b, x₂, t₁, t₂, t₃, rfl, h₁, h₂, h₃⟩

/-- **The run never goes on past the words handed over.** -/
theorem Trails.pc_le (h : Trails i start stop goal watched ρ y n x v) :
    (v.slot i).pc.toNat ≤ (v.slot i).stall.toNat := by
  obtain ⟨t₁, t, hrun, hnear, hbound⟩ := h.way.run
  obtain ⟨t', rfl, -⟩ := alone_round (alone_loop.1 hrun)
  rw [h.mirrors.pc]
  have hlow := h.mirrors.fed.slot.low
  have hstall := h.mirrors.fed.slot.mod_stall
  have hmod := h.way.fed.slot.follows.mod
  rcases hnear t₁ _ t' rfl with hle | ⟨m, hm, hf, hle⟩
  · change (x.slot i).pc.toNat ≤ start.toNat + 4 at hle
    omega
  · have hb := hbound m hm hf
    change (x.slot i).pc.toNat ≤ (m.before.slot i).pc.toNat + 4 at hle
    omega

variable {others : FrontEnd → FrontEnd → Prop}
  (ho : ∀ v u, others v u → Feeder i start stop goal v u)

/-- At least the words before `n` were handed over. -/
structure Beyond (i : Nat) (start stop : Address) (goal : Memory) (n : Nat) (v : FrontEnd) :
    Prop where
  fed : v.Fed i start stop goal
  low : n ≤ (v.slot i).stall.toNat

include ho in
theorem stable_beyond : Stable others fun _ => Beyond i start stop goal n := fun t v u hvu hv => by
  have hf := ho v u hvu hv.fed
  exact ⟨hf.fed, Nat.le_trans hv.low hf.stall⟩

theorem Beyond.perform {a : Action} (h : Beyond i start stop goal n v) (ha : a.Serves) :
    Beyond i start stop goal n (a.perform v).2 := by
  have hstall : ((a.perform v).2.slot i).stall = (v.slot i).stall :=
    Action.slot_perform_of (P := fun s => s.stall = (v.slot i).stall) rfl (ha.stall_onto ..)
  refine ⟨h.fed.perform ha, ?_⟩
  rw [hstall]
  exact h.low

theorem Beyond.tell (h : Beyond i start stop goal n v) (r : Report) :
    Beyond i start stop goal n (v.tell r).2 := by
  refine ⟨h.fed.tell r, ?_⟩
  rw [FrontEnd.slot_tell]
  exact h.low

include ho in
theorem keeps_beyond {α : Type} {p : Process α} (hp : Only Action.Serves p) :
    Keeps others (fun _ => Beyond i start stop goal n) p (fun _ => True)
      fun _ _ => Beyond i start stop goal n :=
  keeps_only (stable_beyond ho) (fun _ _ ha h => h.perform ha) (fun r _ h => h.tell r) hp

theorem alone_whole {α : Type} {p : Process α} {t : List Move} {r : α} (hp : Only Action.Serves p)
    (hx : x.Fed i start stop goal) (hc : x.closed = true) (h : Alone p x t r y) :
    y.Fed i start stop goal ∧ y.closed = true := by
  refine alone_only (P := fun w => w.Fed i start stop goal ∧ w.closed = true) (fun a w ha hw => ?_)
    (fun r w hw => ?_) hp ⟨hx, hc⟩ h
  · exact ⟨hw.1.perform ha, (ha.frame w).2.1.trans hw.2⟩
  · obtain ⟨host, journal, ht⟩ := w.tell_frame r
    refine ⟨hw.1.tell r, ?_⟩
    rw [ht]
    exact hw.2

/-! ## A word, on the way -/

/-- The status of a list whose run has come to an outcome. One that was paused may have any that
is not over. -/
def Rests (i : Nat) : Except Failure Outcome → FrontEnd → Prop
  | .ok (.ended _), v => (v.slot i).status = .done
  | .ok .stalled, v => (v.slot i).status = .stallReached
  | _, _ => True

theorem Rests.congr {r : Except Failure Outcome} (h : Rests i r v)
    (hs : (u.slot i).status = (v.slot i).status) : Rests i r u := by
  match r with
  | .error e => trivial
  | .ok (.ended f) => exact hs.trans h
  | .ok .paused => trivial
  | .ok .stalled => exact hs.trans h

/-- The run of the whole list has come to its end. -/
structure AtEnd (i : Nat) (start stop : Address) (goal : Memory) (ρ : Except Failure Outcome)
    (y v : FrontEnd) : Prop where
  mirrors : Mirrors i start stop goal y v
  rests : Rests i ρ v

include ho in
theorem stable_atEnd : Stable others fun _ => AtEnd i start stop goal ρ y := by
  intro t v u hvu hv
  have hf := ho v u hvu
  exact ⟨hv.mirrors.feeder hf, hv.rests.congr (hf hv.mirrors.fed).status⟩

theorem rests_of_over {r : Except Failure Outcome}
    (h : Over i start stop goal (finished? (.inr r)) v) (hne : r ≠ .ok .stalled) : Rests i r v := by
  match r, h, hne with
  | .error e, _, _ => trivial
  | .ok (.ended f), h, _ => exact h.status f rfl
  | .ok .paused, _, _ => trivial
  | .ok .stalled, _, hne => exact absurd rfl hne

/-- Where a word takes the run of the whole list: further on its way, or to its end. -/
def Onward (i : Nat) (start stop : Address) (goal : Memory) (watched : Bool)
    (ρ : Except Failure Outcome) (y : FrontEnd) (n : Nat) :
    Unit ⊕ Except Failure Outcome → FrontEnd → Prop :=
  Sum.elim (fun _ => OnWay i start stop goal watched ρ y n) fun r x => r = ρ ∧ x = y

theorem serves_next : Only Action.Serves (Operation.access i .next) :=
  only_tries (by simp [Action.Serves]) fun _ _ hc => ⟨by simp, hc⟩

theorem serves_dispatch (z : Except Failure UInt32) :
    Only Action.Serves (dispatch watched i z) :=
  (only_dispatch z).mono fun _ ha => ha.serves

theorem not_fetches_dispatch {z : Except Failure UInt32} {b : Unit ⊕ Except Failure Outcome}
    {t : List Move} (h : Alone (dispatch watched i z) x t b y) : ∀ m ∈ t, ¬ m.Fetches i := by
  intro m hm
  have hobeys := (goes_only (only_dispatch z) h).1 m hm
  cases m with
  | act a w =>
    have ha : a.Obeys := hobeys
    exact ha.not_fetches w
  | report r w => exact Move.not_fetches_report r w

theorem can_next (h : Mirrors i start stop goal x v)
    (hpc : (x.slot i).pc.toNat < (v.slot i).stall.toNat) : Can i .next v := by
  refine ⟨?_, fun he => by cases he⟩
  change (v.slot i).pc.toNat < (v.slot i).stall.toNat
  rw [h.pc]
  exact hpc

/-- **A word of the run** of the whole list, which fetches that word and no other. -/
theorem OnWay.word (h : OnWay i start stop goal watched ρ y n x)
    (hpaused : (x.slot i).flags.paused = false) (hpc : (x.slot i).pc.toNat + 4 ≤ n)
    (hstop : n ≤ stop.toNat) : ∃ z x₁ b x₂ t₁ t₂, Alone (Operation.access i .next) x t₁ z x₁ ∧
      Alone (dispatch watched i z) x₁ t₂ b x₂ ∧ Onward i start stop goal watched ρ y n b x₂ := by
  obtain ⟨t₀, t, hrun, hnear, hbound⟩ := h.run
  have hcan : Can i .next x := by
    refine can_next ⟨h.fed, rfl⟩ ?_
    rw [h.stall]
    omega
  have hstalled : (x.slot i).isStalled = false := by
    unfold Slot.isStalled
    rw [Bool.and_eq_false_iff, h.stall]
    left
    rw [beq_eq_false_iff_ne]
    intro he
    rw [he] at hpc
    omega
  obtain ⟨t', rfl, hround⟩ := alone_round (alone_loop.1 hrun)
  rw [if_neg (by rw [hpaused]; decide)] at hround
  obtain ⟨z, x₁, b, x₂, t₁, t₂, t₃, rfl, hread, hdispatch, hrest⟩ := alone_word hround hstalled
  refine ⟨z, x₁, b, x₂, t₁, t₂, hread, hdispatch, ?_⟩
  cases b with
  | inr r =>
    obtain ⟨-, hr, hx⟩ := alone_done.1 hrest
    exact ⟨hr.symm, hx.symm⟩
  | inl s =>
    obtain ⟨hfed₁, hclosed₁⟩ := alone_whole serves_next h.fed h.closed hread
    obtain ⟨hfed₂, hclosed₂⟩ := alone_whole (serves_dispatch z) hfed₁ hclosed₁ hdispatch
    obtain ⟨hfetches, -⟩ := keeps_read feeder_nobody (by simp) h.fed hcan hread
    have hlook : ¬ (Move.act (.look i) x).Fetches i :=
      (Action.Plain.obeys (a := .look i) trivial).not_fetches x
    refine ⟨hfed₂, hclosed₂, t₀ ++ .act (.look i) x :: .act (.look i) x :: (t₁ ++ t₂), t₃, hrest,
      ?_, fun m hm hf => ?_⟩
    · simpa only [List.append_assoc, List.cons_append] using hnear
    rw [List.mem_append, List.mem_cons, List.mem_cons, List.mem_append] at hm
    rcases hm with hm | rfl | rfl | hm | hm
    · exact hbound m hm hf
    · exact absurd hf hlook
    · exact absurd hf hlook
    · rw [hfetches m hm hf]
      exact hpc
    · exact absurd hf (not_fetches_dispatch hdispatch m hm)

include ho in
theorem keeps_mirrors {z : Except Failure UInt32} {b : Unit ⊕ Except Failure Outcome}
    {x₁ x₂ : FrontEnd} {t₁ t₂ : List Move} (hx : x.Fed i start stop goal) (hcan : Can i .next x)
    (hread : Alone (Operation.access i .next) x t₁ z x₁)
    (hdispatch : Alone (dispatch watched i z) x₁ t₂ b x₂) :
    Keeps others (fun _ v => Mirrors i start stop goal x v ∧ Can i .next v)
      ((Operation.access i .next).bind (dispatch watched i)) (fun _ => True)
      fun b' _ v => b' = b ∧ Mirrors i start stop goal x₂ v := by
  obtain ⟨-, hfed₁, hcan₁, hkeeps⟩ := keeps_read ho (by simp) hx hcan hread
  refine keeps_bind hkeeps fun z' => keeps_iff.2 fun t v hv => ?_
  obtain ⟨rfl, hm, hc⟩ := hv
  exact (keeps_dispatch ho hfed₁ hcan₁ hdispatch).now ⟨hm, hc⟩

/-- What a word leaves: a front end that trails the run, or the end of the run, which is no wait. -/
def Done (i : Nat) (start stop : Address) (goal : Memory) (watched : Bool)
    (ρ : Except Failure Outcome) (y : FrontEnd) (n : Nat) :
    Unit ⊕ Except Failure Outcome → FrontEnd → Prop :=
  Sum.elim (fun _ => Trailing i start stop goal watched ρ y n) fun r v =>
    r = ρ ∧ ρ ≠ .ok .stalled ∧ AtEnd i start stop goal ρ y v

include ho in
/-- **A word is done** beside the producer as in the run of the whole list. -/
theorem keeps_word (hway : OnWay i start stop goal watched ρ y n x)
    (hpaused : (x.slot i).flags.paused = false) (hpc : (x.slot i).pc.toNat + 4 ≤ n)
    (hstop : n ≤ stop.toNat) :
    Keeps others (fun _ v => Mirrors i start stop goal x v ∧ n ≤ (v.slot i).stall.toNat)
      ((Operation.access i .next).bind (dispatch watched i)) (fun _ => True)
      fun b _ => Done i start stop goal watched ρ y n b := by
  obtain ⟨z, x₁, b, x₂, t₁, t₂, hread, hdispatch, honward⟩ := hway.word hpaused hpc hstop
  have hcan : ∀ v, Mirrors i start stop goal x v → n ≤ (v.slot i).stall.toNat → Can i .next v :=
    fun v hv hn => can_next hv (by omega)
  have hcanx : Can i .next x := by
    refine hcan x ⟨hway.fed, rfl⟩ ?_
    rw [hway.stall]
    exact hstop
  have hmirrors := keeps_mirrors ho hway.fed hcanx hread hdispatch
  have hserves : Only Action.Serves ((Operation.access i .next).bind (dispatch watched i)) :=
    serves_next.bind serves_dispatch
  have hbeyond := keeps_beyond (n := n) ho hserves
  have hover : Keeps others (fun _ v => v.Fed i start stop goal)
      ((Operation.access i .next).bind (dispatch watched i)) (fun _ => True)
      fun b _ => Over i start stop goal (finished? b) :=
    keeps_bind (keeps_fed ho serves_next) fun z => over_dispatch ho z
  refine ((hmirrors.and hbeyond).and hover).weaken (fun t v hv => ?_) (fun _ _ => trivial)
    fun b' t v hv => ?_
  · exact ⟨⟨⟨hv.1, hcan v hv.1 hv.2⟩, hv.1.fed, hv.2⟩, hv.1.fed⟩
  obtain ⟨⟨⟨rfl, hm⟩, hb⟩, hend⟩ := hv
  cases b' with
  | inl s => exact ⟨x₂, honward.mono hb.low, hm, hb.low⟩
  | inr r =>
    obtain ⟨rfl, rfl⟩ := honward
    have hne : r ≠ .ok .stalled := fun he => alone_dispatch_ne hdispatch (congrArg Sum.inr he)
    exact ⟨rfl, hne, hm, rests_of_over hend hne⟩

theorem Trails.feeder (h : Trails i start stop goal watched ρ y n x v)
    (hf : Feeder i start stop goal v u) : Trails i start stop goal watched ρ y n x u := by
  have hstall := (hf h.mirrors.fed).stall
  exact ⟨h.way.mono hstall, h.mirrors.feeder hf, Nat.le_trans h.low hstall⟩

theorem Trails.hidden {a : Action} (h : Trails i start stop goal watched ρ y n x v)
    (ha : a.Hidden) : Trails i start stop goal watched ρ y n x (a.perform v).2 := by
  have hstall : ((a.perform v).2.slot i).stall = (v.slot i).stall :=
    Action.slot_perform_of (P := fun s => s.stall = (v.slot i).stall) rfl (ha.serves.stall_onto ..)
  refine ⟨?_, ⟨h.mirrors.fed.perform ha.serves, (ha.shown v).trans h.mirrors.shown⟩, ?_⟩
  · rw [hstall]
    exact h.way
  · rw [hstall]
    exact h.low

theorem Trails.atStall (h : Trails i start stop goal watched ρ y n x v)
    (hp : (x.slot i).flags.paused = false) (hs : (v.slot i).isStalled = true)
    (hn : stop.toNat ≤ n) : AtStall i x x := by
  refine ⟨h.way.fed.size, rfl, hp, ?_⟩
  have hstall : (v.slot i).stall = stop := by
    have hlow := h.low
    have hhigh := h.mirrors.fed.slot.high
    exact UInt32.toNat_inj.1 (by omega)
  unfold Slot.isStalled at hs ⊢
  rw [h.way.stall, ← h.mirrors.pc]
  rw [hstall] at hs
  exact hs

/-- What a round, and what all rounds come to: beside the producer the list may stall before it has
all its words. -/
def Came (i : Nat) (start stop : Address) (goal : Memory) (watched : Bool)
    (ρ : Except Failure Outcome) (y : FrontEnd) (n : Nat) (r : Except Failure Outcome)
    (v : FrontEnd) : Prop :=
  (r = ρ ∧ (ρ = .ok .stalled → stop.toNat ≤ n) ∧ AtEnd i start stop goal ρ y v) ∨
    (r = .ok .stalled ∧ n < stop.toNat ∧ Stalled i (Trailing i start stop goal watched ρ y n) v)

/-- What a round comes to. -/
abbrev AfterRound (i : Nat) (start stop : Address) (goal : Memory) (watched : Bool)
    (ρ : Except Failure Outcome) (y : FrontEnd) (n : Nat) :
    Unit ⊕ Except Failure Outcome → Assertion :=
  Sum.elim (fun _ _ => Trailing i start stop goal watched ρ y n)
    fun r _ => Came i start stop goal watched ρ y n r

theorem Trails.next_le (h : Trails i start stop goal watched ρ y n x v)
    (hs : (v.slot i).isStalled = false) : (x.slot i).pc.toNat + 4 ≤ (v.slot i).stall.toNat := by
  have hle := h.pc_le
  have hmod := h.mirrors.fed.slot.mod_stall
  have hmod' := h.mirrors.fed.slot.follows.mod
  have hlow := h.mirrors.fed.slot.low
  have hne : (v.slot i).pc.toNat ≠ (v.slot i).stall.toNat := by
    intro he
    rw [UInt32.toNat_inj] at he
    unfold Slot.isStalled at hs
    rw [he, beq_self_eq_true, Bool.true_and, bne_eq_false_iff_eq] at hs
    rw [hs] at hlow
    exact absurd hlow (Nat.not_lt_zero _)
  rw [← h.mirrors.pc]
  omega

include ho in
theorem stable_trails : Stable others fun _ => Trails i start stop goal watched ρ y n x :=
  fun _ v u hvu hv => hv.feeder (ho v u hvu)

include ho in
theorem trails_wait (hpaused : (x.slot i).flags.paused = false)
    (hv : Trails i start stop goal watched ρ y n x v) (hs : (v.slot i).isStalled = true) :
    Keeps others (fun _ => Trails i start stop goal watched ρ y n x)
      (change i (.setStatus .stallReached) >>= fun _ => perform (.await i) >>= waited i)
      (fun _ => True) (AfterRound i start stop goal watched ρ y n) := by
  refine (keeps_wait (stable_trails ho) (fun a w ha hw => hw.hidden ha)
    (fun w hw => hw.mirrors.fed.size)
    fun v u hvu hv => (ho v u hvu hv.mirrors.fed).status).post fun r t u hu => ?_
  cases r with
  | inl s => exact ⟨x, hu⟩
  | inr r =>
    obtain ⟨rfl, hu, hstatus⟩ := hu
    by_cases hn : n < stop.toNat
    · exact .inr ⟨rfl, hn, ⟨x, hu⟩, hstatus⟩
    -- All words were handed over, and the run of the whole list stalls in the same place.
    · obtain ⟨t₁, t, hrun, -⟩ := hv.way.run
      have hat := hv.atStall hpaused hs (by omega)
      obtain ⟨hρ, hy⟩ := alone_stalled hat hrun
      refine .inl ⟨hρ.symm, fun _ => by omega,
        ⟨hu.mirrors.fed, hu.mirrors.shown.trans hy.1.shown.symm⟩, ?_⟩
      rw [hρ]
      exact hstatus

include ho in
theorem trails_word {t : List Move} (hpaused : (x.slot i).flags.paused = false)
    (hv : Trails i start stop goal watched ρ y n x v) (hs : (v.slot i).isStalled = false) :
    Keeps others (Now t v) ((Operation.access i .next).bind (dispatch watched i)) (fun _ => True)
      (AfterRound i start stop goal watched ρ y n) := by
  have hword := keeps_word ho hv.way hpaused (hv.next_le hs) hv.mirrors.fed.slot.high
  refine (hword.now ⟨hv.mirrors, Nat.le_refl _⟩).post fun r t u hu => ?_
  cases r with
  | inl s =>
    obtain ⟨x', hx'⟩ := hu
    exact ⟨x', hx'.way, hx'.mirrors, Nat.le_trans hv.low hx'.low⟩
  | inr r =>
    obtain ⟨hr, hne, hend⟩ := hu
    exact .inl ⟨hr, fun he => absurd he hne, hend⟩

include ho in
/-- **A round** beside the producer. -/
theorem trails_round : Keeps others (fun _ => Trailing i start stop goal watched ρ y n)
    (round watched i) (fun _ => True) (AfterRound i start stop goal watched ρ y n) := by
  refine keeps_iff.2 fun t v hv => ?_
  obtain ⟨x, hv⟩ := hv
  have hst : Stable others fun _ => Trails i start stop goal watched ρ y n x := stable_trails ho
  refine Keeps.now (P := fun _ => Trails i start stop goal watched ρ y n x) ?_ hv
  rw [round_eq]
  refine keeps_perform hst (fun _ _ _ => trivial) fun t v hv => ?_
  refine Keeps.now (P := fun _ => Trails i start stop goal watched ρ y n x) ?_ hv
  have hflags : (v.slot i).flags = (x.slot i).flags := (congrArg Slot.flags hv.mirrors.slot :)
  obtain ⟨t₁, t, hrun, -⟩ := hv.way.run
  obtain ⟨t', -, hround⟩ := alone_round (alone_loop.1 hrun)
  change Keeps _ _ (if (v.slot i).flags.paused then _ else _) _ _
  rw [hflags]
  cases hpaused : (x.slot i).flags.paused with
  | true =>
    rw [if_pos hpaused] at hround
    obtain ⟨-, rfl, rfl⟩ := alone_done.1 hround
    exact keeps_stay hst (fun _ _ _ => trivial) fun t u hu =>
      .inl ⟨rfl, (fun he => by cases he), hu.mirrors, trivial⟩
  | false =>
    refine keeps_perform hst (fun _ _ _ => trivial) fun t v hv => ?_
    change Keeps _ _ (if (v.slot i).isStalled then _ else _) _ _
    cases hs : (v.slot i).isStalled with
    | true => exact (trails_wait ho hpaused hv hs).now hv
    | false => exact trails_word ho hpaused hv hs

include ho in
/-- **A list that is handed over in parts runs like the whole list**, up to waits in vain. -/
theorem trails_rounds : Keeps others (fun _ => Trailing i start stop goal watched ρ y n)
    (iterate () fun _ => round watched i) (fun _ => True)
    fun r _ => Came i start stop goal watched ρ y n r := by
  refine keeps_iterate (I := fun _ _ => Trailing i start stop goal watched ρ y n)
    (fun _ _ h => h) (fun _ _ _ => trivial) (fun t v u hvu hv => ?_) fun _ => trails_round ho
  obtain ⟨x, hv⟩ := hv
  exact ⟨x, hv.feeder (ho v u hvu)⟩

/-- **The status** in which a run of the whole list leaves it. -/
theorem OnWay.rests (h : OnWay i start stop goal watched ρ y n x) (hn : n ≤ stop.toNat) :
    Rests i ρ y := by
  obtain ⟨t₁, t, hrun, -⟩ := h.run
  have hstall := h.stall
  have hway : OnWay i start stop goal watched ρ y (x.slot i).stall.toNat x := by
    rw [hstall]
    exact h.mono hn
  have hlow : stop.toNat ≤ (x.slot i).stall.toNat :=
    Nat.le_of_eq (congrArg UInt32.toNat hstall.symm)
  have hkeeps : Keeps Nobody (fun _ => Trailing i start stop goal watched ρ y stop.toNat)
      (iterate () fun _ => round watched i) (fun _ => True)
      fun r _ => Came i start stop goal watched ρ y stop.toNat r :=
    trails_rounds fun _ _ hnobody => hnobody.elim
  obtain ⟨-, hcame⟩ := hkeeps.alone ⟨x, hway, ⟨h.fed, rfl⟩, hlow⟩ hrun
  rcases hcame with ⟨-, -, hend⟩ | ⟨-, hlt, -⟩
  · exact hend.rests
  · exact absurd hlt (Nat.lt_irrefl _)

end Process

end DisplayList
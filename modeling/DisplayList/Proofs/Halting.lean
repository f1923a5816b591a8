import DisplayList.Proofs.Telling

/-!
# Processes that come to an end

A process beside others need not come to an end because it does when it is left alone, and a bound
on what it does so far says nothing of whether it goes on. `Halts` says that it comes to an end
whatever the others do between its moves, and how many words of a list it may fetch until then.

* `Halts`: such a process; **`Halts.goes`**, `Halts.returns`: what that says of its runs;
* `Halts.bind`, `halts_perform`, **`halts_leads`**, **`halts_iterate`**: processes put
  together.
-/

namespace DisplayList.Process

/-- How many words of the list at position `i` a move fetches. -/
def price (i : Nat) (m : Move) : Nat :=
  (fetched i [m]).length

theorem price_eq (i : Nat) (m : Move) : price i m = (m.word? i).toList.length := by
  unfold price fetched
  rw [List.filterMap_cons]
  cases m.word? i <;> rfl

theorem length_fetched_cons (i : Nat) (m : Move) (t : List Move) :
    (fetched i (m :: t)).length = price i m + (fetched i t).length := by
  rw [← List.singleton_append, fetched_append, List.length_append, price]

theorem price_of_not_isNext {i : Nat} {a : Action} (h : ¬ a.IsNext) (w : FrontEnd) :
    price i (.act a w) = 0 := by
  rw [price_eq, word?_of_not_isNext h]
  rfl

theorem price_report (i : Nat) (r : Report) (w : FrontEnd) : price i (.report r w) = 0 := rfl

/-- Whatever `others` do between its moves, the process comes to its end, and fetches at most `n`
words of the list at position `i` on the way; then `Q` holds of its result, of the state, and of how
many words it might still have fetched. -/
inductive Halts (others : FrontEnd → FrontEnd → Prop) (i : Nat) {α : Type}
    (Q : α → FrontEnd → Nat → Prop) : Process α → FrontEnd → Nat → Prop
  | done {a : α} {w : FrontEnd} {n : Nat} :
    (∀ v, Relation.ReflTransGen others w v → Q a v n) → Halts others i Q (.done a) w n
  | act {a : Action} {k : a.Answer → Process α} {w : FrontEnd} {n : Nat} :
    (∀ v, Relation.ReflTransGen others w v → price i (.act a v) ≤ n) →
    (∀ v, Relation.ReflTransGen others w v →
      Halts others i Q (k (a.perform v).1) (a.perform v).2 (n - price i (.act a v))) →
    Halts others i Q (.act a k) w n
  | report {r : Report} {k : Process α} {w : FrontEnd} {n : Nat} :
    (∀ v, Relation.ReflTransGen others w v → Halts others i Q k (v.tell r).2 n) →
    Halts others i Q (.report r k) w n
  | loop {σ β : Type} {round : σ → Process (σ ⊕ β)} {s : σ} {k : β → Process α} {w : FrontEnd}
    {n : Nat} : Halts others i Q ((round s).bind (resume round k)) w n →
    Halts others i Q (.loop round s k) w n

section Halts

variable {α β σ : Type} {others : FrontEnd → FrontEnd → Prop} {i n : Nat}
  {Q Q' : α → FrontEnd → Nat → Prop} {p q : Process α} {w v u : FrontEnd} {t : List Move}

theorem Halts.wait (h : Halts others i Q p w n) (hv : Relation.ReflTransGen others w v) :
    Halts others i Q p v n := by
  induction h with
  | done hQ => exact .done fun u hu => hQ u (hv.trans hu)
  | act hprice hk _ => exact .act (fun u hu => hprice u (hv.trans hu)) fun u hu => hk u (hv.trans hu)
  | report hk _ => exact .report fun u hu => hk u (hv.trans hu)
  | loop _ ih => exact .loop (ih hv)

/-- **On every run** no more words are fetched, and what is left comes to its end. -/
theorem Halts.goes (h : Halts others i Q p w n) (hg : Goes others p w t q u) :
    (fetched i t).length ≤ n ∧ Halts others i Q q u (n - (fetched i t).length) := by
  induction hg generalizing n with
  | stay => exact ⟨Nat.zero_le n, h⟩
  | other ho _ ih => exact ih (h.wait (.single ho))
  | act _ ih =>
    cases h with
    | act hprice hk =>
      obtain ⟨hle, hrest⟩ := ih (hk _ .refl)
      have hhere := hprice _ .refl
      rw [length_fetched_cons, ← Nat.sub_sub]
      exact ⟨by omega, hrest⟩
  | report _ ih =>
    cases h with
    | report hk =>
      rw [length_fetched_cons, price_report, Nat.zero_add]
      exact ih (hk _ .refl)
  | loop _ ih =>
    cases h with
    | loop h => exact ih h

theorem Halts.returns (h : Halts others i Q p w n) : Returns p w := by
  induction h with
  | done => exact ⟨_, _, _, .stay ..⟩
  | act _ _ ih =>
    obtain ⟨t, a, u, hg⟩ := ih _ .refl
    exact ⟨_, a, u, .act hg⟩
  | report _ ih =>
    obtain ⟨t, a, u, hg⟩ := ih _ .refl
    exact ⟨_, a, u, .report hg⟩
  | loop _ ih =>
    obtain ⟨t, a, u, hg⟩ := ih
    exact ⟨t, a, u, .loop hg⟩

theorem Halts.result {a : α} (h : Halts others i Q (.done a) w n) : Q a w n := by
  cases h with
  | done hQ => exact hQ w .refl

theorem Halts.mono (h : Halts others i Q p w n) (hle : ∀ a v m, Q a v m → Q' a v m) :
    Halts others i Q' p w n := by
  induction h with
  | done hQ => exact .done fun v hv => hle _ _ _ (hQ v hv)
  | act hprice _ ih => exact .act hprice ih
  | report _ ih => exact .report ih
  | loop _ ih => exact .loop ih

/-- **A sequence.** -/
theorem Halts.bind {p : Process β} {f : β → Process α}
    (h : Halts others i (fun b v m => Halts others i Q (f b) v m) p w n) :
    Halts others i Q (p.bind f) w n := by
  induction h with
  | done hQ => exact hQ _ .refl
  | act hprice _ ih => exact .act hprice ih
  | report _ ih => exact .report ih
  | loop _ ih =>
    refine .loop ?_
    rw [← resume_bind]
    exact ih

theorem halts_perform {a : Action} {f : a.Answer → Process α} (ha : ¬ a.IsNext)
    (h : ∀ v, Relation.ReflTransGen others w v →
      Halts others i Q (f (a.perform v).1) (a.perform v).2 n) :
    Halts others i Q (perform a >>= f) w n := by
  refine .act (fun v _ => ?_) fun v hv => ?_
  · rw [price_of_not_isNext ha]
    exact Nat.zero_le n
  · rw [price_of_not_isNext ha]
    exact h v hv

/-- **A process without loops** that fetches nothing and whose every action keeps what is known of
the state. -/
theorem halts_leads {S : α → Prop} {allowed : Action → Prop} {P : FrontEnd → Prop}
    (hothers : ∀ v u, others v u → P v → P u) (hnext : ∀ a, allowed a → ¬ a.IsNext)
    (hact : ∀ a v, allowed a → P v → P (a.perform v).2) (htell : ∀ r v, P v → P (v.tell r).2)
    (hS : Leads S p) (hp : Only allowed p) (hw : P w) :
    Halts others i (fun a v m => m = n ∧ S a ∧ P v) p w n := by
  have hwait : ∀ {w v}, P w → Relation.ReflTransGen others w v → P v := fun hw hv => by
    induction hv with
    | refl => exact hw
    | tail _ ho ih => exact hothers _ _ ho ih
  induction p generalizing w with
  | done a => exact .done fun v hv => ⟨rfl, hS, hwait hw hv⟩
  | act a k ih =>
    refine halts_perform (hnext a hp.1) fun v hv => ?_
    exact ih _ (hS _) (hp.2 _) (hact a v hp.1 (hwait hw hv))
  | report r k ih => exact .report fun v hv => ih hS hp (htell r v (hwait hw hv))
  | loop => exact hS.elim

/-- **A loop**, each round of which comes to its end and leaves less to be done. -/
theorem halts_iterate {round : σ → Process (σ ⊕ α)} {I : σ → FrontEnd → Nat → Prop}
    (rest : FrontEnd → Nat → Nat) (hQ : ∀ a v u n, others v u → Q a v n → Q a u n)
    (hround : ∀ s w n, I s w n → Halts others i (fun x v m => match x with
      | .inl s' => I s' v m ∧ rest v m < rest w n
      | .inr a => Q a v m) (round s) w n)
    (s : σ) (h : I s w n) : Halts others i Q (iterate s round) w n := by
  -- Induction on what is left to be done: the invariant comes back with less of it.
  induction hr : rest w n using Nat.strongRecOn generalizing s w n with
  | ind k ih =>
    refine .loop (Halts.bind ((hround s w n h).mono fun x v m hx => ?_))
    cases x with
    | inl s' => exact ih _ (hr ▸ hx.2) s' hx.1 rfl
    | inr a =>
      refine .done fun u hu => ?_
      induction hu with
      | refl => exact hx
      | tail _ ho ih => exact hQ _ _ _ _ ho ih

end Halts

end DisplayList.Process

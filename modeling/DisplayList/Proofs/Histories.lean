import DisplayList.Proofs.Beside
import Mathlib.Data.List.Induction

/-!
# Histories

What happens one thing after the other is a list that grows at its end.

* `concat_eq_append_cons`, `filterMap_concat`: a place in such a list is its end, or a place in what
  was there before;
* `Since`, **`since_concat`**: something has happened, and nothing of another kind since then;
* `History`: the moves that were made on a front end, by whomever; `History.kept`: what they keep.
-/

namespace DisplayList

section Since

variable {α : Type*} {P Q : α → Prop} {t a b : List α} {x y : α}

theorem concat_eq_append_cons : t ++ [x] = a ++ y :: b ↔
    (b = [] ∧ t = a ∧ x = y) ∨ ∃ c, b = c ++ [x] ∧ t = a ++ y :: c := by
  constructor
  · intro h
    rcases List.eq_nil_or_concat b with rfl | ⟨c, z, rfl⟩
    · obtain ⟨ht, hx⟩ := List.append_inj' h rfl
      exact .inl ⟨rfl, ht, by simpa using hx⟩
    · have h : t ++ [x] = (a ++ y :: c) ++ [z] := by simpa using h
      obtain ⟨ht, hx⟩ := List.append_inj' h rfl
      cases hx
      exact .inr ⟨c, List.concat_eq_append, ht⟩
  · rintro (⟨rfl, rfl, rfl⟩ | ⟨c, rfl, rfl⟩)
    · rfl
    · simp

theorem filterMap_concat {β : Type*} (f : α → Option β) (t : List α) (x : α) :
    (t ++ [x]).filterMap f = t.filterMap f ++ (f x).toList := by
  rw [List.filterMap_append, List.filterMap_cons]
  cases f x <;> rfl

/-- Something that is `P` has happened, and nothing that is `Q` since then. -/
def Since (P Q : α → Prop) (t : List α) : Prop :=
  ∃ a x b, t = a ++ x :: b ∧ P x ∧ ∀ y ∈ b, ¬ Q y

theorem not_since_nil : ¬ Since P Q [] := by
  rintro ⟨a, x, b, h, -⟩
  simp at h

/-- **One more thing happens.** -/
theorem since_concat : Since P Q (t ++ [x]) ↔ P x ∨ (Since P Q t ∧ ¬ Q x) := by
  constructor
  · rintro ⟨a, y, b, h, hy, hb⟩
    rcases concat_eq_append_cons.1 h with ⟨rfl, rfl, rfl⟩ | ⟨c, rfl, rfl⟩
    · exact .inl hy
    · exact .inr ⟨⟨a, y, c, rfl, hy, fun z hz => hb z (by simp [hz])⟩, hb x (by simp)⟩
  · rintro (hx | ⟨⟨a, y, b, rfl, hy, hb⟩, hx⟩)
    · exact ⟨t, x, [], rfl, hx, by simp⟩
    · refine ⟨a, y, b ++ [x], by simp, hy, fun z hz => ?_⟩
      rcases List.mem_append.1 hz with hz | hz
      · exact hb z hz
      · rw [List.mem_singleton.1 hz]
        exact hx

theorem since_append (hx : x ∈ b) (hP : P x) (hb : ∀ y ∈ b, ¬ Q y) : Since P Q (a ++ b) := by
  obtain ⟨b₁, b₂, rfl⟩ := List.mem_iff_append.1 hx
  exact ⟨a ++ b₁, x, b₂, by simp, hP, fun y hy => hb y (by simp [hy])⟩

theorem exists_of_since (hP : ¬ P x) (hQ : Q x) (h : Since P Q (a ++ x :: b)) : ∃ y ∈ b, P y := by
  induction b using List.reverseRecOn with
  | nil =>
    rcases since_concat.1 h with hx | ⟨-, hx⟩
    · exact absurd hx hP
    · exact absurd hQ hx
  | append_singleton b y ih =>
    rw [← List.cons_append, ← List.append_assoc, since_concat] at h
    rcases h with hy | ⟨h, -⟩
    · exact ⟨y, by simp, hy⟩
    · obtain ⟨z, hz, hPz⟩ := ih h
      exact ⟨z, by simp [hz], hPz⟩

end Since

/-- `History w t u`: from `w` the moves `t` lead to `u`, whoever makes them. -/
inductive History (w : FrontEnd) : List Move → FrontEnd → Prop
  | nil : History w [] w
  | snoc {t : List Move} {m : Move} : History w t m.before → History w (t ++ [m]) m.after

namespace History

variable {w v u : FrontEnd} {t t' a : List Move} {m : Move}

theorem before (h : History w t u) : ∀ b, t = a ++ m :: b → History w a m.before := by
  induction h with
  | nil => simp
  | snoc h ih =>
    intro b heq
    rcases concat_eq_append_cons.1 heq with ⟨-, rfl, rfl⟩ | ⟨c, -, ht⟩
    · exact h
    · exact ih c ht

theorem last (h : History w (t ++ [m]) u) : History w t m.before ∧ u = m.after := by
  generalize ht : t ++ [m] = t' at h
  cases h with
  | nil => simp at ht
  | snoc h =>
    obtain ⟨rfl, he⟩ := List.append_inj' ht rfl
    cases he
    exact ⟨h, rfl⟩

theorem trans (h : History w t v) (h' : History v t' u) : History w (t ++ t') u := by
  induction h' with
  | nil => simpa using h
  | snoc _ ih =>
    rw [← List.append_assoc]
    exact ih.snoc

theorem cons (h : History m.after t u) : History m.before (m :: t) u :=
  trans (.snoc (t := []) .nil) h

theorem after (h : History w (a ++ m :: t) u) : History m.after t u := by
  induction t using List.reverseRecOn generalizing u with
  | nil =>
    obtain ⟨-, rfl⟩ := h.last
    exact .nil
  | append_singleton t m' ih =>
    rw [← List.cons_append, ← List.append_assoc] at h
    obtain ⟨hbefore, rfl⟩ := h.last
    exact (ih hbefore).snoc

theorem kept {I : FrontEnd → Prop} (h : History w t u)
    (ht : ∀ m ∈ t, I m.before → I m.after) (hw : I w) : I u := by
  induction h with
  | nil => exact hw
  | snoc _ ih =>
    obtain ⟨ht, hm⟩ := List.forall_mem_append.1 ht
    exact hm _ (List.mem_singleton_self _) (ih ht)

end History

end DisplayList

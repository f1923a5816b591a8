import DisplayList.Action

/-!
# Processes

A process is what one thread does: actions, one after the other, each chosen by the answers to
those before it; reports to the host, who may act before the process goes on; and loops, so that a
process that never ends is a finite tree all the same. What a process does when it is run, alone or
beside others, is said in `DisplayList.Run`.
-/

namespace DisplayList

/-- What one thread does until it has an `α`. -/
inductive Process : Type → Type 1 where
  | done {α : Type} (a : α) : Process α
  | act {α : Type} (a : Action) (k : a.Answer → Process α) : Process α
  /-- The host is told something, and may act. -/
  | report {α : Type} (r : Report) (k : Process α) : Process α
  /-- Goes round with a new state until a round gives a result. -/
  | loop {α σ β : Type} (round : σ → Process (σ ⊕ β)) (s : σ) (k : β → Process α) : Process α

namespace Process

variable {α β σ : Type}

/-- Goes on with what `f` makes of the result. -/
def bind : Process α → (α → Process β) → Process β
  | .done a, f => f a
  | .act a k, f => .act a fun r => (k r).bind f
  | .report r k, f => .report r (k.bind f)
  | .loop round s k, f => .loop round s fun b => (k b).bind f

instance : Monad Process where
  pure := done
  bind := bind

theorem bind_done (p : Process α) : p.bind .done = p := by
  induction p with
  | done => rfl
  | act a k ih => simp [bind, ih]
  | report r k ih => simp [bind, ih]
  | loop round s k _ ih => simp [bind, ih]

theorem bind_assoc {γ : Type} (p : Process α) (f : α → Process β) (g : β → Process γ) :
    (p.bind f).bind g = p.bind fun a => (f a).bind g := by
  induction p with
  | done => rfl
  | act a k ih => simp [bind, ih]
  | report r k ih => simp [bind, ih]
  | loop round s k _ ih => simp [bind, ih]

instance : LawfulMonad Process :=
  LawfulMonad.mk' Process bind_done (fun _ _ => rfl) bind_assoc

/-- A process of one action. -/
def perform (a : Action) : Process a.Answer :=
  .act a .done

/-- A process that tells the host something. -/
def tell (r : Report) : Process Unit :=
  .report r (.done ())

/-- A process that goes round from the state `s` on. -/
def iterate (s : σ) (round : σ → Process (σ ⊕ β)) : Process β :=
  .loop round s .done

/-- Looks at a slot. -/
def look (i : Nat) : Process Slot :=
  perform (.look i)

/-- Changes a slot. -/
def change (i : Nat) (c : Change) : Process c.Answer :=
  perform (.change i c)

end Process

end DisplayList

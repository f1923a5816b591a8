import DisplayList.Failure

/-!
# The call stack

Calls nest at most thirty-two deep. The frames lie in a fixed array of which the first `depth` are
live; what a pop or a clear leaves behind is not part of the stack, whose contents are `toList`.
-/

namespace DisplayList

/-- What a call saves: where to go on, and the offset register. -/
structure Frame where
  returnPc : Address := 0
  offset : UInt32 := 0
  deriving DecidableEq, Repr

/-- The nesting limit of calls. -/
def CallStack.capacity : Nat := 32

/-- A stack of call frames of bounded depth. -/
structure CallStack where
  /-- The array of frames, live or not. -/
  frames : Vector Frame CallStack.capacity
  /-- The number of live frames. -/
  depth : Nat
  depth_le : depth ≤ CallStack.capacity

namespace CallStack

/-- The stack without frames. -/
def empty : CallStack where
  frames := Vector.replicate capacity {}
  depth := 0
  depth_le := Nat.zero_le _

instance : Inhabited CallStack := ⟨empty⟩

/-- The live frames, outermost first. -/
def toList (s : CallStack) : List Frame :=
  s.frames.toList.take s.depth

/-- Whether no frame is live. -/
def isEmpty (s : CallStack) : Bool :=
  s.depth == 0

/-- The stack with one more frame; a full stack refuses it. -/
def push (s : CallStack) (f : Frame) : Except Failure CallStack :=
  if h : s.depth < capacity then
    .ok { frames := s.frames.set s.depth f, depth := s.depth + 1, depth_le := h }
  else
    .error (.overflow s.depth)

/-- The innermost frame and the stack without it. -/
def pop? (s : CallStack) : Option (Frame × CallStack) :=
  if h : 0 < s.depth then
    have := s.depth_le
    some (s.frames[s.depth - 1], { s with depth := s.depth - 1, depth_le := by omega })
  else
    none

/-- The stack with no frame live. -/
def clear (s : CallStack) : CallStack :=
  { s with depth := 0, depth_le := Nat.zero_le _ }

/-! ## The stack as a list of frames -/

theorem toList_empty : empty.toList = [] := rfl

theorem toList_clear (s : CallStack) : s.clear.toList = [] := rfl

theorem length_toList (s : CallStack) : s.toList.length = s.depth := by
  simp [toList, s.depth_le]

theorem toList_of_push {s t : CallStack} {f : Frame} (h : s.push f = .ok t) :
    t.toList = s.toList ++ [f] := by
  unfold push at h
  split at h
  next hd =>
    cases h
    simp only [toList, Vector.toList_set]
    rw [List.take_add_one, List.take_set_of_le (Nat.le_refl _)]
    simp [hd]
  next => cases h

theorem push_eq_error_iff {s : CallStack} {f : Frame} {e : Failure} :
    s.push f = .error e ↔ s.depth = capacity ∧ e = .overflow capacity := by
  have := s.depth_le
  unfold push
  split
  next h => simp; omega
  next h =>
    have hd : s.depth = capacity := by omega
    simp [hd, eq_comm]

theorem pop?_eq_none_iff {s : CallStack} : s.pop? = none ↔ s.toList = [] := by
  rw [← List.length_eq_zero_iff, length_toList]
  unfold pop?
  split <;> simp <;> omega

theorem toList_of_pop? {s t : CallStack} {f : Frame} (h : s.pop? = some (f, t)) :
    s.toList = t.toList ++ [f] := by
  unfold pop? at h
  split at h
  next hd =>
    have := s.depth_le
    cases h
    obtain ⟨d, hd'⟩ : ∃ d, s.depth = d + 1 := ⟨s.depth - 1, by omega⟩
    have hlt : d < capacity := by omega
    simp only [toList, hd', Nat.add_sub_cancel, List.take_add_one]
    simp [hlt]
  next => cases h

end CallStack

end DisplayList

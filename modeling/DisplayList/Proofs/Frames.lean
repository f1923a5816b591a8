import DisplayList.Proofs.Alike

/-!
# The call stack as a list of frames

A stack keeps its frames in an array, of which the first `depth` are live; a pop and a clear leave
the dead ones behind. Seen from outside it is a list of at most thirty-two frames, outermost first.

* `CallStack.Use`, `CallStack.Answer`: what is done with a stack, and what is answered;
* `CallStack.use`, `Use.onList`: how a stack answers, and how a list of frames does;
  **`use_eq`**: alike;
* `course`, **`course_use`**: uses one after the other;
* **`bounded_lifo`**: a stack is a bounded list, whatever lies dead in its array.
-/

namespace DisplayList.CallStack

/-- Something that is done with a stack. -/
inductive Use where
  | push (f : Frame)
  | pop
  | clear
  /-- The live frames are asked for, outermost first. -/
  | frames
  deriving DecidableEq

/-- What a use of a stack answers. -/
inductive Answer where
  | pushed
  /-- The frame was not pushed. -/
  | refused (e : Failure)
  | popped (f : Option Frame)
  | cleared
  | frames (fs : List Frame)
  deriving DecidableEq

/-- Carries out a use. A frame that is refused, and a pop that finds none, leave the stack as it
was. -/
def use (s : CallStack) : Use → Answer × CallStack
  | .push f =>
    match s.push f with
    | .ok t => (.pushed, t)
    | .error e => (.refused e, s)
  | .pop =>
    match s.pop? with
    | some (f, t) => (.popped (some f), t)
    | none => (.popped none, s)
  | .clear => (.cleared, s.clear)
  | .frames => (.frames s.toList, s)

/-- The same with a list of at most thirty-two frames, outermost first. -/
def Use.onList (fs : List Frame) : Use → Answer × List Frame
  | .push f => if fs.length < 32 then (.pushed, fs ++ [f]) else (.refused (.overflow 32), fs)
  | .pop => (.popped fs.getLast?, fs.dropLast)
  | .clear => (.cleared, [])
  | .frames => (.frames fs, fs)

/-- Carries out uses one after the other: all that is answered, and what is left. -/
def course {σ : Type} (step : σ → Use → Answer × σ) (s : σ) : List Use → List Answer × σ
  | [] => ([], s)
  | u :: us =>
    let rest := course step (step s u).2 us
    ((step s u).1 :: rest.1, rest.2)

/-! ## A stack answers as its live frames do -/

theorem length_toList_le (s : CallStack) : s.toList.length ≤ 32 :=
  s.length_toList ▸ s.depth_le

/-- **A use of a stack** is a use of the list of its live frames. -/
theorem use_eq (s : CallStack) (u : Use) :
    ((s.use u).1, (s.use u).2.toList) = u.onList s.toList := by
  have hle := s.length_toList_le
  cases u with
  | push f =>
    have hpush := s.map_toList_push f
    unfold use Use.onList
    dsimp only
    split at hpush
    next hfull =>
      rw [if_neg (by rw [hfull]; decide)]
      cases h : s.push f with
      | ok t => simp [h, Except.map] at hpush
      | error e =>
        rw [h] at hpush
        cases hpush
        rfl
    next hroom =>
      rw [if_pos (Nat.lt_of_le_of_ne hle hroom)]
      cases h : s.push f with
      | error e => simp [h, Except.map] at hpush
      | ok t =>
        rw [h] at hpush
        exact congrArg (Prod.mk Answer.pushed) (Except.ok.inj hpush)
  | pop =>
    have hpop := s.map_toList_pop?
    unfold use Use.onList
    dsimp only
    cases h : s.pop? with
    | none =>
      rw [pop?_eq_none_iff.1 h]
      rfl
    | some x =>
      obtain ⟨f, t⟩ := x
      rw [toList_of_pop? h]
      simp
  | clear => rfl
  | frames => rfl

/-- **Uses one after the other.** -/
theorem course_use (s : CallStack) (us : List Use) :
    ((course use s us).1, (course use s us).2.toList) = course Use.onList s.toList us := by
  induction us generalizing s with
  | nil => rfl
  | cons u us ih =>
    unfold course
    rw [← s.use_eq u, ← ih]

/-- **A call stack is a bounded list of frames**, last in first out. A stack just made has no
frame; and whatever is done with a stack, and whatever lies in its array:

* it answers as the list of its live frames does, with room for thirty-two, and is left with the
  frames that the list is left with;
* so does any other stack with these live frames: a frame that a pop or a clear has left behind is
  never seen again. -/
theorem bounded_lifo (s : CallStack) (us : List Use) :
    empty.toList = [] ∧ (default : CallStack).toList = [] ∧
    (course use s us).1 = (course Use.onList s.toList us).1 ∧
    (course use s us).2.toList = (course Use.onList s.toList us).2 ∧
    (course use s us).2.depth = (course Use.onList s.toList us).2.length ∧
    ∀ t : CallStack, t.toList = s.toList → (course use t us).1 = (course use s us).1 ∧
      (course use t us).2.toList = (course use s us).2.toList := by
  have hanswers (t : CallStack) : (course use t us).1 = (course Use.onList t.toList us).1 :=
    congrArg Prod.fst (t.course_use us)
  have hleft (t : CallStack) : (course use t us).2.toList = (course Use.onList t.toList us).2 :=
    congrArg Prod.snd (t.course_use us)
  refine ⟨toList_empty, toList_empty, hanswers s, hleft s, ?_, fun t ht => ?_⟩
  · rw [← hleft, length_toList]
  · rw [hanswers, hanswers, hleft, hleft, ht]
    exact ⟨rfl, rfl⟩

/-- A stack from which a frame was popped that still lies in its array. -/
def popped : CallStack :=
  (use (use empty (.push ⟨0x08800004, 16⟩)).2 .pop).2

theorem bounded_lifo_popped :
    popped.frames[0] = ⟨0x08800004, 16⟩ ∧ popped.toList = empty.toList ∧
      (course use popped [.frames, .pop, .push {}, .frames]).1 =
        [.frames [], .popped none, .pushed, .frames [{}]] := by
  have hsame : popped.toList = empty.toList := by decide
  have hcourse := bounded_lifo empty [.frames, .pop, .push {}, .frames]
  refine ⟨by decide, hsame, (hcourse.2.2.2.2.2 popped hsame).1.trans ?_⟩
  rw [hcourse.2.2.1]
  rfl

end DisplayList.CallStack

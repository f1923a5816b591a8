import DisplayList.Proofs.Histories
import DisplayList.Proofs.Transparency
import DisplayList.Replay

/-!
# How often a cursor has to be found

A list to which nobody hands a cursor finds its own, each time an access has none at hand. A cursor
that was found goes along with the instruction address as long as that moves forward on one side of
the start of main memory; so what the control flow does bounds how many are found.

* `Fetcher.debt`, `toll`: the cursor that the next access has to find, and what branches may cost;
* `Slot.Unaided`: a list that lives on cursors it found itself; `Slot.Pays`: what a step of it costs;
* `Move.Reads`, **`found_after`**: a cursor is found by an access to the words, and one at a time;
* **`found_le_branches`**: a list finds one cursor, and one more for each branch backwards and for
  each branch into main memory.
-/

namespace DisplayList

/-! ## The fetcher -/

/-- How many cursors the next access has to find, at most. -/
def Fetcher.debt (f : Fetcher) : Nat :=
  match f.source with
  | .own _ => 0
  | _ => 1

/-- The branch goes backwards. -/
def Backward (branch : Address × Address) : Prop :=
  branch.2 < branch.1

/-- The branch goes into main memory, from below it. -/
def IntoRam (branch : Address × Address) : Prop :=
  branch.1 < Region.ram.first ∧ Region.ram.first ≤ branch.2

instance : DecidablePred Backward :=
  fun branch => inferInstanceAs (Decidable (branch.2 < branch.1))

instance : DecidablePred IntoRam :=
  fun branch => inferInstanceAs
    (Decidable (branch.1 < Region.ram.first ∧ Region.ram.first ≤ branch.2))

/-- How many more cursors the branches may make necessary. -/
def toll (branches : List (Address × Address)) : Nat :=
  branches.countP (Backward ·) + branches.countP (IntoRam ·)

theorem toll_append (l l' : List (Address × Address)) : toll (l ++ l') = toll l + toll l' := by
  unfold toll
  rw [List.countP_append, List.countP_append]
  omega

theorem toll_backward {branch : Address × Address} (h : Backward branch) : 1 ≤ toll [branch] := by
  simp [toll, h]

theorem toll_intoRam {branch : Address × Address} (h : IntoRam branch) : 1 ≤ toll [branch] := by
  simp [toll, h]

namespace Fetcher

variable {f g : Fetcher} {pc old new a : Address} {c : Cursor}

theorem debt_le_one (f : Fetcher) : f.debt ≤ 1 := by
  unfold debt
  split <;> simp

/-- **Without a window, the fetcher gives up a cursor at hand** only if the branch pays for it. -/
theorem debt_leaveWindow (f : Fetcher) (old new : Address) :
    (f.leaveWindow old new).debt ≤ f.debt + toll [(old, new)] := by
  unfold leaveWindow
  dsimp only
  split
  · split
    · exact Nat.zero_le _
    next hs =>
      have hf : f.debt = 1 := by
        unfold debt
        split
        next c hc => exact absurd hc (hs c)
        next => rfl
      rw [hf]
      exact Nat.le_add_right 1 _
  next hleave =>
    have htoll : 1 ≤ toll [(old, new)] := by
      simp only [Bool.and_eq_true, Bool.not_eq_true', Bool.and_eq_false_iff, decide_eq_true_iff,
        decide_eq_false_iff_not, not_and_or, not_or, Classical.not_not, UInt32.not_le] at hleave
      rcases hleave with h | h
      · exact toll_backward h
      · exact toll_intoRam ⟨h.1, UInt32.not_lt.1 h.2⟩
    exact Nat.le_trans (debt_le_one _) (Nat.le_trans htoll (Nat.le_add_left ..))

theorem found_leaveWindow : (f.leaveWindow old new).found = f.found := by
  unfold leaveWindow
  dsimp only
  split
  · split <;> rfl
  · rfl

theorem window_leaveWindow : (f.leaveWindow old new).window = f.window := by
  unfold leaveWindow
  dsimp only
  split
  · split <;> rfl
  · rfl

theorem found_follow : (f.follow old new).found = f.found := by
  unfold follow
  split
  · split
    · rfl
    · exact found_leaveWindow
  · exact found_leaveWindow

theorem follow_of_window (h : f.window = none) : f.follow old new = f.leaveWindow old new := by
  unfold follow
  rw [h]

theorem debt_setCursor : (f.setCursor c).debt = f.debt := by
  obtain ⟨source, window, found⟩ := f
  cases source <;> rfl

theorem found_setCursor : (f.setCursor c).found = f.found := by
  obtain ⟨source, window, found⟩ := f
  cases source <;> rfl

theorem window_setCursor (h : f.window = none) : (f.setCursor c).window = none := by
  obtain ⟨source, window, found⟩ := f
  cases h
  cases source <;> rfl

/-- **A cursor that is installed pays the debt.** -/
theorem found_install (hw : f.window = none) (h : f.install? pc a c = some g) :
    g.found + g.debt = f.found + f.debt ∧ g.window = none := by
  unfold install? at h
  split at h
  next b hb =>
    split at h
    · cases h
      have hf : f.debt = 1 := by
        obtain ⟨source, window, found⟩ := f
        cases source with
        | own c => cases hb
        | _ => rfl
      rw [hf]
      exact ⟨rfl, hw⟩
    · cases h
  next =>
    cases h
    exact ⟨rfl, hw⟩

end Fetcher

/-! ## The slot -/

/-- A list that has no window, and whose cursor was found in mapped memory. -/
structure Slot.Unaided (s : Slot) : Prop extends s.Follows where
  window : s.fetcher.window = none
  away : s.fetcher.debt = 0 → s.pc ≠ 0

/-- A step from `s` to `s'` other than an access makes a cursor necessary only if it is a branch
that may. -/
structure Slot.Pays (s s' : Slot) : Prop where
  unaided : s'.Unaided
  debt : s'.fetcher.debt ≤ s.fetcher.debt + toll [(s.pc, s'.pc)]

/-- An access from `s` to `s'` finds no more cursors than are due. -/
structure Slot.Settles (s s' : Slot) : Prop where
  unaided : s'.Unaided
  found : s'.fetcher.found + s'.fetcher.debt = s.fetcher.found + s.fetcher.debt

namespace Slot

variable {s s' : Slot} {m : Memory}

theorem Unaided.of_eq (h : s.Unaided) (hpc : s'.pc = s.pc) (hf : s'.fetcher = s.fetcher) :
    s'.Unaided where
  aligned := by
    rw [hpc]
    exact h.aligned
  fetcher := by
    rw [hpc, hf]
    exact h.toFollows.fetcher
  window := by
    rw [hf]
    exact h.window
  away := by
    rw [hpc, hf]
    exact h.away

theorem Pays.of_eq (h : s.Unaided) (hpc : s'.pc = s.pc) (hf : s'.fetcher = s.fetcher) :
    s.Pays s' where
  unaided := h.of_eq hpc hf
  debt := by
    rw [hf]
    exact Nat.le_add_right ..

/-- **A branch pays** for the cursor that it makes necessary. -/
theorem Unaided.moveTo (h : s.Unaided) (a : Address) : s.Pays (s.moveTo a) := by
  have hfollows := h.toFollows.moveTo a
  unfold Slot.moveTo at hfollows ⊢
  dsimp only at hfollows ⊢
  split
  next => exact Pays.of_eq h rfl rfl
  next hne =>
    rw [if_neg hne] at hfollows
    have hleave : s.fetcher.follow s.pc (Address.aligned a) =
        s.fetcher.leaveWindow s.pc (Address.aligned a) := Fetcher.follow_of_window h.window
    refine ⟨⟨hfollows, ?_, ?_⟩, ?_⟩
    · change (s.fetcher.follow s.pc (Address.aligned a)).window = none
      rw [hleave, Fetcher.window_leaveWindow]
      exact h.window
    · intro hdebt hzero
      -- A cursor at hand stays at hand only if the branch goes forward, and away from zero.
      have hback : Address.aligned a < s.pc := by
        change Address.aligned a = 0 at hzero
        rw [hzero] at hne ⊢
        rw [UInt32.lt_iff_toNat_lt]
        have hpos : s.pc.toNat ≠ 0 := fun h0 => hne (UInt32.toNat_inj.1 h0)
        exact Nat.pos_of_ne_zero hpos
      change (s.fetcher.follow s.pc (Address.aligned a)).debt = 0 at hdebt
      rw [hleave] at hdebt
      unfold Fetcher.leaveWindow at hdebt
      dsimp only at hdebt
      rw [decide_eq_false (UInt32.not_le.2 hback)] at hdebt
      cases hdebt
    · change (s.fetcher.follow s.pc (Address.aligned a)).debt ≤ _
      rw [hleave]
      exact Fetcher.debt_leaveWindow ..

theorem unaided_clear (s : Slot) : s.clear.Unaided where
  toFollows := follows_clear s
  window := rfl
  away h := by cases h

theorem Unaided.clear (h : s.Unaided) : s.Pays s.clear where
  unaided := unaided_clear s
  debt := by
    by_cases hdebt : s.fetcher.debt = 0
    · have hback : Backward (s.pc, s.clear.pc) := by
        change 0 < s.pc
        rw [UInt32.lt_iff_toNat_lt]
        have hpos : s.pc.toNat ≠ 0 := fun h0 => h.away hdebt (UInt32.toNat_inj.1 h0)
        exact Nat.pos_of_ne_zero hpos
      exact Nat.le_trans (Fetcher.debt_le_one _)
        (Nat.le_trans (toll_backward hback) (Nat.le_add_left ..))
    · exact Nat.le_trans (Fetcher.debt_le_one _)
        (Nat.le_trans (Nat.one_le_iff_ne_zero.2 hdebt) (Nat.le_add_right ..))

/-! ## Changes -/

theorem moveTo_of_call {target : Address} {offset : UInt32} (h : s.call target offset = .ok s') :
    ∃ calls, s' = { s with calls }.moveTo target := by
  unfold Slot.call at h
  cases hpush : s.calls.push ⟨s.pc, offset⟩ with
  | error e =>
    rw [hpush] at h
    cases h
  | ok calls =>
    rw [hpush] at h
    cases h
    exact ⟨calls, rfl⟩

theorem moveTo_of_ret {offset : UInt32} (h : s.ret? = some (offset, s')) :
    ∃ calls a, s' = { s with calls }.moveTo a := by
  unfold Slot.ret? at h
  cases hpop : s.calls.pop? with
  | none =>
    rw [hpop] at h
    cases h
  | some x =>
    rw [hpop] at h
    cases h
    exact ⟨x.2, x.1.returnPc, rfl⟩

/-- **A list just submitted** lives on the cursors it finds itself, whatever it was before. -/
theorem unaided_init (s : Slot) (sub : Submission) : (s.init sub).Unaided := by
  have hsub : Unaided { s.clear with
      list := Address.aligned sub.list
      stall := Address.aligned sub.stall
      callbackId := sub.callbackId
      params := sub.params } := (unaided_clear s).of_eq rfl rfl
  exact (hsub.moveTo (Address.aligned sub.list)).unaided.of_eq rfl rfl

theorem unaided_new (id : Nat) : (Slot.new id).Unaided :=
  unaided_clear _

/-! ## Accesses -/

theorem Unaided.settles (h : s.Unaided) : s.Settles s :=
  ⟨h, rfl⟩

theorem Unaided.setCursor (h : s.Unaided) {c : Cursor} {pc : Address}
    (hf : Follows { s with fetcher := s.fetcher.setCursor c, pc }) (hpc : s.pc ≠ 0 → pc ≠ 0) :
    s.Settles { s with fetcher := s.fetcher.setCursor c, pc } where
  unaided := ⟨hf, Fetcher.window_setCursor h.window, fun hdebt => by
    rw [Fetcher.debt_setCursor] at hdebt
    exact hpc (h.away hdebt)⟩
  found := by
    change (s.fetcher.setCursor c).found + (s.fetcher.setCursor c).debt = _
    rw [Fetcher.found_setCursor, Fetcher.debt_setCursor]

theorem Unaided.access (h : s.Unaided) {a : Access} (ha : ∀ n, a ≠ .rewind n) :
    s.Settles (s.access m a).2 := by
  have hfollows := h.toFollows.access (m := m) ha
  cases a with
  | next =>
    cases hc : s.fetcher.cursor? with
    | none =>
      unfold Slot.access
      rw [hc]
      exact h.settles
    | some c =>
      have hpc := h.toFollows.fetcher.cursor c hc
      cases hx : m.readWord s.pc with
      | error f =>
        unfold Slot.access
        rw [hc, hpc]
        dsimp only
        rw [read_at, hx]
        exact h.settles
      | ok x =>
        have hnext := Memory.aligned_next h.aligned (Memory.isMapped_of_readWord h.aligned hx)
        unfold Slot.access at hfollows ⊢
        rw [hc, hpc] at hfollows ⊢
        dsimp only at hfollows ⊢
        rw [read_at, hx] at hfollows ⊢
        dsimp only [Except.map] at hfollows ⊢
        refine h.setCursor hfollows fun _ hzero => ?_
        rw [hnext.1] at hzero
        have h4 := hnext.2
        rw [hzero] at h4
        have hz : (0 : Address).toNat = 0 := rfl
        omega
  | previous =>
    unfold Slot.access at hfollows ⊢
    dsimp only at hfollows ⊢
    split
    · exact h.settles
    next c hc =>
      rw [hc] at hfollows
      dsimp only at hfollows
      split
      next hr =>
        rw [hr] at hfollows
        exact h.setCursor hfollows fun hpc => hpc
      next hr =>
        rw [hr] at hfollows
        exact h.setCursor hfollows fun hpc => hpc
  | rewind n => exact absurd rfl (ha n)

theorem found_access (s : Slot) (m : Memory) (a : Access) :
    (s.access m a).2.fetcher.found = s.fetcher.found := by
  cases a with
  | next =>
    unfold Slot.access
    dsimp only
    split
    · rfl
    · split
      · rfl
      · exact Fetcher.found_setCursor
  | previous =>
    unfold Slot.access
    dsimp only
    split
    · rfl
    · split <;> exact Fetcher.found_setCursor
  | rewind n =>
    unfold Slot.access
    dsimp only
    split
    · rfl
    · exact Fetcher.found_setCursor

theorem found_tryAccess (s : Slot) (m : Memory) (a : Access) :
    (s.tryAccess m a).2.fetcher.found = s.fetcher.found := by
  unfold Slot.tryAccess
  split
  · rfl
  · exact found_access s m a

/-- **An access finds one cursor at most.** -/
theorem found_accessWith (s : Slot) (m : Memory) (x : Address) (c : Cursor) (a : Access) :
    (s.accessWith m x c a).2.fetcher.found = s.fetcher.found ∨
      (s.accessWith m x c a).2.fetcher.found = s.fetcher.found + 1 := by
  unfold Slot.accessWith
  split
  · exact .inl rfl
  next fetcher hf =>
    have hfound : fetcher.found = s.fetcher.found ∨ fetcher.found = s.fetcher.found + 1 := by
      unfold Fetcher.install? at hf
      split at hf
      · split at hf
        · cases hf
          exact .inr rfl
        · cases hf
      · cases hf
        exact .inl rfl
    have haccess := found_access { s with fetcher } m a
    dsimp only at haccess ⊢
    rw [haccess]
    exact hfound

theorem Unaided.tryAccess (h : s.Unaided) {a : Access} (ha : ∀ n, a ≠ .rewind n) :
    s.Settles (s.tryAccess m a).2 := by
  unfold Slot.tryAccess
  split
  · exact h.settles
  · exact h.access ha

theorem Unaided.accessWith (h : s.Unaided) {a : Access} {address : Address} {c : Cursor}
    (ha : ∀ n, a ≠ .rewind n) (hc : Cursor.openAt address 4 = .ok c) :
    s.Settles (s.accessWith m address c a).2 := by
  unfold Slot.accessWith
  split
  · exact h.settles
  next fetcher hf =>
    obtain ⟨hfound, hwindow⟩ := Fetcher.found_install h.window hf
    have haway : fetcher.debt = 0 → s.pc ≠ 0 := by
      unfold Fetcher.install? at hf
      split at hf
      next b hb =>
        -- The cursor was found at the instruction address, which is mapped.
        intro _ hzero
        split at hf
        next hba =>
          rw [← hba, h.toFollows.fetcher.wanted b hb, hzero] at hc
          cases hc
        next => cases hf
      next =>
        cases hf
        exact h.away
    have hs : Unaided { s with fetcher } :=
      ⟨⟨h.aligned, (h.toFollows.fetcher.install h.aligned hc hf).1⟩, hwindow, haway⟩
    have hsettles := hs.access (m := m) ha
    exact ⟨hsettles.unaided, hsettles.found.trans hfound⟩

end Slot

theorem Change.found_perform (c : Change) (s : Slot) :
    (c.perform s).2.fetcher.found = s.fetcher.found := by
  have hmove : ∀ (s : Slot) a, (s.moveTo a).fetcher.found = s.fetcher.found := by
    intro s a
    unfold Slot.moveTo
    dsimp only
    split
    · rfl
    · exact Fetcher.found_follow
  cases c with
  | init sub => exact hmove _ _
  | moveTo a => exact hmove s a
  | call target offset =>
    unfold Change.perform
    dsimp only
    split
    next s' hs =>
      obtain ⟨calls, rfl⟩ := Slot.moveTo_of_call hs
      exact hmove _ _
    next => rfl
  | ret =>
    unfold Change.perform
    dsimp only
    split
    next offset s' hs =>
      obtain ⟨calls, a, rfl⟩ := Slot.moveTo_of_ret hs
      exact hmove _ _
    next => rfl
  | moveStall a =>
    unfold Change.perform Slot.moveStall
    dsimp only
    split <;> rfl
  | moveStallWith a w =>
    unfold Change.perform Slot.moveStallWith Slot.moveStall
    dsimp only
    split <;> exact Fetcher.found_follow
  | _ => rfl

/-! ## Single moves -/

/-- The list at position `i` is neither submitted anew nor given a cursor, and its own is not moved
by hand. -/
def Action.Unaided (i : Nat) : Action → Prop
  | .change j (.init _) | .change j (.moveStallWith ..) | .change j (.useCursor _) => j ≠ i
  | .access j (.rewind _) => j ≠ i
  | .accessWith j address c a =>
    j = i → (∀ n, a ≠ .rewind n) ∧ Cursor.openAt address 4 = .ok c
  | _ => True

/-- How many cursors the list at position `i` has found. -/
def FrontEnd.found (w : FrontEnd) (i : Nat) : Nat :=
  (w.slot i).fetcher.found

/-- The move is an access to the words of the list at position `i` through a cursor looked for. -/
def Move.Reads (i : Nat) : Move → Prop
  | .act (.accessWith j ..) _ => j = i
  | _ => False

/-- From where to where the move changes the instruction address of the list at position `i`, if it
does so other than by an access. -/
def Move.branch? (i : Nat) (m : Move) : Option (Address × Address) :=
  match m with
  | .act (.change j _) _ =>
    if j = i then some ((m.before.slot i).pc, (m.after.slot i).pc) else none
  | _ => none

/-- The changes of the instruction address of the list at position `i`, accesses apart. -/
def branches (i : Nat) (t : List Move) : List (Address × Address) :=
  t.filterMap (Move.branch? i)

variable {i : Nat} {m : Move}

theorem Slot.Unaided.perform {s : Slot} {c : Change} (h : s.Unaided)
    (hc : (Action.change i c).Unaided i) : s.Pays (c.perform s).2 := by
  cases c with
  | init sub => exact absurd rfl hc
  | reset =>
    have hclear : Slot.Pays { s with status := .done } s.reset :=
      (h.of_eq rfl rfl : Slot.Unaided { s with status := .done }).clear
    exact ⟨hclear.unaided, hclear.debt⟩
  | moveTo a => exact h.moveTo a
  | call target offset =>
    unfold Change.perform
    dsimp only
    split
    next s' hs =>
      obtain ⟨calls, rfl⟩ := Slot.moveTo_of_call hs
      have hmove := (h.of_eq rfl rfl : Slot.Unaided { s with calls }).moveTo target
      exact ⟨hmove.unaided, hmove.debt⟩
    next => exact Slot.Pays.of_eq h rfl rfl
  | ret =>
    unfold Change.perform
    dsimp only
    split
    next offset s' hs =>
      obtain ⟨calls, a, rfl⟩ := Slot.moveTo_of_ret hs
      have hmove := (h.of_eq rfl rfl : Slot.Unaided { s with calls }).moveTo a
      exact ⟨hmove.unaided, hmove.debt⟩
    next => exact Slot.Pays.of_eq h rfl rfl
  | moveStall a =>
    unfold Change.perform Slot.moveStall
    dsimp only
    split
    · exact Slot.Pays.of_eq h rfl rfl
    · exact Slot.Pays.of_eq h rfl rfl
  | moveStallWith a w => exact absurd rfl hc
  | useCursor c => exact absurd rfl hc
  | _ => exact Slot.Pays.of_eq h rfl rfl

/-- **A move leaves a list on its own cursors**, and what it finds and owes is paid by the branch
that it is, if it is one. -/
theorem unaided_after (hm : m.Is (Action.Unaided i)) (h : (m.before.slot i).Unaided) :
    (m.after.slot i).Unaided ∧
      m.after.found i + (m.after.slot i).fetcher.debt ≤
        m.before.found i + (m.before.slot i).fetcher.debt +
          toll (m.branch? i).toList := by
  cases m with
  | report r w =>
    change ((w.tell r).2.slot i).Unaided ∧
      ((w.tell r).2.slot i).fetcher.found + ((w.tell r).2.slot i).fetcher.debt ≤ _
    rw [FrontEnd.slot_tell]
    exact ⟨h, Nat.le_add_right ..⟩
  | act a w =>
    change ((a.perform w).2.slot i).Unaided ∧
      ((a.perform w).2.slot i).fetcher.found + ((a.perform w).2.slot i).fetcher.debt ≤ _
    have hsettles : ∀ {s'}, (w.slot i).Settles s' → s'.Unaided ∧
        s'.fetcher.found + s'.fetcher.debt ≤ w.found i + (w.slot i).fetcher.debt +
          toll ((Move.act a w).branch? i).toList :=
      fun hs => ⟨hs.unaided, hs.found ▸ Nat.le_add_right ..⟩
    have hframe := hsettles (Slot.Unaided.settles h)
    by_cases hi : i < w.slots.size
    case neg =>
      rw [Action.slot_perform, if_neg hi]
      exact hframe
    have hslot : (a.perform w).2.slot i = a.onto i w.memory (w.slot i) := by
      rw [Action.slot_perform, if_pos hi]
    cases a with
    | change j c =>
      rw [Action.onto_change] at hslot
      split at hslot
      next hj =>
        subst hj
        have hpays : (w.slot j).Pays (c.perform (w.slot j)).2 := Slot.Unaided.perform h hm
        have hfound := Change.found_perform c (w.slot j)
        have hbranch : (Move.act (.change j c) w).branch? j =
            some ((w.slot j).pc, (c.perform (w.slot j)).2.pc) := by
          rw [← hslot]
          exact if_pos rfl
        rw [hslot, hbranch]
        refine ⟨hpays.unaided, ?_⟩
        have hdebt := hpays.debt
        change _ ≤ (w.slot j).fetcher.found + (w.slot j).fetcher.debt + toll [_]
        omega
      next =>
        rw [hslot]
        exact hframe
    | await j =>
      rw [hslot]
      unfold Action.onto
      dsimp only
      split
      · exact hsettles ⟨Slot.Unaided.of_eq h rfl rfl, rfl⟩
      · exact hframe
    | access j a =>
      rw [hslot]
      unfold Action.onto
      dsimp only
      split
      next hj =>
        refine hsettles (Slot.Unaided.tryAccess h ?_)
        rintro n rfl
        exact hm hj
      next => exact hframe
    | accessWith j address c a =>
      rw [hslot]
      unfold Action.onto
      dsimp only
      split
      next hj =>
        obtain ⟨ha, hc⟩ := hm hj
        exact hsettles (Slot.Unaided.accessWith h ha hc)
      next => exact hframe
    | _ =>
      rw [hslot]
      exact hframe

/-- **A cursor is found by an access**, and one at a time. -/
theorem found_after (m : Move) (i : Nat) :
    m.after.found i = m.before.found i ∨ (m.Reads i ∧ m.after.found i = m.before.found i + 1) := by
  cases m with
  | report r w =>
    left
    change ((w.tell r).2.slot i).fetcher.found = (w.slot i).fetcher.found
    rw [FrontEnd.slot_tell]
  | act a w =>
    change ((a.perform w).2.slot i).fetcher.found = (w.slot i).fetcher.found ∨
      ((Move.act a w).Reads i ∧
        ((a.perform w).2.slot i).fetcher.found = (w.slot i).fetcher.found + 1)
    rw [Action.slot_perform]
    split
    case isFalse => exact .inl rfl
    cases a with
    | change j c =>
      rw [Action.onto_change]
      split
      · exact .inl (Change.found_perform ..)
      · exact .inl rfl
    | await j =>
      unfold Action.onto
      dsimp only
      split <;> exact .inl rfl
    | access j a =>
      unfold Action.onto
      dsimp only
      split
      · exact .inl (Slot.found_tryAccess ..)
      · exact .inl rfl
    | accessWith j x c a =>
      unfold Action.onto
      dsimp only
      split
      next hj => exact (Slot.found_accessWith ..).imp id fun h => ⟨hj, h⟩
      · exact .inl rfl
    | _ => exact .inl rfl

/-! ## Whole histories -/

variable {w u : FrontEnd} {t : List Move}

theorem branches_concat (i : Nat) (t : List Move) (m : Move) :
    branches i (t ++ [m]) = branches i t ++ (m.branch? i).toList :=
  filterMap_concat ..

/-- **What a list has found and owes** is paid by the branches. -/
theorem History.found_le (h : History w t u) (ht : ∀ m ∈ t, m.Is (Action.Unaided i))
    (hw : (w.slot i).Unaided) : (u.slot i).Unaided ∧
      u.found i + (u.slot i).fetcher.debt ≤
        w.found i + (w.slot i).fetcher.debt + toll (branches i t) := by
  induction h with
  | nil => exact ⟨hw, Nat.le_add_right ..⟩
  | @snoc t m _ ih =>
    obtain ⟨ht, hm⟩ := List.forall_mem_append.1 ht
    obtain ⟨hbefore, hle⟩ := ih ht
    obtain ⟨hafter, hstep⟩ := unaided_after (hm m (List.mem_singleton_self m)) hbefore
    refine ⟨hafter, ?_⟩
    rw [branches_concat, toll_append]
    omega

/-- **How many cursors a list finds.** A list is submitted, and after that whatever may be done to
the lists of the front end, by whomever, except that this one is given no cursor: then a cursor is
found for it only by an access to its words, one at a time; and altogether no more than one, and one
for each branch backwards and for each branch into main memory from below. -/
theorem found_le_branches {v u : FrontEnd} {i : Nat} {sub : Submission} {t : List Move}
    (h : History ((Action.change i (.init sub)).perform v).2 t u)
    (ht : ∀ m ∈ t, m.Is (Action.Unaided i)) :
    (∀ m ∈ t, m.after.found i = m.before.found i ∨
      (m.Reads i ∧ m.after.found i = m.before.found i + 1)) ∧
    u.found i ≤ v.found i + 1 +
      (branches i t).countP (Backward ·) + (branches i t).countP (IntoRam ·) ∧
    ((∀ x ∈ branches i t, ¬ Backward x ∧ ¬ IntoRam x) → u.found i ≤ v.found i + 1) := by
  have hw : (((Action.change i (.init sub)).perform v).2.slot i).Unaided := by
    rw [Action.slot_perform]
    split
    · rw [Action.onto_change, if_pos rfl]
      exact Slot.unaided_init ..
    next hi =>
      rw [v.slot_of_le i (by omega)]
      exact Slot.unaided_new i
  have hinit : ((Action.change i (.init sub)).perform v).2.found i = v.found i :=
    (found_after (.act (.change i (.init sub)) v) i).resolve_right fun hr => hr.1
  have hle : u.found i ≤ v.found i + 1 +
      (branches i t).countP (Backward ·) + (branches i t).countP (IntoRam ·) := by
    obtain ⟨-, hle⟩ := h.found_le ht hw
    have hdebt := Fetcher.debt_le_one (((Action.change i (.init sub)).perform v).2.slot i).fetcher
    rw [hinit] at hle
    unfold toll at hle
    omega
  refine ⟨fun m _ => found_after m i, hle, fun hforward => ?_⟩
  have hback : (branches i t).countP (Backward ·) = 0 :=
    List.countP_eq_zero.2 fun x hx => by simpa using (hforward x hx).1
  have hinto : (branches i t).countP (IntoRam ·) = 0 :=
    List.countP_eq_zero.2 fun x hx => by simpa using (hforward x hx).2
  omega

/-! ## A loop -/

/-- The moves by which somebody carries out actions, one after the other. -/
def movesOf (w : FrontEnd) : List Action → List Move
  | [] => []
  | a :: as => .act a w :: movesOf (a.perform w).2 as

/-- The front end after actions, one after the other. -/
def afterAll (w : FrontEnd) (as : List Action) : FrontEnd :=
  as.foldl (fun w a => (a.perform w).2) w

theorem history_movesOf (w : FrontEnd) (as : List Action) :
    History w (movesOf w as) (afterAll w as) := by
  induction as generalizing w with
  | nil => exact .nil
  | cons a as ih => exact History.cons (m := .act a w) (ih _)

theorem movesOf_is {allowed : Action → Prop} {as : List Action} (h : ∀ a ∈ as, allowed a) :
    ∀ w, ∀ m ∈ movesOf w as, m.Is allowed := by
  induction as with
  | nil => simp [movesOf]
  | cons a as ih =>
    obtain ⟨ha, has⟩ := List.forall_mem_cons.1 h
    exact fun w => List.forall_mem_cons.2 ⟨ha, ih has _⟩

/-- Two words are fetched, with a jump forward between them; then the list jumps back to its start
and fetches a word again. -/
def aroundOnce : List Action :=
  [.access 0 .next, .accessWith 0 0x08800000 ⟨0x08800000, .word⟩ .next,
    .change 0 (.moveTo 0x08800010), .access 0 .next, .change 0 (.moveTo 0x08800000),
    .access 0 .next, .accessWith 0 0x08800000 ⟨0x08800000, .word⟩ .next]

/-- A list that goes round once finds two cursors. -/
theorem found_aroundOnce :
    let w := ((Action.change 0 (.init ⟨0x08800000, 0, 0, none⟩)).perform (Replay.frontEnd {})).2
    let t := movesOf w aroundOnce
    History w t (afterAll w aroundOnce) ∧ (∀ m ∈ t, m.Is (Action.Unaided 0)) ∧
      (afterAll w aroundOnce).found 0 = 2 ∧ (branches 0 t).countP (Backward ·) = 1 ∧
      (afterAll w aroundOnce).found 0 ≤ (Replay.frontEnd {}).found 0 + 1 +
        (branches 0 t).countP (Backward ·) + (branches 0 t).countP (IntoRam ·) := by
  intro w t
  have h : History w t (afterAll w aroundOnce) := history_movesOf w aroundOnce
  have ht : ∀ m ∈ t, m.Is (Action.Unaided 0) :=
    movesOf_is (by
      have hopen : Cursor.openAt 0x08800000 4 = .ok ⟨0x08800000, .word⟩ := by decide +kernel
      simp [aroundOnce, Action.Unaided, hopen]) w
  exact ⟨h, ht, by decide +kernel, by decide +kernel, (found_le_branches h ht).2.1⟩

end DisplayList

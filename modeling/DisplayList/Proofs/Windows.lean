import DisplayList.Proofs.Access
import DisplayList.Proofs.Histories
import DisplayList.Proofs.Transparency
import DisplayList.Replay

/-!
# Words from outside a window

A producer's cursor is good for a window of addresses. The fetcher looks at the window whenever the
instruction address is changed by a branch, and when a window is handed over; but a fetch moves the
instruction address on without it.

* `Fetcher.Serves`, `Slot.Astray`: the window that the words come from, and a list outside it;
* `Move.Chooses`, **`astray_chosen`**, **`astray_kept`**: the source is chosen anew, or is not;
* `Loose`, **`History.astray_iff`**: a list that has run out of its window;
* **`strays_iff`**: a word comes from outside the window exactly if a fetch before it has run over
  the end of the window and nobody has chosen anew since.
-/

namespace DisplayList

/-! ## The window in use -/

/-- The words come from a window for the addresses from `lo` up to `hi`. -/
def Fetcher.Serves (f : Fetcher) (lo hi : Address) : Prop :=
  f.source = .window ∧ ∃ w, f.window = some w ∧ w.start = lo ∧ w.stop = hi

instance (f : Fetcher) (lo hi : Address) : Decidable (f.Serves lo hi) :=
  decidable_of_iff (f.source = .window ∧ f.window.any fun w => w.start = lo ∧ w.stop = hi) <| by
    simp [Fetcher.Serves, Option.any_eq_true]

/-- The list is at an address for which the window that its words come from is not good. -/
def Slot.Astray (s : Slot) : Prop :=
  ∃ lo hi, s.fetcher.Serves lo hi ∧ ¬ (lo ≤ s.pc ∧ s.pc < hi)

namespace Fetcher

variable {f g : Fetcher} {pc old new a lo hi : Address} {c : Cursor}

theorem not_serves (h : f.source ≠ .window) : ¬ f.Serves lo hi :=
  fun hs => h hs.1

theorem serves_setCursor : (f.setCursor c).Serves lo hi ↔ f.Serves lo hi := by
  obtain ⟨source, window, found⟩ := f
  cases source with
  | window => cases window <;> simp [setCursor, Serves]
  | _ => simp [setCursor, Serves]

theorem serves_install (h : f.install? pc a c = some g) : g.Serves lo hi ↔ f.Serves lo hi := by
  unfold install? at h
  split at h
  next b hb =>
    split at h
    · cases h
      refine iff_of_false (not_serves (by simp)) ?_
      rintro ⟨hs, w, hw, -⟩
      unfold wanted at hb
      rw [hs, hw] at hb
      cases hb
    · cases h
  next =>
    cases h
    rfl

/-- **A fetcher that follows the instruction address uses a window only within it.** -/
theorem Serves.within (h : (f.follow old new).Serves lo hi) : lo ≤ new ∧ new < hi := by
  have hleave : ¬ (f.leaveWindow old new).Serves lo hi := by
    refine not_serves ?_
    unfold leaveWindow
    dsimp only
    split
    · split <;> simp
    · simp
  unfold follow at h
  split at h
  next w hw =>
    split at h
    next hcovers =>
      obtain ⟨-, w', he, rfl, rfl⟩ := h
      cases he
      simpa [Window.covers] using hcovers
    next => exact absurd h hleave
  next => exact absurd h hleave

end Fetcher

namespace Slot

variable {s s' : Slot} {m : Memory} {lo hi : Address}

theorem astray_congr (hs : ∀ lo hi, s'.fetcher.Serves lo hi ↔ s.fetcher.Serves lo hi)
    (hpc : s'.pc = s.pc) : s'.Astray ↔ s.Astray := by
  simp only [Astray, hs, hpc]

theorem not_astray_of_source (h : s.fetcher.source ≠ .window) : ¬ s.Astray := by
  rintro ⟨lo, hi, hs, -⟩
  exact h hs.1

theorem not_astray_moved {a : Address} (h : (s.moveTo a).pc ≠ s.pc) : ¬ (s.moveTo a).Astray := by
  rintro ⟨lo, hi, hs, hout⟩
  unfold moveTo at h hs hout
  dsimp only at h hs hout
  split at h
  next => exact h rfl
  next hne =>
    rw [if_neg hne] at hs hout
    exact hout hs.within

theorem moveTo_of_pc {a : Address} (h : (s.moveTo a).pc = s.pc) : s.moveTo a = s := by
  unfold moveTo at h ⊢
  dsimp only at h ⊢
  split at h
  next he => rw [if_pos he]
  next hne => exact absurd h.symm hne

theorem not_astray_moveTo {a : Address} (h : ¬ s.Astray) : ¬ (s.moveTo a).Astray := by
  by_cases hpc : (s.moveTo a).pc = s.pc
  · rw [moveTo_of_pc hpc]
    exact h
  · exact not_astray_moved hpc

theorem not_astray_new (id : Nat) : ¬ (Slot.new id).Astray :=
  not_astray_of_source (by simp [Slot.new, reset, clear, Fetcher.clear])

/-! ## Accesses -/

theorem serves_access (s : Slot) (m : Memory) (a : Access) :
    (s.access m a).2.fetcher.Serves lo hi ↔ s.fetcher.Serves lo hi := by
  cases a with
  | next =>
    unfold access
    dsimp only
    split
    · rfl
    · split
      · rfl
      · exact Fetcher.serves_setCursor
  | previous =>
    unfold access
    dsimp only
    split
    · rfl
    · split <;> exact Fetcher.serves_setCursor
  | rewind n =>
    unfold access
    dsimp only
    split
    · rfl
    · exact Fetcher.serves_setCursor

theorem serves_tryAccess (s : Slot) (m : Memory) (a : Access) :
    (s.tryAccess m a).2.fetcher.Serves lo hi ↔ s.fetcher.Serves lo hi := by
  unfold tryAccess
  split
  · rfl
  · exact serves_access s m a

theorem serves_accessWith (s : Slot) (m : Memory) (x : Address) (c : Cursor) (a : Access) :
    (s.accessWith m x c a).2.fetcher.Serves lo hi ↔ s.fetcher.Serves lo hi := by
  unfold accessWith
  split
  · rfl
  next fetcher hf => exact (serves_access { s with fetcher } m a).trans (Fetcher.serves_install hf)

/-- **Only a fetch moves the instruction address.** -/
theorem pc_access {a : Access} (h : a = .next → ∀ word, (s.access m .next).1 ≠ .ok word) :
    (s.access m a).2.pc = s.pc := by
  cases a with
  | next =>
    cases hc : s.fetcher.cursor? with
    | none => simp [access, hc]
    | some c =>
      cases hr : c.read m with
      | error e => simp [access, hc, hr]
      | ok x => exact absurd (by simp [access, hc, hr]) (h rfl x.1)
  | previous =>
    unfold access
    dsimp only
    split
    · rfl
    · split <;> rfl
  | rewind n =>
    unfold access
    dsimp only
    split <;> rfl

theorem pc_tryAccess {a : Access}
    (h : a = .next → ∀ word, (s.tryAccess m .next).1 ≠ .inr (.ok word)) :
    (s.tryAccess m a).2.pc = s.pc := by
  unfold tryAccess at h ⊢
  split
  · rfl
  next hw => exact pc_access fun he word hr => h he word (by simp [hw, hr])

theorem pc_accessWith {x : Address} {c : Cursor} {a : Access}
    (h : a = .next → ∀ word, (s.accessWith m x c .next).1 ≠ some (.ok word)) :
    (s.accessWith m x c a).2.pc = s.pc := by
  unfold accessWith at h ⊢
  split
  · rfl
  next fetcher hf =>
    have hpc : ({ s with fetcher }.access m a).2.pc = s.pc :=
      pc_access fun he word hr => h he word (by simp [hf, hr])
    exact hpc

end Slot

/-! ## Choosing the source -/

/-- The source of the words is chosen anew: for a new submission, by a reset, by whoever hands over
a cursor, or because a branch has changed the instruction address. -/
def Change.Chooses (s : Slot) (c : Change) : Prop :=
  match c with
  | .init _ | .reset | .moveStallWith .. | .useCursor _ => True
  | c => (c.perform s).2.pc ≠ s.pc

/-- The move chooses the source of the words of the list at position `i` anew. -/
def Move.Chooses (i : Nat) : Move → Prop
  | .act (.change j c) w => j = i ∧ c.Chooses (w.slot i)
  | _ => False

/-- **A list whose source was chosen anew is not astray.** -/
theorem Change.not_astray {c : Change} {s : Slot} (h : c.Chooses s) : ¬ (c.perform s).2.Astray := by
  cases c with
  | init sub =>
    have hclear : ¬ Slot.Astray { s.clear with
        list := Address.aligned sub.list
        stall := Address.aligned sub.stall
        callbackId := sub.callbackId
        params := sub.params } :=
      Slot.not_astray_of_source (by simp [Slot.clear, Fetcher.clear])
    exact Slot.not_astray_moveTo hclear
  | reset =>
    exact Slot.not_astray_of_source (by simp [perform, Slot.reset, Slot.clear, Fetcher.clear])
  | moveStallWith a w =>
    rintro ⟨lo, hi, hs, hout⟩
    exact hout hs.within
  | useCursor c => exact Slot.not_astray_of_source (by simp [perform, Fetcher.useCursor])
  | moveTo a => exact Slot.not_astray_moved h
  | call target offset =>
    change ((Change.call target offset).perform s).2.pc ≠ s.pc at h
    simp only [perform, Slot.call] at h ⊢
    cases hpush : s.calls.push ⟨s.pc, offset⟩ with
    | error e =>
      rw [hpush] at h
      exact absurd rfl h
    | ok calls =>
      rw [hpush] at h
      exact Slot.not_astray_moved (s := { s with calls }) h
  | ret =>
    change (Change.ret.perform s).2.pc ≠ s.pc at h
    simp only [perform, Slot.ret?] at h ⊢
    cases hpop : s.calls.pop? with
    | none =>
      rw [hpop] at h
      exact absurd rfl h
    | some x =>
      rw [hpop] at h
      exact Slot.not_astray_moved (s := { s with calls := x.2 }) h
  | moveStall a =>
    change ((Change.moveStall a).perform s).2.pc ≠ s.pc at h
    simp only [perform, Slot.moveStall] at h
    split at h <;> exact absurd rfl h
  | setStatus | setPaused | setRestarted | setFinished | setEnded | postWake | setSave | block
  | takeBlocked => exact absurd rfl h

/-- **A change that chooses no source leaves a list astray or not**, as it was. -/
theorem Change.astray_iff {c : Change} {s : Slot} (h : ¬ c.Chooses s) :
    (c.perform s).2.Astray ↔ s.Astray := by
  cases c with
  | init sub => exact absurd trivial h
  | reset => exact absurd trivial h
  | moveStallWith a w => exact absurd trivial h
  | useCursor c => exact absurd trivial h
  | moveTo a =>
    have hpc : (s.moveTo a).pc = s.pc := Classical.not_not.1 h
    change (s.moveTo a).Astray ↔ s.Astray
    rw [Slot.moveTo_of_pc hpc]
  | call target offset =>
    have hpc : ((Change.call target offset).perform s).2.pc = s.pc := Classical.not_not.1 h
    simp only [perform, Slot.call] at hpc ⊢
    cases hpush : s.calls.push ⟨s.pc, offset⟩ with
    | error e => rfl
    | ok calls =>
      rw [hpush] at hpc
      change ({ s with calls }.moveTo target).Astray ↔ s.Astray
      rw [Slot.moveTo_of_pc (s := { s with calls }) hpc]
      rfl
  | ret =>
    have hpc : (Change.ret.perform s).2.pc = s.pc := Classical.not_not.1 h
    simp only [perform, Slot.ret?] at hpc ⊢
    cases hpop : s.calls.pop? with
    | none => rfl
    | some x =>
      rw [hpop] at hpc
      change ({ s with calls := x.2 }.moveTo x.1.returnPc).Astray ↔ s.Astray
      rw [Slot.moveTo_of_pc (s := { s with calls := x.2 }) hpc]
      rfl
  | moveStall a =>
    simp only [perform, Slot.moveStall]
    split <;> rfl
  | setStatus | setPaused | setRestarted | setFinished | setEnded | postWake | setSave | block
  | takeBlocked => rfl

/-! ## Single moves -/

variable {i : Nat} {m : Move}

theorem astray_chosen (h : m.Chooses i) : ¬ (m.after.slot i).Astray := by
  cases m with
  | report r w => exact h.elim
  | act a w =>
    cases a with
    | change j c =>
      obtain ⟨rfl, hc⟩ := h
      change ¬ (((Action.change j c).perform w).2.slot j).Astray
      rw [Action.slot_perform]
      split
      · rw [Action.onto_change, if_pos rfl]
        exact Change.not_astray hc
      next hj =>
        rw [w.slot_of_le j (by omega)]
        exact Slot.not_astray_new j
    | _ => exact h.elim

theorem astray_kept (hc : ¬ m.Chooses i) (hf : ¬ m.Fetches i) :
    (m.after.slot i).Astray ↔ (m.before.slot i).Astray := by
  cases m with
  | report r w =>
    change ((w.tell r).2.slot i).Astray ↔ (w.slot i).Astray
    rw [FrontEnd.slot_tell]
  | act a w =>
    change ((a.perform w).2.slot i).Astray ↔ (w.slot i).Astray
    rw [Action.slot_perform]
    split
    next hi =>
      cases a with
      | change j c =>
        rw [Action.onto_change]
        split
        next hj => exact Change.astray_iff fun h => hc ⟨hj, h⟩
        next => rfl
      | await j =>
        unfold Action.onto
        dsimp only
        split <;> rfl
      | access j a =>
        unfold Action.onto
        dsimp only
        split
        next hj =>
          subst hj
          refine Slot.astray_congr (fun _ _ => Slot.serves_tryAccess ..) (Slot.pc_tryAccess ?_)
          rintro rfl word hr
          exact hf ⟨word, .access hr⟩
        next => rfl
      | accessWith j x c a =>
        unfold Action.onto
        dsimp only
        split
        next hj =>
          subst hj
          refine Slot.astray_congr (fun _ _ => Slot.serves_accessWith ..) (Slot.pc_accessWith ?_)
          rintro rfl word hr
          exact hf ⟨word, .accessWith hr⟩
        next => rfl
      | _ => rfl
    next => rfl

/-- A fetch from within the window in use that runs over its end. -/
def Move.RunsOut (i : Nat) (m : Move) : Prop :=
  m.Fetches i ∧ ∃ lo hi, (m.before.slot i).fetcher.Serves lo hi ∧
    (lo ≤ (m.before.slot i).pc ∧ (m.before.slot i).pc < hi) ∧
    ¬ (lo ≤ (m.after.slot i).pc ∧ (m.after.slot i).pc < hi)

/-- A fetch of a word from a window that is not good for its address. -/
def Move.Strays (i : Nat) (m : Move) : Prop :=
  m.Fetches i ∧ (m.before.slot i).Astray

theorem serves_fetches (h : m.Fetches i) (lo hi : Address) :
    (m.after.slot i).fetcher.Serves lo hi ↔ (m.before.slot i).fetcher.Serves lo hi := by
  obtain ⟨word, ha⟩ := h
  cases ha with
  | @access w hr =>
    change (((Action.access i .next).perform w).2.slot i).fetcher.Serves lo hi ↔ _
    rw [Action.slot_perform]
    split
    · simp only [Action.onto, if_true]
      exact Slot.serves_tryAccess ..
    · rfl
  | @accessWith x c w hr =>
    change (((Action.accessWith i x c .next).perform w).2.slot i).fetcher.Serves lo hi ↔ _
    rw [Action.slot_perform]
    split
    · simp only [Action.onto, if_true]
      exact Slot.serves_accessWith ..
    · rfl

/-- **A fetch leads astray** only where it runs over the end of the window. -/
theorem astray_fetches (h : m.Fetches i) (hw : ¬ (m.before.slot i).Astray) :
    (m.after.slot i).Astray ↔ m.RunsOut i := by
  constructor
  · rintro ⟨lo, hi, hs, hout⟩
    have hs' := (serves_fetches h lo hi).1 hs
    exact ⟨h, lo, hi, hs', Classical.not_not.1 fun hno => hw ⟨lo, hi, hs', hno⟩, hout⟩
  · rintro ⟨-, lo, hi, hs, -, hout⟩
    exact ⟨lo, hi, (serves_fetches h lo hi).2 hs, hout⟩

/-! ## Lists that have run out of their window -/

/-- A fetch has run over the end of the window, and since then nobody has fetched a word or chosen
the source anew. -/
def Loose (i : Nat) (t : List Move) : Prop :=
  Since (Move.RunsOut i) (fun x => x.Chooses i ∨ x.Fetches i) t

variable {w u : FrontEnd} {t a b : List Move}

/-- **Where no word has come from outside the window yet**, the list is astray exactly if a fetch
has run out of it and nothing has been done about that. -/
theorem History.astray_iff (hfresh : w.Fresh) (h : History w t u)
    (hno : ∀ m ∈ t, ¬ m.Strays i) : (u.slot i).Astray ↔ Loose i t := by
  induction h with
  | nil =>
    obtain ⟨id, hid⟩ := hfresh i
    rw [hid]
    exact iff_of_false (Slot.not_astray_new id) not_since_nil
  | @snoc t m h ih =>
    have hbefore := ih fun x hx => hno x (by simp [hx])
    rw [Loose, since_concat]
    by_cases hf : m.Fetches i
    · have hin : ¬ (m.before.slot i).Astray := fun hs => hno m (by simp) ⟨hf, hs⟩
      rw [astray_fetches hf hin]
      simp [hf]
    · have hout : ¬ m.RunsOut i := fun ho => hf ho.1
      by_cases hc : m.Chooses i
      · simp [hout, hc, astray_chosen hc]
      · rw [astray_kept hc hf, hbefore]
        simp [Loose, hout, hc, hf]

/-- **When a word comes from outside the window.** Whatever is done to the lists of a front end, and
by whomever: some fetch of a list takes its word from a window that is not good for its address if
and only if some fetch follows one that has run over the end of the window, with no choice of a new
source between them. -/
theorem strays_iff (hfresh : w.Fresh) (h : History w t u) (i : Nat) :
    (∃ m ∈ t, m.Strays i) ↔ ∃ a m₁ b m₂ c, t = a ++ m₁ :: (b ++ m₂ :: c) ∧ m₁.RunsOut i ∧
      m₂.Fetches i ∧ ∀ x ∈ b, ¬ (x.Chooses i ∨ x.Fetches i) := by
  constructor
  · intro hstray
    -- The first word that comes from outside counts: nothing before it has led the list astray but
    -- a fetch that ran out of the window.
    induction h with
    | nil => simp at hstray
    | @snoc t m h ih =>
      by_cases hbefore : ∃ m ∈ t, m.Strays i
      · obtain ⟨a, m₁, b, m₂, c, rfl, hrest⟩ := ih hbefore
        exact ⟨a, m₁, b, m₂, c ++ [m], by simp, hrest⟩
      · obtain ⟨m', hm', hs⟩ := hstray
        rcases List.mem_append.1 hm' with hm' | hm'
        · exact absurd ⟨m', hm', hs⟩ hbefore
        · cases List.mem_singleton.1 hm'
          have hloose := (h.astray_iff hfresh fun x hx hxs => hbefore ⟨x, hx, hxs⟩).1 hs.2
          obtain ⟨a, m₁, b, rfl, hout, hb⟩ := hloose
          exact ⟨a, m₁, b, m, [], by simp, hout, hs.1, hb⟩
  · rintro ⟨a, m₁, b, m₂, c, rfl, hout, hf, hb⟩
    refine Classical.byContradiction fun hno => ?_
    have heq : a ++ m₁ :: (b ++ m₂ :: c) = (a ++ m₁ :: b) ++ m₂ :: c := by simp
    rw [heq] at h hno
    have hbefore : History w (a ++ m₁ :: b) m₂.before := h.before c rfl
    have hin : ∀ x ∈ a ++ m₁ :: b, ¬ x.Strays i :=
      fun x hx hs => hno ⟨x, List.mem_append_left _ hx, hs⟩
    have hastray := (hbefore.astray_iff hfresh hin).2 ⟨a, m₁, b, rfl, hout, hb⟩
    exact hno ⟨m₂, by simp, hf, hastray⟩

/-! ## A window of one word -/

/-- The producer of a list just submitted has handed over two words, and a cursor for the first of
them. -/
def listInWindow : FrontEnd :=
  ((Action.change 0 (.moveStallWith 0x08800008
    ⟨⟨0x08800000, .word⟩, 0x08800000, 0x08800004⟩)).perform Process.submitted).2

/-- The first word has been fetched. -/
def listPastWindow : FrontEnd :=
  ((Action.access 0 .next).perform listInWindow).2

/-- The moves by which two words are fetched from the window. -/
def pastWindow : List Move :=
  [.act (.change 0 (.init ⟨0x08800000, 0, 0, none⟩)) (Replay.frontEnd {}),
    .act (.change 0 (.moveStallWith 0x08800008
      ⟨⟨0x08800000, .word⟩, 0x08800000, 0x08800004⟩)) Process.submitted,
    .act (.access 0 .next) listInWindow, .act (.access 0 .next) listPastWindow]

theorem history_pastWindow :
    History (Replay.frontEnd {}) pastWindow ((Action.access 0 .next).perform listPastWindow).2 :=
  .snoc (m := .act _ _) (.snoc (m := .act _ _) (.snoc (m := .act _ _) (.snoc (m := .act _ _) .nil)))

theorem strays_next : (Move.act (.access 0 .next) listPastWindow).Strays 0 := by
  have hread : ((Action.access 0 .next).perform listPastWindow).1.elim (fun _ => false)
      Except.isOk = true := by decide +kernel
  refine ⟨?_, 0x08800000, 0x08800004, by decide +kernel, by decide +kernel⟩
  rcases hr : ((Action.access 0 .next).perform listPastWindow).1 with address | e | word
  · rw [hr] at hread
    cases hread
  · rw [hr] at hread
    cases hread
  · exact ⟨word, .access hr⟩

/-- **A word comes from outside the window** that was handed over for it. -/
theorem strays_pastWindow :
    History (Replay.frontEnd {}) pastWindow ((Action.access 0 .next).perform listPastWindow).2 ∧
      ∃ m ∈ pastWindow, m.Strays 0 :=
  ⟨history_pastWindow, _, by simp [pastWindow], strays_next⟩

/-- The first fetch runs over the end of the window, and the second one comes at once. -/
theorem strays_iff_pastWindow : (Replay.frontEnd {}).Fresh ∧
    ∃ a m₁ b m₂ c, pastWindow = a ++ m₁ :: (b ++ m₂ :: c) ∧ m₁.RunsOut 0 ∧
      m₂.Fetches 0 ∧ ∀ x ∈ b, ¬ (x.Chooses 0 ∨ x.Fetches 0) := by
  have hfresh : (Replay.frontEnd {}).Fresh := FrontEnd.fresh_of_slots rfl
  exact ⟨hfresh, (strays_iff hfresh history_pastWindow 0).1
    ⟨_, by simp [pastWindow], strays_next⟩⟩

end DisplayList

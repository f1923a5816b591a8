import DisplayList.Proofs.Amid
import DisplayList.Proofs.Telling

/-!
# The stall address is not executed

Before every fetch the engine looks whether the list has stalled. A wake-up says nothing about the
stall address, and so it is looked at again after each. Between the look and the fetch the lock on
the list is not held: a producer may set the stall address to where the list is just then.

* `Move.Passes`, `Move.Idle`, `Cleared`: a look that finds the list not stalled, and moves after
  which the list is where it was;
* `Checked`, **`keeps_checked`**: every fetch of a run comes after such a look and such moves;
* `Mixed`: a run in which everybody's moves are kept; **`Mixed.goes`**, **`Mixed.history`**;
* `Action.StaysPut`, **`only_staysPut`**: wake-ups, starts, restarts, new stall addresses and writes
  leave the list where it is;
* **`stall_never_executed`**.
-/

namespace DisplayList

/-! ## Looks before fetches -/

/-- A look at the list at position `i`, which is not stalled. -/
def Move.Passes (i : Nat) (m : Move) : Prop :=
  ∃ w, m = .act (.look i) w ∧ (w.slot i).isStalled = false

/-- The move is no look at the list at position `i`, and leaves it where it is, its stall address
too. -/
structure Move.Idle (i : Nat) (m : Move) : Prop where
  not_look : ∀ w, m ≠ .act (.look i) w
  pc : (m.after.slot i).pc = (m.before.slot i).pc
  stall : (m.after.slot i).stall = (m.before.slot i).stall

/-- At the last look the list was not stalled, and it has not been moved since. -/
def Cleared (i : Nat) : List Move → Prop :=
  Since (Move.Passes i) fun m => ¬ m.Idle i

/-- Each word was fetched after a look at which the list was not stalled. -/
def Checked (i : Nat) (t : List Move) : Prop :=
  ∀ a m b, t = a ++ m :: b → m.word? i ≠ none → Cleared i a

section Looks

variable {i : Nat} {t : List Move} {m : Move} {w : FrontEnd}

theorem Cleared.snoc (h : Cleared i t) (hm : m.Idle i) : Cleared i (t ++ [m]) :=
  since_concat.2 (.inr ⟨h, not_not.2 hm⟩)

theorem cleared_look (h : (w.slot i).isStalled = false) : Cleared i (t ++ [.act (.look i) w]) :=
  since_concat.2 (.inl ⟨w, rfl, h⟩)

theorem checked_nil : Checked i [] := by
  intro a m b h
  simp at h

theorem Checked.snoc (h : Checked i t) (hm : m.word? i ≠ none → Cleared i t) :
    Checked i (t ++ [m]) := by
  intro a m' b heq hword
  rcases concat_eq_append_cons.1 heq with ⟨-, rfl, rfl⟩ | ⟨c, -, ht⟩
  · exact hm hword
  · exact h a m' c ht hword

theorem Checked.act {a : Action} (h : Checked i t) (ha : ¬ a.IsNext) :
    Checked i (t ++ [.act a w]) :=
  h.snoc fun hword => absurd (word?_of_not_isNext ha w) hword

theorem Checked.report (h : Checked i t) (r : Report) : Checked i (t ++ [.report r w]) :=
  h.snoc fun hword => absurd rfl hword

theorem idle_report (i : Nat) (r : Report) (w : FrontEnd) : (Move.report r w).Idle i where
  not_look v h := by cases h
  pc := congrArg Slot.pc (w.slot_tell i r)
  stall := congrArg Slot.stall (w.slot_tell i r)

theorem idle_act {a : Action} (ha : a ≠ .look i) (h : (a.perform w).2 = w) :
    (Move.act a w).Idle i where
  not_look v hv := by
    cases hv
    exact ha rfl
  pc := by rw [Move.after, h]; rfl
  stall := by rw [Move.after, h]; rfl

end Looks

namespace Process

open Engine

variable {α : Type} {others : FrontEnd → FrontEnd → Prop} {i : Nat} {watched : Bool}

/-- All fetches so far were checked. -/
def Heeding (i : Nat) : Assertion := fun t _ => Checked i t

/-- All fetches so far were checked, and so is one that comes now. -/
def Ready (i : Nat) : Assertion := fun t _ => Cleared i t ∧ Checked i t

theorem keeps_fetchless {p : Process α} (hp : Only (fun a => ¬ a.IsNext) p) :
    Keeps others (Heeding i) p (Checked i) fun _ => Heeding i :=
  keeps_moves (fun _ _ _ _ h => h) (fun _ _ h => h) (fun _ _ _ ha h => h.act ha)
    (fun r _ _ h => h.report r) hp

theorem tries_ready : Tries i .next (Ready i) fun _ => Heeding i where
  answered h _ := h.2.snoc fun _ => h.1
  wanted {t w address} h hr := by
    have hsame : ((Action.access i .next).perform w).2 = w := by
      rw [perform_access hr, FrontEnd.setSlot_slot]
    exact ⟨h.1.snoc (idle_act (fun he => by cases he) hsame), h.2.snoc fun _ => h.1⟩
  looked {t w address} h := ⟨h.1.snoc (idle_report i _ w), h.2.report _⟩
  unmapped h := h.2
  found h _ _ := h.2.snoc fun _ => h.1
  late {t w address c} h _ hr := by
    have hsame : ((Action.accessWith i address c .next).perform w).2 = w := by
      rw [perform_accessWith hr, FrontEnd.setSlot_slot]
    exact ⟨h.1.snoc (idle_act (fun he => by cases he) hsame), h.2.snoc fun _ => h.1⟩

/-- **A fetch** of a list that was not stalled at the last look. -/
theorem keeps_cleared : Keeps others (Ready i) (Operation.access i .next) (Checked i)
    fun _ => Heeding i :=
  keeps_tries tries_ready (fun _ _ _ _ h => h) (fun _ _ _ _ _ h => h) (fun _ _ h => h.2)
    fun _ _ _ h => h

theorem fetchless_waited (woken : Bool) : Only (fun a => ¬ a.IsNext) (waited i woken) := by
  unfold waited
  split
  · refine only_bind (only_perform id) fun s => ?_
    split
    · exact only_pure _
    · exact only_bind (only_perform id) fun _ => only_pure _
  · exact only_pure _

/-- **A round** fetches only after such a look. -/
theorem keeps_checkedRound : Keeps others (Heeding i) (round watched i) (Checked i)
    fun _ => Heeding i := by
  have hstable : Stable others (Heeding i) := fun _ _ _ _ h => h
  rw [round_eq]
  refine keeps_perform hstable (fun _ _ h => h) fun t w hw => ?_
  refine Keeps.now (P := Heeding i) ?_ (Checked.act hw id)
  split
  · exact keeps_fetchless (only_pure _)
  refine keeps_perform hstable (fun _ _ h => h) fun t w hw => ?_
  have hlooked : Checked i (t ++ [.act (.look i) w]) := Checked.act hw id
  split
  next =>
    refine Keeps.now (P := Heeding i) (keeps_fetchless ?_) hlooked
    exact only_bind (only_perform id) fun _ => only_bind (only_perform id) fetchless_waited
  next hstalled =>
    refine Keeps.now (P := Ready i) ?_ ⟨cleared_look (Bool.eq_false_iff.2 hstalled), hlooked⟩
    exact keeps_bind keeps_cleared fun r =>
      keeps_fetchless ((only_dispatch r).mono fun _ ha => ha.fetchless)

/-- **Every fetch of a run** comes after a look at which the list was not stalled. -/
theorem keeps_checked : Keeps others (Heeding i) (execute watched i) (Checked i)
    fun _ => Heeding i := by
  have hrounds : Keeps others (Heeding i) (iterate () fun _ => round watched i)
      (Checked i) fun _ => Heeding i := by
    refine keeps_iterate (I := fun _ => Heeding i) (fun _ _ h => h) (fun _ _ h => h)
      (fun _ _ _ _ h => h) fun _ => keeps_checkedRound.post fun y t w h => ?_
    cases y with
    | inl s => exact h
    | inr r => exact h
  have hlook : Only (fun a => ¬ a.IsNext) (look i) := only_perform id
  refine keeps_bind (keeps_fetchless hlook) fun s => ?_
  split
  · exact keeps_fetchless (only_pure _)
  refine keeps_bind (keeps_fetchless hlook) fun s => ?_
  split
  · exact keeps_bind (keeps_fetchless (only_perform id)) fun _ =>
      keeps_bind (keeps_fetchless (only_perform id)) fun _ => hrounds
  · exact keeps_bind (keeps_fetchless (only_perform id)) fun _ => hrounds

/-! ## Everybody's moves -/

/-- `Mixed others p w t q u`: the process `p` started in the state `w` has come to `q` in the state
`u`. The moves made meanwhile are `t`: to the left those of the process, to the right those of the
`others`. -/
inductive Mixed (others : Action → Prop) {α : Type} :
    Process α → FrontEnd → List (Move ⊕ Move) → Process α → FrontEnd → Prop
  | start (p : Process α) (w : FrontEnd) : Mixed others p w [] p w
  | own {p q r : Process α} {w v u : FrontEnd} {t : List (Move ⊕ Move)} {t' : List Move} :
    Mixed others p w t q v → q.Takes v t' r u → Mixed others p w (t ++ t'.map .inl) r u
  | other {p q : Process α} {w : FrontEnd} {t : List (Move ⊕ Move)} {m : Move} :
    Mixed others p w t q m.before → m.Is others → Mixed others p w (t ++ [.inr m]) q m.after

/-- The moves of the process itself. -/
def ownMoves (t : List (Move ⊕ Move)) : List Move :=
  t.filterMap Sum.getLeft?

/-- All moves. -/
def allMoves (t : List (Move ⊕ Move)) : List Move :=
  t.map (Sum.elim id id)

variable {allowed : Action → Prop} {p q : Process α} {w v u : FrontEnd} {t : List (Move ⊕ Move)}
  {t' : List Move}

theorem ownMoves_append (t t' : List (Move ⊕ Move)) :
    ownMoves (t ++ t') = ownMoves t ++ ownMoves t' :=
  List.filterMap_append

theorem ownMoves_map_inl (t : List Move) : ownMoves (t.map .inl) = t := by
  induction t with
  | nil => rfl
  | cons m t ih => exact congrArg (m :: ·) ih

theorem allMoves_append (t t' : List (Move ⊕ Move)) :
    allMoves (t ++ t') = allMoves t ++ allMoves t' :=
  List.map_append

theorem allMoves_map_inl (t : List Move) : allMoves (t.map .inl) = t := by
  simp [allMoves]

/-- **The moves of the process itself** are a run beside others. -/
theorem Mixed.goes (h : Mixed allowed p w t q u) :
    Goes (Somebody allowed) p w (ownMoves t) q u := by
  induction h with
  | start => exact .stay ..
  | own _ ht ih =>
    rw [ownMoves_append, ownMoves_map_inl]
    exact ih.trans (ht.goes _)
  | other _ hm ih =>
    rw [ownMoves_append]
    exact ih.trans (Goes.wait _ (.single (somebody_move hm)))

/-- **Everybody's moves** follow one another. -/
theorem Mixed.history (h : Mixed allowed p w t q u) : History w (allMoves t) u := by
  induction h with
  | start => exact .nil
  | own _ ht ih =>
    rw [allMoves_append, allMoves_map_inl]
    exact ih.trans ht.history
  | other _ _ ih =>
    rw [allMoves_append]
    exact ih.snoc

theorem Mixed.is_other (h : Mixed allowed p w t q u) {m : Move} (hm : .inr m ∈ t) :
    m.Is allowed := by
  induction h with
  | start => cases hm
  | own _ _ ih =>
    rcases List.mem_append.1 hm with hm | hm
    · exact ih hm
    · simp at hm
  | other _ hother ih =>
    rcases List.mem_append.1 hm with hm | hm
    · exact ih hm
    · cases List.mem_singleton.1 hm
      exact hother

theorem Mixed.alone (h : Mixed allowed p w t q v) {r : Process α} (hg : Goes Nobody q v t' r u) :
    Mixed allowed p w (t ++ t'.map .inl) r u := by
  induction hg generalizing t with
  | stay => simpa using h
  | other ho => exact ho.elim
  | act _ ih =>
    rw [List.map_cons, List.append_cons]
    exact ih (h.own .act)
  | report _ ih =>
    rw [List.map_cons, List.append_cons]
    exact ih (h.own .report)
  | loop _ ih =>
    have hloop := h.own .loop
    rw [List.map_nil, List.append_nil] at hloop
    exact ih hloop

end Process

/-! ## Others who leave the list where it is -/

/-- The action leaves the list at position `i` where it is. -/
def Action.StaysPut (i : Nat) (a : Action) : Prop :=
  ∀ m s, (a.onto i m s).pc = s.pc

/-- What is asked of a list by those who hand it over and by those who wake its engine: wake-ups,
starts, restarts, new stall addresses and words. -/
def Request.HandsOver : Request → Prop
  | write .. | signal _ | start .. | restart _ | setStall .. | setStallWith .. => True
  | _ => False

/-- The move sets the stall address of the list at position `i` to where the list is. -/
def Move.SetsStall (i : Nat) (m : Move) : Prop :=
  (m.after.slot i).stall ≠ (m.before.slot i).stall ∧
    (m.after.slot i).stall = (m.before.slot i).pc

namespace Process

variable {i j : Nat}

theorem staysPut_change {c : Change} (h : ∀ s, (c.perform s).2.pc = s.pc) :
    (Action.change j c).StaysPut i := by
  intro m s
  rw [Action.onto_change]
  split
  · exact h s
  · rfl

theorem pc_moveStall (s : Slot) (a : Address) : (s.moveStall a).2.pc = s.pc := by
  unfold Slot.moveStall
  dsimp only
  split <;> rfl

/-- **Handing over** leaves every list where it is. -/
theorem only_staysPut {r : Request} (h : r.HandsOver) : Only (Action.StaysPut i) r.serve := by
  have hmoved : ∀ j, Only (Action.StaysPut i) (Operation.stallMoved j) := fun j =>
    only_bind (only_perform fun _ _ => rfl) fun _ => only_perform (staysPut_change fun _ => rfl)
  have hnotify : ∀ j n, Only (Action.StaysPut i) (perform (.notify j n)) := fun _ _ =>
    only_perform fun _ _ => rfl
  have hpaused : ∀ j b, Only (Action.StaysPut i) (change j (.setPaused b)) := fun _ _ =>
    only_perform (staysPut_change fun _ => rfl)
  have hwake : ∀ j, Only (Action.StaysPut i) (change j .postWake) := fun _ =>
    only_perform (staysPut_change fun _ => rfl)
  cases r with
  | write a ws =>
    refine only_bind (only_perform fun _ _ => rfl) fun r => ?_
    cases r with
    | error f => exact only_pure _
    | ok u => exact only_pure _
  | signal j => exact only_bind (hwake j) fun _ => only_pure _
  | start j p =>
    refine only_bind (only_bind (hpaused j false) fun _ => only_bind (hnotify ..) fun _ =>
      only_bind (hnotify ..) fun _ => ?_) fun _ => only_pure _
    cases p with
    | head => exact only_pure _
    | tail => exact hwake j
  | restart j =>
    exact only_bind (only_bind (hpaused j false) fun _ =>
      only_bind (only_perform (staysPut_change fun _ => rfl)) fun _ =>
        only_bind (hwake j) fun _ => hnotify ..) fun _ => only_pure _
  | setStall j a =>
    refine only_bind (only_bind (only_perform (staysPut_change fun s => pc_moveStall s a))
      fun changed => ?_) fun _ => only_pure _
    split
    · exact hmoved j
    · exact only_pure _
  | setStallWith j a plan lo hi =>
    dsimp only [Request.serve]
    unfold Request.withCursor
    split
    · exact only_pure _
    next c _ =>
      refine only_bind (only_bind (only_perform (staysPut_change fun s => pc_moveStall s a))
        fun changed => ?_) fun _ => only_pure _
      split
      · exact hmoved j
      · exact only_pure _
  | _ => exact h.elim

theorem pc_of_staysPut {m : Move} (h : m.Is (Action.StaysPut i)) :
    (m.after.slot i).pc = (m.before.slot i).pc := by
  cases m with
  | report r w => exact congrArg Slot.pc (w.slot_tell i r)
  | act a w =>
    exact Action.slot_perform_of (P := fun s => s.pc = (w.slot i).pc) rfl (h w.memory (w.slot i))

/-- A list that stays where it is, and whose stall address does not come to be there, is not
stalled if it was not. -/
theorem not_stalled_after {m : Move} (hpc : (m.after.slot i).pc = (m.before.slot i).pc)
    (hset : ¬ m.SetsStall i) (h : (m.before.slot i).isStalled = false) :
    (m.after.slot i).isStalled = false := by
  unfold Move.SetsStall at hset
  unfold Slot.isStalled at h ⊢
  rw [hpc]
  by_cases hstall : (m.after.slot i).stall = (m.before.slot i).stall
  · rw [hstall]
    exact h
  · have hne : (m.after.slot i).stall ≠ (m.before.slot i).pc := fun he => hset ⟨hstall, he⟩
    simp [Ne.symm hne]

variable {watched : Bool} {w u : FrontEnd} {t : List (Move ⊕ Move)}
  {q : Process (Except Failure Outcome)}

theorem Mixed.look_of_fetch {allowed : Action → Prop} {a b : List (Move ⊕ Move)} {m : Move}
    (h : Mixed allowed (Engine.execute watched i) w t q u) (ht : t = a ++ .inl m :: b)
    (hm : m.word? i ≠ none) : ∃ v a' c, a = a' ++ .inl (.act (.look i) v) :: c ∧
      (v.slot i).isStalled = false ∧ All (Move.Idle i) (ownMoves c) := by
  have hstart : Heeding i [] w := checked_nil
  have hchecked : Checked i (ownMoves t) := (keeps_checked hstart h.goes).1
  subst ht
  obtain ⟨x, look, y, hsplit, ⟨v, rfl, hv⟩, hidle⟩ :=
    hchecked (ownMoves a) m (ownMoves b) (by simp [ownMoves]) hm
  obtain ⟨a', c', rfl, -, hc⟩ := List.filterMap_eq_append_iff.1 hsplit
  obtain ⟨b', e, c, rfl, -, he, rfl⟩ := List.filterMap_eq_cons_iff.1 hc
  obtain rfl : e = .inl (.act (.look i) v) := Sum.getLeft?_eq_some_iff.1 he
  exact ⟨v, a' ++ b', c, by simp, hv, fun m' hm' => not_not.1 (hidle m' hm')⟩

/-- **The stall address is not executed.** Whatever the words are, and whatever wake-ups, starts,
restarts and new stall addresses come meanwhile: before each word that is fetched, the engine has
found the list not stalled at its last look; and the stall address is not where the word is, unless
somebody has set it there since. -/
theorem stall_never_executed (i : Nat) :
    (∀ r : Request, r.HandsOver → Only (Action.StaysPut i) r.serve) ∧
    ∀ {watched : Bool} {w u : FrontEnd} {t : List (Move ⊕ Move)}
      {q : Process (Except Failure Outcome)} {a b : List (Move ⊕ Move)} {m : Move}
      {x : Address × UInt32},
      Mixed (Action.StaysPut i) (Engine.execute watched i) w t q u →
      t = a ++ .inl m :: b → m.word? i = some x →
      ∃ v a' c, a = a' ++ .inl (.act (.look i) v) :: c ∧ (v.slot i).isStalled = false ∧
        (∀ v', .inl (.act (.look i) v') ∉ c) ∧
        ((∀ m', .inr m' ∈ c → ¬ m'.SetsStall i) →
          (m.before.slot i).stall = 0 ∨ (m.before.slot i).stall ≠ x.1) := by
  refine ⟨fun r hr => only_staysPut hr, fun {watched w u t q a b m x} h ht hm => ?_⟩
  obtain ⟨v, a', c, ha, hv, hidle⟩ := h.look_of_fetch ht (by simp [hm])
  have hown : ∀ m', .inl m' ∈ c → m'.Idle i := fun m' hm' =>
    hidle m' (List.mem_filterMap.2 ⟨_, hm', rfl⟩)
  refine ⟨v, a', c, ha, hv, fun v' hv' => (hown _ hv').not_look v' rfl, fun hset => ?_⟩
  -- Between the look and the fetch the list stays where it is, and does not come to be stalled.
  have hbetween : History v (allMoves c) m.before := by
    have hall : allMoves t =
        (allMoves a' ++ .act (.look i) v :: allMoves c) ++ m :: allMoves b := by
      rw [ht, ha]
      simp [allMoves]
    exact (h.history.before _ hall).after
  have hother : ∀ m', .inr m' ∈ c → m'.Is (Action.StaysPut i) := fun m' hm' =>
    h.is_other (by rw [ht, ha]; simp [hm'])
  have hkept : All (fun m' => (m'.before.slot i).isStalled = false →
      (m'.after.slot i).isStalled = false) (allMoves c) := by
    intro m' hm'
    obtain ⟨e, he, rfl⟩ := List.mem_map.1 hm'
    cases e with
    | inl m' => exact not_stalled_after (hown m' he).pc fun hs => hs.1 (hown m' he).stall
    | inr m' => exact not_stalled_after (pc_of_staysPut (hother m' he)) (hset m' he)
  have hclear := hbetween.kept (I := fun z => (z.slot i).isStalled = false) hkept hv
  rw [pc_of_word? hm]
  unfold Slot.isStalled at hclear
  by_cases hzero : (m.before.slot i).stall = 0
  · exact .inl hzero
  · refine .inr fun he => ?_
    simp [he, he ▸ hzero] at hclear

/-! ## A wake-up at the stall address -/

/-- A list that may not even run its first word, and a wake-up pending. -/
def wokenAtStall : FrontEnd :=
  { Replay.frontEnd {} with
    slots := #[{ (Slot.new 0).init ⟨0x08800000, 0x08800000, 0, none⟩ with wake := ⟨true⟩ }] }

/-- The engine as it waits for this list a second time. -/
def waitsAgain : List Move × Process (Except Failure Outcome) × FrontEnd :=
  (Engine.execute true 0).steps 13 wokenAtStall

/-- A producer lets the list go on. -/
def letOn : Move := .act (.change 0 (.moveStall 0x08800008)) waitsAgain.2.2

/-- The engine is woken again, and goes on to the first fetch. -/
def fetchesFirst : List Move × Process (Except Failure Outcome) × FrontEnd :=
  waitsAgain.2.1.steps 10 (Move.act (.change 0 .postWake) letOn.after).after

theorem stall_never_executed_wokenAtStall : ∃ (t a b : List (Move ⊕ Move))
    (q : Process (Except Failure Outcome)) (u : FrontEnd) (m : Move) (x : Address × UInt32),
    Mixed (Action.StaysPut 0) (Engine.execute true 0) wokenAtStall t q u ∧
      t = a ++ .inl m :: b ∧ m.word? 0 = some x ∧
      ∃ v a' c, a = a' ++ .inl (.act (.look 0) v) :: c ∧ (v.slot 0).isStalled = false ∧
        (∀ v', .inl (.act (.look 0) v') ∉ c) ∧
        ((∀ m', .inr m' ∈ c → ¬ m'.SetsStall 0) →
          (m.before.slot 0).stall = 0 ∨ (m.before.slot 0).stall ≠ x.1) := by
  have hwaits : Mixed (Action.StaysPut 0) (Engine.execute true 0) wokenAtStall
      ([] ++ waitsAgain.1.map .inl) waitsAgain.2.1 letOn.before :=
    (Mixed.start ..).alone (goes_steps ..)
  have hmoved := hwaits.other (staysPut_change fun s => pc_moveStall s _)
  have hwoken := Mixed.other (m := .act (.change 0 .postWake) letOn.after) hmoved
    (staysPut_change fun s => rfl)
  have hrun := hwoken.alone (goes_steps 10 _ _)
  have hlast : fetchesFirst.1.getLast?.bind (Move.word? 0) = some (0x08800000, 0) := by
    decide +kernel
  obtain ⟨m, hm, hx⟩ := Option.bind_eq_some_iff.1 hlast
  obtain ⟨l, hl⟩ := List.getLast?_eq_some_iff.1 hm
  have hsplit : ∀ t : List (Move ⊕ Move),
      t ++ fetchesFirst.1.map .inl = (t ++ l.map .inl) ++ .inl m :: [] := fun t => by
    rw [hl]
    simp
  exact ⟨_, _, [], _, _, m, _, hrun, hsplit _, hx,
    (stall_never_executed 0).2 hrun (hsplit _) hx⟩

end Process

end DisplayList

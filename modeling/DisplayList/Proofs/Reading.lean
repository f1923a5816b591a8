import DisplayList.Proofs.Producer

/-!
# Reading a list that is handed over in parts

Where the list has not run up to its stall address, an access beside the producer answers what it
would answer in the end, with all words in memory and without cursors.

* `Slot.plain`: an access without cursors; `Slot.Reads`: what an access makes of a slot, beside the
  producer; **`Fed.reads`**, **`Fed.reads_found`**: through the cursor at hand, and through one just
  found;
* `Mirrors`: a front end that shows what another does, and whose list is handed over in parts;
* **`keeps_access`**, **`keeps_oblivious`**: an access, and a process that sees only what is shown,
  take front ends that mirror each other to such front ends.
-/

namespace DisplayList

/-! ## Accesses without cursors -/

namespace Slot

/-- An access without a cursor. -/
def plain (s : Slot) (m : Memory) : (a : Access) → Except Failure a.Answer × Slot
  | .next => s.fetch m
  | .previous => ((m.readWord (s.pc - 8)).mapError Failure.memory, s)
  | .rewind _ => (.ok (), s)

theorem plain_of_shown {s s' : Slot} (h : s.shown = s'.shown) (m : Memory) (a : Access) :
    (s.plain m a).1 = (s'.plain m a).1 ∧ (s.plain m a).2.shown = (s'.plain m a).2.shown := by
  have hpc : s.pc = s'.pc := (congrArg Slot.pc h :)
  cases a with
  | next =>
    unfold plain fetch
    rw [hpc]
    cases m.readWord s'.pc with
    | error f => exact ⟨rfl, h⟩
    | ok x => exact ⟨rfl, congrArg (fun t : Slot => { t with pc := s'.pc + 4 }) h⟩
  | previous =>
    unfold plain
    rw [hpc]
    exact ⟨rfl, h⟩
  | rewind n => exact ⟨rfl, h⟩

/-- The words that the access looks at were handed over. -/
def Legible (s : Slot) : Access → Prop
  | .next => s.pc.toNat < s.stall.toNat
  | .previous => s.pc.toNat ≤ s.stall.toNat
  | .rewind _ => False

/-- The answer `r` and the slot `s'` are those of an access without a cursor to `goal`, apart from
what is not shown; and once a word was fetched, a cursor is at hand. -/
structure Reads (goal : Memory) (a : Access) (s : Slot) (r : Except Failure a.Answer)
    (s' : Slot) : Prop where
  answer : r = (s.plain goal a).1
  shown : s'.shown = (s.plain goal a).2.shown
  cursor : ∀ x, r = .ok x → s'.fetcher.wanted s'.pc = none

variable {start stop : Address} {s : Slot} {m goal : Memory} {c : Cursor}

theorem Fed.mod_stall (h : s.Fed start stop) : s.stall.toNat % 4 = 0 :=
  (Address.aligned_eq_iff.1 h.aligned).1

theorem advance_back (a : Address) : (Cursor.mk a .word).advance (-2) = ⟨a - 8, .word⟩ := by
  have h : ((Cursor.mk a .word).advance (-2)).address = a - 8 := by
    apply UInt32.toNat_inj.1
    apply Int.ofNat_inj.1
    rw [Cursor.toNat_advance, UInt32.toNat_sub]
    have h8 : (8 : UInt32).toNat = 8 := rfl
    have ha := a.toNat_lt
    rw [h8]
    change ((a.toNat : Int) + -2 * 4) % 2 ^ 32 = ((2 ^ 32 - 8 + a.toNat) % 2 ^ 32 : Nat)
    omega
  exact congrArg (Cursor.mk · Width.word) h

theorem Fed.reads_next (h : s.Fed start stop)
    (hm : m.AgreesOutside s.stall.toNat stop.toNat goal) (hl : s.Legible .next)
    (hc : s.fetcher.cursor? = some c) :
    Reads goal .next s (s.access m .next).1 (s.access m .next).2 := by
  obtain ⟨hf, -⟩ := h.follows.next (m := m) hc
  have hmod := h.follows.mod
  have hstall := h.mod_stall
  have hlt : s.pc.toNat < s.stall.toNat := hl
  have hw : m.readWord s.pc = goal.readWord s.pc :=
    hm.readWord h.follows.aligned (by omega)
  have hfetch : s.fetch m = s.fetch goal := by
    unfold fetch
    rw [hw]
  refine ⟨?_, ?_, fun x hx => ?_⟩
  · rw [hf.answer, hfetch]
    rfl
  · have hb := congrArg Slot.shown hf.slot
    rw [hfetch] at hb
    exact hb
  · unfold Slot.access at hx ⊢
    rw [hc] at hx ⊢
    dsimp only at hx ⊢
    cases hr : c.read m with
    | error f =>
      rw [hr] at hx
      cases hx
    | ok y => exact Fetcher.wanted_setCursor hc

theorem Fed.reads_previous (h : s.Fed start stop)
    (hm : m.AgreesOutside s.stall.toNat stop.toNat goal) (hl : s.Legible .previous)
    (hc : s.fetcher.cursor? = some c) :
    Reads goal .previous s (s.access m .previous).1 (s.access m .previous).2 := by
  have hcpc := h.follows.fetcher.cursor c hc
  have hw : m.readWord (s.pc - 8) = goal.readWord (s.pc - 8) := hm.readBack h.follows.aligned hl
  have hread : (c.advance (-2)).read m =
      (goal.readWord (s.pc - 8)).map fun x => (x, ⟨s.pc - 8 + 4, .word⟩) := by
    rw [hcpc, advance_back, read_at, hw]
  unfold Slot.access
  rw [hc]
  dsimp only
  rw [hread]
  cases hg : goal.readWord (s.pc - 8) with
  | error f =>
    refine ⟨?_, rfl, fun x hx => by cases hx⟩
    unfold plain
    rw [hg]
    rfl
  | ok x =>
    refine ⟨?_, rfl, fun _ _ => Fetcher.wanted_setCursor hc⟩
    unfold plain
    rw [hg]
    rfl

/-- **An access through the cursor at hand.** -/
theorem Fed.reads {a : Access} (h : s.Fed start stop)
    (hm : m.AgreesOutside s.stall.toNat stop.toNat goal) (hl : s.Legible a)
    (hc : s.fetcher.cursor? = some c) : Reads goal a s (s.access m a).1 (s.access m a).2 := by
  cases a with
  | next => exact h.reads_next hm hl hc
  | previous => exact h.reads_previous hm hl hc
  | rewind n => exact hl.elim

/-- **An access through a cursor just found** at the instruction address. -/
theorem Fed.reads_found {a : Access} (h : s.Fed start stop)
    (hm : m.AgreesOutside s.stall.toNat stop.toNat goal) (hl : s.Legible a)
    (hc : Cursor.openAt s.pc 4 = .ok c) :
    ∃ r s', s.accessWith m s.pc c a = (some r, s') ∧ Reads goal a s r s' := by
  have hinstall : ∃ fetcher, s.fetcher.install? s.pc s.pc c = some fetcher := by
    unfold Fetcher.install?
    cases hw : s.fetcher.wanted s.pc with
    | none => exact ⟨_, rfl⟩
    | some b =>
      rw [h.follows.fetcher.wanted b hw]
      exact ⟨_, if_pos rfl⟩
  obtain ⟨fetcher, hf⟩ := hinstall
  obtain ⟨c', hc'⟩ := (h.follows.fetcher.install h.follows.aligned hc hf).2
  have hs : Fed start stop { s with fetcher } := h.install hc hf
  have hl' : Legible { s with fetcher } a := by
    cases a with
    | next => exact hl
    | previous => exact hl
    | rewind n => exact hl.elim
  have hr := hs.reads hm hl' hc'
  have hsh : shown { s with fetcher } = s.shown := rfl
  obtain ⟨hp, hp'⟩ := plain_of_shown hsh goal a
  refine ⟨_, _, ?_, ⟨hr.answer.trans hp, hr.shown.trans hp', hr.cursor⟩⟩
  unfold Slot.accessWith
  rw [hf]

theorem Fed.reads_not_found {f : Memory.Fault} (h : s.Fed start stop)
    (hc : Cursor.openAt s.pc 4 = .error f) : Reads goal .next s (.error (.memory f)) s := by
  obtain ⟨rfl, hm⟩ := Cursor.openAt_error h.follows.aligned hc
  have hf := fetch_unmapped (m := goal) h.follows.aligned hm
  refine ⟨?_, ?_, fun x hx => by cases hx⟩
  · unfold plain
    rw [hf]
  · unfold plain
    rw [hf]

theorem tryAccess_inr {a : Access} {r : Except Failure a.Answer} {s' : Slot}
    (hr : s.tryAccess m a = (.inr r, s')) :
    (∃ c, s.fetcher.cursor? = some c) ∧ r = (s.access m a).1 ∧ s' = (s.access m a).2 := by
  unfold tryAccess at hr
  split at hr
  next => cases hr
  next hw =>
    cases hr
    exact ⟨Fetcher.cursor_of_wanted hw, rfl, rfl⟩

theorem stall_access (s : Slot) (m : Memory) (a : Access) : (s.access m a).2.stall = s.stall := by
  obtain ⟨pc, fetcher, h⟩ := s.access_frame m a
  rw [h]

theorem stall_accessWith (s : Slot) (m : Memory) (address : Address) (c : Cursor) (a : Access) :
    (s.accessWith m address c a).2.stall = s.stall := by
  obtain ⟨pc, fetcher, h⟩ := s.accessWith_frame m address c a
  rw [h]

theorem Reads.legible {a : Access} {r : Except Failure a.Answer} {s' : Slot}
    (hr : Reads goal a s r s') (h : s.Fed start stop) (hl : s.Legible a)
    (hstall : s'.stall = s.stall) : s'.pc.toNat ≤ s'.stall.toNat := by
  have hpc : s'.pc = (s.plain goal a).2.pc := (congrArg Slot.pc hr.shown :)
  rw [hstall, hpc]
  cases a with
  | rewind n => exact hl.elim
  | previous => exact hl
  | next =>
    have hmod := h.follows.mod
    have hstall := h.mod_stall
    have hlt : s.pc.toNat < s.stall.toNat := hl
    unfold plain fetch
    cases hx : goal.readWord s.pc with
    | error f => exact Nat.le_of_lt hlt
    | ok x =>
      have hm := Memory.isMapped_of_readWord h.follows.aligned hx
      have hn := (Memory.aligned_next h.follows.aligned hm).2
      change (s.pc + 4).toNat ≤ s.stall.toNat
      omega

end Slot

/-! ## Front ends that mirror each other -/

/-- An access without a cursor to the list at position `i`. -/
def FrontEnd.plain (w : FrontEnd) (i : Nat) (m : Memory) (a : Slot.Access) :
    Except Failure a.Answer × FrontEnd :=
  Action.onSlot w i (·.plain m a)

/-- The front end shows what `x` shows, and its list is handed over in parts. -/
structure Mirrors (i : Nat) (start stop : Address) (goal : Memory) (x v : FrontEnd) : Prop where
  fed : v.Fed i start stop goal
  shown : v.shown = x.shown

variable {i : Nat} {start stop : Address} {goal : Memory} {x v u : FrontEnd}

theorem Mirrors.slot (h : Mirrors i start stop goal x v) :
    (v.slot i).shown = (x.slot i).shown :=
  FrontEnd.slot_of_shown h.shown i

theorem Mirrors.pc (h : Mirrors i start stop goal x v) : (v.slot i).pc = (x.slot i).pc :=
  (congrArg Slot.pc h.slot :)

theorem Mirrors.feeder (h : Mirrors i start stop goal x v) (hf : Feeder i start stop goal v u) :
    Mirrors i start stop goal x u :=
  ⟨(hf h.fed).fed, (hf h.fed).shown.trans h.shown⟩

theorem FrontEnd.shown_tell_cursor {w : FrontEnd} (h : w.host.Quiet) (a : Address) (s : UInt32) :
    (w.tell (.cursor a s)).2.shown = w.shown := by
  rw [tell_quiet h]
  change (w.note (.told (.cursor a s))).shown = w.shown
  rw [shown_note]
  rfl

namespace Process

variable {others : FrontEnd → FrontEnd → Prop}
  (ho : ∀ v u, others v u → Feeder i start stop goal v u)

/-- No word was fetched but where `x` has its instruction address. -/
def FetchesAt (i : Nat) (x : FrontEnd) (m : Move) : Prop :=
  m.Fetches i → (m.before.slot i).pc = (x.slot i).pc

/-- An access is to be done, or under way. -/
structure Reading (i : Nat) (start stop : Address) (goal : Memory) (a : Slot.Access)
    (x : FrontEnd) (t : List Move) (v : FrontEnd) : Prop where
  mirrors : Mirrors i start stop goal x v
  legible : (v.slot i).Legible a
  /-- Before one looks back, a cursor is to be found. -/
  atHand : a = .previous → (v.slot i).fetcher.AtHand (v.slot i).pc
  moves : All (FetchesAt i x) t

/-- The access is done, and has answered `r`. -/
structure HasRead (i : Nat) (start stop : Address) (goal : Memory) (a : Slot.Access)
    (x : FrontEnd) (r : Except Failure a.Answer) (t : List Move) (v : FrontEnd) : Prop where
  answer : r = (x.plain i goal a).1
  mirrors : Mirrors i start stop goal (x.plain i goal a).2 v
  legible : (v.slot i).Legible .previous
  atHand : ∀ y, r = .ok y → (v.slot i).fetcher.AtHand (v.slot i).pc
  moves : All (FetchesAt i x) t

variable {a : Slot.Access} {r : Except Failure a.Answer} {t : List Move}

include ho in
theorem stable_reading : Stable others (Reading i start stop goal a x) := by
  intro t v u hvu hv
  have hf := ho v u hvu hv.mirrors.fed
  have hpc : (u.slot i).pc = (v.slot i).pc :=
    (congrArg Slot.pc (FrontEnd.slot_of_shown hf.shown i) :)
  have hstall := hf.stall
  have hlegible := hv.legible
  refine ⟨hv.mirrors.feeder (ho v u hvu), ?_, fun hp => ?_, hv.moves⟩
  · cases a with
    | next =>
      change (v.slot i).pc.toNat < _ at hlegible
      change (u.slot i).pc.toNat < _
      rw [hpc]
      omega
    | previous =>
      change (v.slot i).pc.toNat ≤ _ at hlegible
      change (u.slot i).pc.toNat ≤ _
      rw [hpc]
      omega
    | rewind n => exact hlegible.elim
  · subst hp
    exact hf.atHand hlegible (hv.atHand rfl)

include ho in
theorem stable_hasRead : Stable others (HasRead i start stop goal a x r) := by
  intro t v u hvu hv
  have hf := ho v u hvu hv.mirrors.fed
  have hpc : (u.slot i).pc = (v.slot i).pc :=
    (congrArg Slot.pc (FrontEnd.slot_of_shown hf.shown i) :)
  have hstall := hf.stall
  have hlegible := hv.legible
  refine ⟨hv.answer, hv.mirrors.feeder (ho v u hvu), ?_, fun y hy => ?_, hv.moves⟩
  · change (v.slot i).pc.toNat ≤ _ at hlegible
    change (u.slot i).pc.toNat ≤ _
    rw [hpc]
    omega
  · exact hf.atHand hlegible (hv.atHand y hy)

theorem Reading.hasRead {s : Slot} {t' : List Move} (h : Reading i start stop goal a x t v)
    (hr : Slot.Reads goal a (v.slot i) r s) (hfed : (v.setSlot i s).Fed i start stop goal)
    (hstall : s.stall = (v.slot i).stall) (ht : All (FetchesAt i x) t') :
    HasRead i start stop goal a x r t' (v.setSlot i s) := by
  obtain ⟨hp, hp'⟩ := Slot.plain_of_shown h.mirrors.slot goal a
  have hslot : (v.setSlot i s).slot i = s := FrontEnd.slot_setSlot_self h.mirrors.fed.size
  refine ⟨hr.answer.trans hp, ⟨hfed, ?_⟩, ?_, fun y hy => ?_, ht⟩
  · exact FrontEnd.setSlot_of_shown h.mirrors.shown i (hr.shown.trans hp')
  · rw [hslot]
    exact hr.legible h.mirrors.fed.slot h.legible hstall
  · rw [hslot]
    exact .inl (hr.cursor y hy)

theorem Reading.snoc {m : Move} (h : Reading i start stop goal a x t v) (hm : m.before = v) :
    All (FetchesAt i x) (t ++ [m]) := by
  refine all_append.2 ⟨h.moves, all_cons.2 ⟨fun _ => ?_, all_nil⟩⟩
  rw [hm]
  exact h.mirrors.pc

/-- What a round of an access leaves: nothing, or an answer. -/
abbrev RoundRead (i : Nat) (start stop : Address) (goal : Memory) (a : Slot.Access)
    (x : FrontEnd) : Unit ⊕ Except Failure a.Answer → Assertion :=
  Sum.elim (fun _ => Reading i start stop goal a x) (HasRead i start stop goal a x)

include ho in
theorem keeps_hasRead : Keeps others (HasRead i start stop goal a x r) (.done (.inr r))
    (All (FetchesAt i x)) (RoundRead i start stop goal a x) :=
  keeps_stay (stable_hasRead ho) (fun _ _ h => h.moves) fun _ _ h => h

include ho in
theorem keeps_found (ha : ∀ n, a ≠ .rewind n)
    (hmap : a = .previous → Memory.isMapped (x.slot i).pc = true) :
    Keeps others (Reading i start stop goal a x)
      (Operation.found i a (x.slot i).pc (Cursor.openAt (x.slot i).pc 4))
      (All (FetchesAt i x)) (RoundRead i start stop goal a x) := by
  have hst := stable_reading (a := a) (x := x) ho
  cases hc : Cursor.openAt (x.slot i).pc 4 with
  | error f =>
    refine keeps_iff.2 fun t v hv => ?_
    have hcv : Cursor.openAt (v.slot i).pc 4 = .error f := by
      rw [hv.mirrors.pc]
      exact hc
    have hreads : Slot.Reads goal a (v.slot i) (.error (.memory f)) (v.slot i) := by
      cases a with
      | next => exact hv.mirrors.fed.slot.reads_not_found hcv
      | previous =>
        have hunmapped := (Cursor.openAt_error hv.mirrors.fed.slot.follows.aligned hcv).2
        rw [hv.mirrors.pc, hmap rfl] at hunmapped
        cases hunmapped
      | rewind n => exact absurd rfl (ha n)
    have hset := FrontEnd.setSlot_slot v i
    have hdone := hv.hasRead hreads (by rw [hset]; exact hv.mirrors.fed) rfl hv.moves
    rw [hset] at hdone
    exact (keeps_hasRead ho).now hdone
  | ok c =>
    refine keeps_perform hst (fun _ _ h => h.moves) fun t v hv => ?_
    have hcv : Cursor.openAt (v.slot i).pc 4 = .ok c := by
      rw [hv.mirrors.pc]
      exact hc
    obtain ⟨r, s, hr, hreads⟩ :=
      hv.mirrors.fed.slot.reads_found hv.mirrors.fed.memory hv.legible hcv
    rw [hv.mirrors.pc] at hr
    have hstall : s.stall = (v.slot i).stall := by
      have h := Slot.stall_accessWith (v.slot i) v.memory (x.slot i).pc c a
      rw [hr] at h
      exact h
    have hfed := hv.mirrors.fed.perform (a := .accessWith i (x.slot i).pc c a) ⟨ha, hc⟩
    rw [perform_accessWith hr] at hfed ⊢
    have hdone := hv.hasRead hreads hfed hstall
      (hv.snoc (m := .act (.accessWith i (x.slot i).pc c a) v) rfl)
    exact (keeps_hasRead ho).now hdone

include ho in
theorem keeps_attempt (ha : ∀ n, a ≠ .rewind n) :
    Keeps others (Reading i start stop goal a x) (Operation.attempt i a)
      (All (FetchesAt i x)) (RoundRead i start stop goal a x) := by
  have hst := stable_reading (a := a) (x := x) ho
  refine keeps_perform hst (fun _ _ h => h.moves) fun t v hv => ?_
  have hfed := hv.mirrors.fed.perform (a := .access i a) ha
  have hsnoc := hv.snoc (m := .act (.access i a) v) rfl
  cases hr : (v.slot i).tryAccess v.memory a with
  | mk r s =>
  rw [perform_access hr] at hfed ⊢
  cases r with
  | inr r =>
    obtain ⟨⟨c, hc⟩, rfl, rfl⟩ := Slot.tryAccess_inr hr
    have hreads := hv.mirrors.fed.slot.reads hv.mirrors.fed.memory hv.legible hc
    have hstall := Slot.stall_access (v.slot i) v.memory a
    exact (keeps_hasRead ho).now (hv.hasRead hreads hfed hstall hsnoc)
  | inl address =>
    have hwanted := (tryAccess_inl hr).2
    obtain ⟨rfl, rfl⟩ := hv.mirrors.fed.slot.follows.tryAccess_wanted hr
    have hmap : a = .previous → Memory.isMapped (x.slot i).pc = true := by
      intro hp
      rcases hv.atHand hp with hn | hm
      · rw [hwanted] at hn
        cases hn
      · rw [← hv.mirrors.pc]
        exact hm
    rw [FrontEnd.setSlot_slot, hv.mirrors.pc]
    have hnow : Reading i start stop goal a x (t ++ [.act (.access i a) v]) v :=
      ⟨hv.mirrors, hv.legible, hv.atHand, hsnoc⟩
    refine Keeps.now ?_ hnow
    refine keeps_tell hst (fun _ _ h => h.moves) fun t u hu => ?_
    have hslot := FrontEnd.slot_tell u i (.cursor (x.slot i).pc 4)
    have hshown := FrontEnd.shown_tell_cursor hu.mirrors.fed.quiet (x.slot i).pc 4
    refine (keeps_found ho ha hmap).now ⟨⟨hu.mirrors.fed.tell _, ?_⟩, ?_, ?_, hu.snoc rfl⟩
    · rw [hshown]
      exact hu.mirrors.shown
    · rw [hslot]
      exact hu.legible
    · rw [hslot]
      exact hu.atHand

include ho in
/-- **An access beside the producer** answers what it would answer in the end. -/
theorem keeps_access (ha : ∀ n, a ≠ .rewind n) :
    Keeps others (Reading i start stop goal a x) (Operation.access i a)
      (All (FetchesAt i x)) (HasRead i start stop goal a x) :=
  keeps_iterate (I := fun _ => Reading i start stop goal a x) (fun _ _ h => h)
    (fun _ _ h => h.moves) (stable_reading ho) fun _ => keeps_attempt ho ha

/-! ## Processes that see only what is shown -/

include ho in
theorem stable_mirrors : Stable others fun _ => Mirrors i start stop goal x :=
  fun _ v u hvu hv => hv.feeder (ho v u hvu)

include ho in
/-- **A process that sees only what is shown** does beside the producer what it does alone. -/
theorem keeps_oblivious {α : Type} {p : Process α} (hp : Oblivious p) {x y : FrontEnd}
    {t : List Move} {r : α} (hx : x.selected? = none) (h : Alone p x t r y) :
    Keeps others (fun _ => Mirrors i start stop goal x) p (fun _ => True)
      fun r' _ v => r' = r ∧ Mirrors i start stop goal y v := by
  induction p generalizing x t with
  | done a =>
    obtain ⟨-, rfl, rfl⟩ := alone_done.1 h
    exact keeps_stay (stable_mirrors ho) (fun _ _ _ => trivial) fun _ _ h => ⟨rfl, h⟩
  | act a k ih =>
    obtain ⟨ha, hk, hobl⟩ := hp
    obtain ⟨t', -, h'⟩ := alone_act.1 h
    have hx' : (a.perform x).2.selected? = none := (ha.serves.frame x).1.trans hx
    refine keeps_act (stable_mirrors ho) (fun _ _ _ => trivial) fun t v hv => ?_
    obtain ⟨hagree, hshown⟩ := ha.shown hv.shown hx
    rw [hk _ _ hagree]
    exact (ih _ (hobl _) hx' h').now ⟨hv.fed.perform ha.serves, hshown⟩
  | report m k ih =>
    obtain ⟨t', -, h'⟩ := alone_report.1 h
    obtain ⟨host, journal, hf⟩ := x.tell_frame m
    have hx' : (x.tell m).2.selected? = none := by
      rw [hf]
      exact hx
    refine keeps_report (stable_mirrors ho) (fun _ _ _ => trivial) fun t v hv => ?_
    exact (ih hp hx' h').now ⟨hv.fed.tell m, FrontEnd.tell_of_shown hv.shown m⟩
  | loop => exact hp.elim

end Process

end DisplayList

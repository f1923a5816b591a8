import DisplayList.Proofs.Onward
import DisplayList.Proofs.Storing

/-!
# Lists that only go forward

A list without branches is run word by word until something stops it. The loop that does so has no
counter; it comes to an end because every round fetches a word of what is left of the region, or
takes the one wake-up that may be pending.

* `Region.past`, `Memory.Forward`: the end of the region, and code that leads nowhere else;
* `only_keepsPlace`, `halts_stop`, **`halts_step`**: a command that leads nowhere else;
* `Running`, `remaining`, **`halts_round`**: a round leaves less to be done;
* **`halts_execute`**, **`forward_finishes`**: the run.
-/

namespace DisplayList

open Process

/-! ## Code -/

/-- The first address past the region of `a`; `a` itself if it is in none. -/
def Region.past (a : Address) : Address :=
  match Region.of? a with
  | some r => r.last + 1
  | none => a

/-- How many words there are from `a` to the end of its region. -/
def Region.wordsLeft (a : Address) : Nat :=
  ((past a).toNat - a.toNat) / 4

/-- The command leads elsewhere, or may do so. -/
def Command.Branches : Command → Prop
  | jump _ | branchHidden _ | call _ | ret => True
  | _ => False

/-- A SIGNAL word of this behavior does not make the END word after it lead elsewhere. -/
def Signal.Stays (behavior : UInt32) : Prop :=
  Signal.transfer? behavior = none ∨ Signal.transfer? behavior = some .pause

/-- No word from `start` up to `stop` leads elsewhere: none branches, and no END word among them
follows a SIGNAL word that asks for a branch. -/
def Memory.Forward (m : Memory) (start stop : Address) : Prop :=
  ∀ a word, Address.aligned a = a → start ≤ a → a < stop → m.readWord a = .ok word →
    ¬ (Command.decode word).Branches ∧
      ∀ arg before behavior number, Command.decode word = .stop arg →
        m.readWord (a - 4) = .ok before → Command.decode before = .signal behavior number →
        Signal.Stays behavior

section Regions

variable {a b : Address}

theorem Region.unmapped_next (r : Region) : Address.aligned (r.last + 1) = r.last + 1 ∧
    Memory.isMapped (r.last + 1) = false ∧ (r.last + 1).toNat = r.last.toNat + 1 := by
  cases r <;> decide

theorem Region.past_of_unmapped {a : Address} (h : Memory.isMapped a = false) : past a = a := by
  unfold past
  unfold Memory.isMapped at h
  rw [Option.isNone_iff_eq_none.1 (Option.isSome_eq_false_iff.1 h)]

/-- The end of the region of `a` is an instruction address where nothing is mapped, and not before
`a`. -/
theorem Region.unmapped_past (ha : Address.aligned a = a) :
    Address.aligned (past a) = past a ∧ Memory.isMapped (past a) = false ∧
      a.toNat ≤ (past a).toNat := by
  unfold past
  cases hr : Region.of? a with
  | none =>
    refine ⟨ha, ?_, Nat.le_refl _⟩
    rw [Memory.isMapped, hr]
    rfl
  | some r =>
    obtain ⟨halign, hmap, hnext⟩ := r.unmapped_next
    have hin := ((Memory.holds_iff ha).1 (Memory.holds_of_region hr)).2
    exact ⟨halign, hmap, by dsimp only; omega⟩

theorem Region.isMapped_of_lt_past (ha : Address.aligned a = a) (hb : Address.aligned b = b)
    (hle : a.toNat ≤ b.toNat) (hlt : b.toNat < (past a).toNat) : Memory.isMapped b = true := by
  unfold past at hlt
  cases hr : Region.of? a with
  | none =>
    rw [hr] at hlt
    exact absurd hlt (Nat.not_lt.2 hle)
  | some r =>
    rw [hr] at hlt
    dsimp only at hlt
    have hnext := r.unmapped_next.2.2
    have hin := (Memory.holds_iff ha).1 (Memory.holds_of_region hr)
    have hb : r.holds b = true := (Memory.holds_iff hb).2 (by omega)
    rw [Memory.isMapped, Region.of?, List.find?_isSome]
    exact ⟨r, by cases r <;> decide, hb⟩

end Regions

/-! ## Commands -/

namespace Engine

open Process

variable {i n : Nat} {c : Command}

theorem only_keepsPlace (watched : Bool) (hc : ¬ c.Branches) (hstop : ∀ arg, c ≠ .stop arg) :
    Only (Action.KeepsPlace i) (step watched i c) := by
  have hlook : ∀ {α : Type} {f : Slot → Process α}, (∀ s, Only (Action.KeepsPlace i) (f s)) →
      Only (Action.KeepsPlace i) (look i >>= f) := fun hf => only_bind only_keepsPlace_look hf
  have hkind : Only (Action.KeepsPlace i) (perform .kind) :=
    only_perform (Action.keepsPlace_of id (fun _ => rfl) fun _ _ => rfl)
  have hread : Only (Action.KeepsPlace i) (perform .registers) :=
    only_perform (Action.keepsPlace_of id (fun _ => rfl) fun _ _ => rfl)
  have hset : ∀ r, Only (Action.KeepsPlace i) (perform (.setRegisters r)) := fun _ =>
    only_perform (Action.keepsPlace_of id (fun _ => rfl) fun _ _ => rfl)
  cases c with
  | nop => exact only_pure _
  | jump arg => exact absurd trivial hc
  | branchHidden arg => exact absurd trivial hc
  | call arg => exact absurd trivial hc
  | ret => exact absurd trivial hc
  | stop arg => exact absurd rfl (hstop arg)
  | signal behavior signal =>
    dsimp only [step]
    split
    · exact hlook fun _ => only_bind (hlook fun _ => only_bind hkind fun _ => only_tell _)
        fun _ => only_pure _
    · exact only_pure _
  | finish arg =>
    exact only_bind (only_bind (only_perform (Action.keepsPlace_change fun _ => ⟨rfl, rfl, rfl⟩))
      fun _ => only_perform Action.keepsPlace_notify) fun _ => hlook fun _ =>
        only_bind (hlook fun _ => only_bind hkind fun _ => only_tell _) fun _ => only_pure _
  | base arg => exact only_bind hread fun _ => only_bind (hset _) fun _ => only_pure _
  | offset arg => exact only_bind hread fun _ => only_bind (hset _) fun _ => only_pure _
  | origin =>
    exact hlook fun _ => only_bind hread fun _ => only_bind (hset _) fun _ => only_pure _
  | draw word =>
    refine hlook fun s => ?_
    split
    · exact only_bind (only_tell _) fun _ => only_pure _
    · exact only_pure _

/-- The step ends the run, at the end of the list or by a pause. -/
def Closes : Except Failure (Option Outcome) → Prop
  | .ok (some (.ended _)) | .ok (some .paused) => True
  | _ => False

section Alone

variable {others : FrontEnd → FrontEnd → Prop} (hothers : ∀ v u, others v u → Elsewhere v u)
  {w : FrontEnd}

include hothers

theorem halts_stop {arg : UInt32}
    (hc : (w.slot i).fetcher.cursor? = some ⟨(w.slot i).pc, .word⟩)
    (hstays : ∀ before behavior number, w.memory.readWord ((w.slot i).pc - 8) = .ok before →
      Command.decode before = .signal behavior number → Signal.Stays behavior) :
    Halts others i (fun r _ m => m = n ∧ Closes r) (stop i arg) w n := by
  have hflag : ∀ {c : Change}, (∀ s, (c.perform s).2.pc = s.pc ∧
      (c.perform s).2.fetcher = s.fetcher ∧ (c.perform s).2.wake = s.wake) →
      Only (Action.KeepsPlace i) (change i c) := fun h => only_perform (Action.keepsPlace_change h)
  have hlook : Only (Action.KeepsPlace i) (look i) := only_keepsPlace_look
  have hlead : Leads Closes ((conclude i).bind ended) := fun _ _ _ _ => trivial
  have honly : Only (Action.KeepsPlace i) ((conclude i).bind ended) :=
    only_bind (only_bind (only_bind hlook fun _ => hflag fun _ => ⟨rfl, rfl, rfl⟩) fun _ =>
      only_bind (hflag fun _ => ⟨rfl, rfl, rfl⟩) fun _ => only_bind hlook fun _ => only_pure _)
      fun _ => only_pure _
  have hend : ∀ v m, m = n → Halts others i (fun r _ m => m = n ∧ Closes r)
      ((conclude i).bind ended) v m := fun v m hm =>
    (halts_inPlace hothers hlead honly ((Elsewhere.refl v).inPlace i)).mono
      fun _ _ _ h => ⟨h.1.trans hm, h.2.1⟩
  rw [stop_eq]
  -- What the look back comes to decides, and it fails at the start of a region.
  refine Halts.bind ((halts_previous hothers hc).mono fun r v m hr => ?_)
  obtain ⟨rfl, hm, -⟩ := hr
  cases hx : w.memory.readWord ((w.slot i).pc - 8) with
  | error f => exact hend v m hm
  | ok before =>
    dsimp only [Except.mapError, stopWith]
    split
    next behavior number hd =>
      obtain hnone | hpause := hstays before behavior number hx hd
      · rw [hnone]
        exact hend v m hm
      · rw [hpause]
        have hpaused : Leads Closes (transfer i .pause (Signal.target number arg)) :=
          fun _ => trivial
        exact (halts_inPlace hothers hpaused
          (only_bind (hflag fun _ => ⟨rfl, rfl, rfl⟩) fun _ => only_pure _)
          ((Elsewhere.refl v).inPlace i)).mono fun _ _ _ h => ⟨h.1.trans hm, h.2.1⟩
    next => exact hend v m hm

/-- **A command that leads nowhere else.** -/
theorem halts_step (watched : Bool) (hb : ¬ c.Branches)
    (hc : (w.slot i).fetcher.cursor? = some ⟨(w.slot i).pc, .word⟩)
    (hstays : ∀ arg before behavior number, c = .stop arg →
      w.memory.readWord ((w.slot i).pc - 8) = .ok before →
      Command.decode before = .signal behavior number → Signal.Stays behavior) :
    Halts others i (fun r v m => m = n ∧ (r = .ok none ∧ InPlace i w v ∨ Closes r))
      (step watched i c) w n := by
  by_cases hstop : ∃ arg, c = .stop arg
  · obtain ⟨arg, rfl⟩ := hstop
    exact (halts_stop hothers hc (fun b s n => hstays arg b s n rfl)).mono
      fun r v m h => ⟨h.1, .inr h.2⟩
  · have hstop : ∀ arg, c ≠ .stop arg := fun arg he => hstop ⟨arg, he⟩
    have hlead : Leads (· = .ok none) (step watched i c) :=
      leads_step_of watched hstop rfl fun arg he => by
        subst he
        exact absurd trivial hb
    exact (halts_inPlace hothers hlead (only_keepsPlace watched hb hstop)
      ((Elsewhere.refl w).inPlace i)).mono fun r v m h => ⟨h.1, .inl h.2⟩

end Alone

/-! ## Rounds -/

/-- How the run of a list that only goes forward from `start` may come out: it ends, if there is a
word at `start`; it is paused; it stalls; or it fails at the end of the region. -/
def Finishes (start : Address) : Except Failure Outcome → Prop
  | .ok (.ended _) => Memory.isMapped start = true
  | .ok .paused | .ok .stalled => True
  | .error e => e = .memory (.unmapped (Region.past start))

/-- The list at position `i` has gone forward from `start` and has `n` words left to the end of the
region. -/
structure Running (i : Nat) (m : Memory) (start : Address) (w : FrontEnd) (n : Nat) : Prop where
  memory : w.memory = m
  size : i < w.slots.size
  agrees : (w.slot i).Agrees
  since : start.toNat ≤ (w.slot i).pc.toNat
  left : (w.slot i).pc.toNat + 4 * n = (Region.past start).toNat

/-- What is left to be done: the words, and a wake-up that may be pending. -/
def remaining (i : Nat) (w : FrontEnd) (n : Nat) : Nat :=
  2 * n + (w.slot i).wake.pending.toNat

/-- A round leaves less than `rest` to be done, or ends the run. -/
def Forth (i : Nat) (m : Memory) (start : Address) (rest : Nat) :
    Unit ⊕ Except Failure Outcome → FrontEnd → Nat → Prop
  | .inl _, v, k => Running i m start v k ∧ remaining i v k < rest
  | .inr r, _, _ => Finishes start r

section Rounds

variable {others : FrontEnd → FrontEnd → Prop} (hothers : ∀ v u, others v u → Elsewhere v u)
  {w v : FrontEnd} {m : Memory} {start : Address} {word : UInt32}

theorem Running.of_slot (h : Running i m start w n) (hm : v.memory = w.memory)
    (hsize : v.slots.size = w.slots.size) (hpc : (v.slot i).pc = (w.slot i).pc)
    (hf : (v.slot i).fetcher = (w.slot i).fetcher) : Running i m start v n where
  memory := hm.trans h.memory
  size := hsize ▸ h.size
  agrees :=
    { aligned := by rw [hpc]; exact h.agrees.aligned
      cursor := by rw [hpc, hf]; exact h.agrees.cursor
      wanted := by rw [hpc, hf]; exact h.agrees.wanted }
  since := by rw [hpc]; exact h.since
  left := by rw [hpc]; exact h.left

theorem Running.inPlace (h : Running i m start w n) (hv : InPlace i w v) : Running i m start v n :=
  h.of_slot hv.memory hv.size hv.pc hv.fetcher

theorem remaining_inPlace (hv : InPlace i w v) : remaining i v n = remaining i w n := by
  unfold remaining
  rw [hv.wake]

theorem Forth.elsewhere {x : Unit ⊕ Except Failure Outcome} {u : FrontEnd} {k : Nat}
    {rest : Nat} (hu : Elsewhere v u) (h : Forth i m start rest x v k) :
    Forth i m start rest x u k := by
  cases x with
  | inl => exact ⟨h.1.inPlace (hu.inPlace i), (remaining_inPlace (hu.inPlace i)) ▸ h.2⟩
  | inr => exact h

theorem Running.movedOn (h : Running i m start w (n + 1)) (hv : MovedOn i w v)
    (hx : w.memory.readWord (w.slot i).pc = .ok word) : Running i m start v n := by
  obtain ⟨halign, hadd⟩ := Memory.aligned_next h.agrees.aligned
    (Memory.isMapped_of_readWord h.agrees.aligned hx)
  rw [← hv.pc] at halign hadd
  have hsince := h.since
  have hleft := h.left
  refine ⟨hv.memory.trans h.memory, hv.size ▸ h.size, ⟨halign, fun c hc => ?_, fun a hw => ?_⟩,
    by omega, by omega⟩
  · exact Option.some.inj (hc.symm.trans hv.cursor)
  · rw [Fetcher.wanted_of_cursor hv.cursor] at hw
    cases hw

theorem Running.at_end (h : Running i m start w 0) : (w.slot i).pc = Region.past start :=
  UInt32.toNat_inj.1 h.left

theorem Running.mapped (h : Running i m start w (n + 1)) (hstart : Address.aligned start = start) :
    Memory.isMapped start = true ∧ ∃ word, w.memory.readWord (w.slot i).pc = .ok word := by
  have hle := h.since
  have hleft := h.left
  refine ⟨Region.isMapped_of_lt_past hstart hstart (Nat.le_refl _) (by omega), ?_⟩
  have hm := Region.isMapped_of_lt_past hstart h.agrees.aligned hle (by omega)
  unfold Memory.readWord Memory.read
  rw [Memory.readBytes_eq_peek, Memory.spot_word h.agrees.aligned hm]
  exact ⟨_, rfl⟩

include hothers

theorem halts_word (watched : Bool) (hstart : Address.aligned start = start)
    (hm : m.Forward start (Region.past start)) (h : Running i m start w n) :
    Halts others i (Forth i m start (remaining i w n))
      ((Operation.access i .next).bind (dispatch watched i)) w n := by
  refine Halts.bind ?_
  -- Nothing is mapped at the end of the region, and all is before that.
  cases n with
  | zero =>
    have hend := h.at_end
    have hunmapped := (Region.unmapped_past hstart).2.1
    rw [← hend] at hunmapped
    refine (halts_unmapped hothers h.agrees hunmapped).mono fun r v k hr => ?_
    obtain ⟨rfl, -⟩ := hr
    refine halts_done hothers (fun _ _ hu => .elsewhere hu) ?_
    change Failure.memory _ = _
    rw [hend]
  | succ n =>
    obtain ⟨hmapped, word, hx⟩ := h.mapped hstart
    refine (halts_next hothers h.size h.agrees hx).mono fun r v k hr => ?_
    obtain ⟨rfl, hk, hv⟩ := hr
    subst hk
    have hword : m.readWord (w.slot i).pc = .ok word := by rw [← h.memory, hx]
    obtain ⟨hbranches, hstays⟩ := hm _ word h.agrees.aligned (UInt32.le_iff_toNat_le.2 h.since)
      (UInt32.lt_iff_toNat_lt.2 (by have := h.left; omega)) hword
    have hback : (v.slot i).pc - 8 = (w.slot i).pc - 4 := by
      rw [hv.pc]
      grind
    have hrun := h.movedOn hv hx
    refine Halts.bind ((halts_step hothers watched hbranches hv.cursor ?_).mono fun r u j hr => ?_)
    · rw [hv.memory, h.memory, hback]
      exact hstays
    · obtain ⟨rfl, ⟨rfl, hu⟩ | hcloses⟩ := hr
      · refine halts_done hothers (fun _ _ hz => .elsewhere hz) ⟨hrun.inPlace hu, ?_⟩
        unfold remaining
        rw [hu.wake, hv.wake]
        omega
      · match r, hcloses with
        | .ok (some (.ended _)), _ => exact halts_done hothers (fun _ _ hz => .elsewhere hz) hmapped
        | .ok (some .paused), _ => exact halts_done hothers (fun _ _ hz => .elsewhere hz) trivial

theorem halts_stalled (h : Running i m start w n) :
    Halts others i (Forth i m start (remaining i w n))
      (change i (.setStatus .stallReached) >>= fun _ => perform (.await i) >>= waited i) w n := by
  refine halts_perform (a := .change i (.setStatus .stallReached)) id fun v hv => ?_
  have hkeeps : ∀ s, (Action.change i (.setStatus s)).KeepsPlace i := fun s =>
    Action.keepsPlace_change fun _ => ⟨rfl, rfl, rfl⟩
  have hv := ((elsewhere_of hothers hv).inPlace i).act (hkeeps .stallReached)
  refine halts_perform (a := .await i) id fun u hu => ?_
  have hu := hv.trans ((elsewhere_of hothers hu).inPlace i)
  have hrun := h.inPlace hu
  have hslot : ((Action.await i).perform u).2.slot i =
      { u.slot i with wake := (u.slot i).wake.take.2 } :=
    (Action.slot_onSlot ..).trans (by rw [if_pos hrun.size, if_pos rfl])
  have hafter : Running i m start ((Action.await i).perform u).2 n :=
    hrun.of_slot rfl (Action.size_perform ..) (by rw [hslot]) (by rw [hslot])
  change Halts _ _ _ (waited i (u.slot i).wake.pending) _ _
  -- Without a wake-up the run ends here; one that is pending is used up.
  cases hp : (u.slot i).wake.pending with
  | false => exact halts_done hothers (fun _ _ hz => .elsewhere hz) trivial
  | true =>
    have hlead : Leads (· = .inl ()) (waited i true) := by
      intro s
      change Leads _ (if s.isStalled then _ else _)
      split
      · rfl
      · exact fun _ => rfl
    have honly : Only (Action.KeepsPlace i) (waited i true) := by
      refine only_bind only_keepsPlace_look fun s => ?_
      split
      · exact only_pure _
      · exact only_bind (only_perform (hkeeps _)) fun _ => only_pure _
    refine (halts_inPlace hothers hlead honly ((Elsewhere.refl _).inPlace i)).mono
      fun x z k hx => ?_
    obtain ⟨rfl, rfl, hz⟩ := hx
    refine ⟨hafter.inPlace hz, ?_⟩
    rw [remaining_inPlace hz, ← remaining_inPlace hu]
    unfold remaining
    rw [hslot, hp]
    exact Nat.lt_succ_self _

/-- **A round** leaves less to be done, or ends the run. -/
theorem halts_round (watched : Bool) (hstart : Address.aligned start = start)
    (hm : m.Forward start (Region.past start)) (h : Running i m start w n) :
    Halts others i (Forth i m start (remaining i w n)) (round watched i) w n := by
  rw [round_eq]
  refine halts_perform (a := .look i) id fun v hv => ?_
  change Halts _ _ _ (if (v.slot i).flags.paused then _ else unpaused watched i) v n
  have hv := (elsewhere_of hothers hv).inPlace i
  split
  · exact halts_done hothers (fun _ _ hz => .elsewhere hz) trivial
  · refine halts_perform (a := .look i) id fun u hu => ?_
    change Halts _ _ _ (if (u.slot i).isStalled then _ else _) u n
    have hu := hv.trans ((elsewhere_of hothers hu).inPlace i)
    rw [← remaining_inPlace hu]
    split
    · exact halts_stalled hothers (h.inPlace hu)
    · exact halts_word hothers watched hstart hm (h.inPlace hu)

/-- **The run** of a list that only goes forward. -/
theorem halts_execute (watched : Bool) (hreset : (w.slot i).flags.reset = false)
    (h : Running i m (w.slot i).pc w n) (hm : m.Forward (w.slot i).pc (Region.past (w.slot i).pc)) :
    Halts others i (fun r _ _ => Finishes (w.slot i).pc r) (execute watched i) w n := by
  have hrounds : ∀ v, InPlace i w v → Halts others i (fun r _ _ => Finishes (w.slot i).pc r)
      (change i (.setStatus .drawing) >>= fun _ => iterate () fun _ => round watched i) v n := by
    intro v hv
    refine halts_perform (a := .change i (.setStatus .drawing)) id fun u hu => ?_
    have hu := (hv.trans ((elsewhere_of hothers hu).inPlace i)).act
      (a := .change i (.setStatus .drawing)) (Action.keepsPlace_change fun _ => ⟨rfl, rfl, rfl⟩)
    refine halts_iterate (I := fun _ v n => Running i m (w.slot i).pc v n) (remaining i)
      (fun _ _ _ _ _ hQ => hQ) (fun _ v n hv => ?_) () (h.inPlace hu)
    exact (halts_round hothers watched h.agrees.aligned hm hv).mono fun x _ _ hx => by
      cases x with
      | inl => exact hx
      | inr => exact hx
  refine halts_perform (a := .look i) id fun v hv => ?_
  change Halts _ _ _ (if (v.slot i).flags.reset then _ else _) v n
  have hv := elsewhere_of hothers hv
  rw [hv.slot, hreset]
  refine halts_perform (a := .look i) id fun u hu => ?_
  change Halts _ _ _ (if (u.slot i).flags.restarted then _ else _) u n
  have hu := hv.trans (elsewhere_of hothers hu)
  split
  · refine halts_perform (a := .change i (.setRestarted false)) id fun z hz => ?_
    exact hrounds _ (((hu.trans (elsewhere_of hothers hz)).inPlace i).act
      (a := .change i (.setRestarted false)) (Action.keepsPlace_change fun _ => ⟨rfl, rfl, rfl⟩))
  · exact hrounds u (hu.inPlace i)

end Rounds

end Engine

/-! ## The end of the run -/

theorem FrontEnd.lt_size_of_reset {w : FrontEnd} {i : Nat}
    (h : (w.slot i).flags.reset = false) : i < w.slots.size := by
  by_cases hi : i < w.slots.size
  · exact hi
  · rw [w.slot_of_le i (by omega)] at h
    cases h

open Engine

/-- **Lists that only go forward come to an end.** If no word from the instruction address to the
end of its region leads elsewhere, a list whose cursor agrees with its instruction address fetches
at most the words up to there, whatever others do who leave the lists and memory alone. Then it has
ended, is paused, stalls, or fails at the first address past the region. Where nothing is mapped at
the instruction address it fails there at once, unless it is paused or stalls. -/
theorem forward_finishes {others : FrontEnd → FrontEnd → Prop} {i : Nat} {w : FrontEnd}
    (watched : Bool) (hothers : ∀ v u, others v u → Elsewhere v u)
    (hreset : (w.slot i).flags.reset = false) (hagrees : (w.slot i).Agrees)
    (hforward : w.memory.Forward (w.slot i).pc (Region.past (w.slot i).pc)) :
    Halts others i (fun r _ _ => Finishes (w.slot i).pc r) (execute watched i) w
      (Region.wordsLeft (w.slot i).pc) ∧
    (∀ t q u, Goes others (execute watched i) w t q u →
      (fetched i t).length ≤ Region.wordsLeft (w.slot i).pc ∧ Returns q u ∧
        ∀ r, q = .done r → Finishes (w.slot i).pc r) ∧
    (Memory.isMapped (w.slot i).pc = false → ∀ t q u, Goes others (execute watched i) w t q u →
      fetched i t = [] ∧ ∀ r, q = .done r → r = .error (.memory (.unmapped (w.slot i).pc)) ∨
        r = .ok .paused ∨ r = .ok .stalled) := by
  obtain ⟨halign, -, hle⟩ := Region.unmapped_past hagrees.aligned
  have hwords : (w.slot i).pc.toNat + 4 * Region.wordsLeft (w.slot i).pc =
      (Region.past (w.slot i).pc).toNat := by
    have hpc := (Address.aligned_eq_iff.1 hagrees.aligned).1
    have hpast := (Address.aligned_eq_iff.1 halign).1
    unfold Region.wordsLeft
    omega
  have hhalts := halts_execute hothers watched hreset
    ⟨rfl, FrontEnd.lt_size_of_reset hreset, hagrees, Nat.le_refl _, hwords⟩ hforward
  have hgoes : ∀ t q u, Goes others (execute watched i) w t q u →
      (fetched i t).length ≤ Region.wordsLeft (w.slot i).pc ∧ Returns q u ∧
        ∀ r, q = .done r → Finishes (w.slot i).pc r := fun t q u hg => by
    obtain ⟨hlen, hrest⟩ := hhalts.goes hg
    refine ⟨hlen, hrest.returns, fun r hr => ?_⟩
    subst hr
    exact hrest.result
  refine ⟨hhalts, hgoes, fun hm t q u hg => ?_⟩
  obtain ⟨hlen, -, hresult⟩ := hgoes t q u hg
  have hpast := Region.past_of_unmapped hm
  refine ⟨?_, fun r hr => ?_⟩
  · rw [Region.wordsLeft, hpast, Nat.sub_self] at hlen
    exact List.length_eq_zero_iff.1 (Nat.le_zero.1 hlen)
  · have hr := hresult r hr
    match r with
    | .error e =>
      have he : e = .memory (.unmapped (Region.past (w.slot i).pc)) := hr
      exact .inl (by rw [he, hpast])
    | .ok (.ended b) => exact absurd (hm.symm.trans hr) (by decide)
    | .ok .paused => exact .inr (.inl rfl)
    | .ok .stalled => exact .inr (.inr rfl)

/-- A list at the end of a region: a FINISH word, and a SIGNAL word that asks for no transfer before
the END word. -/
def lastWords : List UInt32 :=
  [0x01000000, 0x0F000000, signalWord 0x01 0, endWord 0]

/-- The list before it runs. -/
def atLastWords : FrontEnd :=
  let stored := ((Action.write 0x00013FF0 lastWords).perform (Replay.frontEnd {})).2
  ((Action.change 0 (.init ⟨0x00013FF0, 0, 0, none⟩)).perform stored).2

theorem read_atLastWords (k : Fin 4) :
    atLastWords.memory.readWord (0x00013FF0 + 4 * k.val.toUInt32) = .ok lastWords[k] := by
  have hwrite : Memory.empty.writeWords 0x00013FF0 lastWords =
      .ok (Memory.empty.pokeAll 0x00013FF0 (lastWords.flatMap Word.bytes)) := by
    have hspot : Memory.spot 0x00013FF0 (lastWords.flatMap Word.bytes).length = .ok 0x00013FF0 := rfl
    rw [Memory.writeWords, Memory.writeBytes_eq_pokeAll, hspot]
    rfl
  have hmemory : atLastWords.memory =
      Memory.empty.pokeAll 0x00013FF0 (lastWords.flatMap Word.bytes) := by
    rw [atLastWords, Action.perform_write_ok (w := Replay.frontEnd {}) hwrite]
    rfl
  have hword : atLastWords.memory.Holds (0x00013FF0 + 4 * k.val) (Word.bytes lastWords[k]) := by
    rw [hmemory]
    exact (Memory.holds_pokeAll Memory.empty ⟨.scratchpad, by decide, by decide⟩).word k.isLt
  have hplace : ∀ k : Fin 4, (0x00013FF0 + 4 * k.val.toUInt32).toNat = 0x00013FF0 + 4 * k.val ∧
      Address.aligned (0x00013FF0 + 4 * k.val.toUInt32) = 0x00013FF0 + 4 * k.val.toUInt32 ∧
      Memory.isMapped (0x00013FF0 + 4 * k.val.toUInt32) = true := by decide
  obtain ⟨haddress, haligned, hmapped⟩ := hplace k
  rw [← haddress] at hword
  exact hword.readWord haligned hmapped

theorem forward_atLastWords : atLastWords.memory.Forward 0x00013FF0 0x00014000 := by
  intro a word ha hle hlt hx
  obtain ⟨k, rfl⟩ : ∃ k : Fin 4, a = 0x00013FF0 + 4 * k.val.toUInt32 := by
    have hmod := (Address.aligned_eq_iff.1 ha).1
    have hle := UInt32.le_iff_toNat_le.1 hle
    have hlt := UInt32.lt_iff_toNat_lt.1 hlt
    simp only [UInt32.reduceToNat] at hle hlt
    obtain h | h | h | h : a.toNat = 0x13FF0 ∨ a.toNat = 0x13FF4 ∨ a.toNat = 0x13FF8 ∨
      a.toNat = 0x13FFC := by omega
    · exact ⟨0, UInt32.toNat_inj.1 h⟩
    · exact ⟨1, UInt32.toNat_inj.1 h⟩
    · exact ⟨2, UInt32.toNat_inj.1 h⟩
    · exact ⟨3, UInt32.toNat_inj.1 h⟩
  rw [read_atLastWords] at hx
  cases hx
  match k with
  | 0 => exact ⟨id, fun _ _ _ _ hstop => by cases hstop⟩
  | 1 => exact ⟨id, fun _ _ _ _ hstop => by cases hstop⟩
  | 2 => exact ⟨id, fun _ _ _ _ hstop => by cases hstop⟩
  | 3 =>
    refine ⟨id, fun arg before behavior number _ hbefore hsignal => ?_⟩
    have h := (read_atLastWords 2).symm.trans hbefore
    cases h
    cases hsignal
    exact .inl rfl

theorem forward_finishes_atLastWords :
    (atLastWords.slot 0).flags.reset = false ∧ (atLastWords.slot 0).Agrees ∧
    atLastWords.memory.Forward (atLastWords.slot 0).pc (Region.past (atLastWords.slot 0).pc) ∧
    ∀ t q u, Goes Elsewhere (execute true 0) atLastWords t q u →
      (fetched 0 t).length ≤ 4 ∧ Returns q u ∧ ∀ r, q = .done r → Finishes 0x00013FF0 r := by
  have hpc : (atLastWords.slot 0).pc = 0x00013FF0 := by decide +kernel
  have hreset : (atLastWords.slot 0).flags.reset = false := by decide +kernel
  have hagrees : (atLastWords.slot 0).Agrees := by
    unfold atLastWords
    rw [Action.slot_perform, if_pos (by decide +kernel), Action.onto_change, if_pos rfl]
    exact Slot.agrees_init _ _
  have hforward : atLastWords.memory.Forward (atLastWords.slot 0).pc
      (Region.past (atLastWords.slot 0).pc) := by
    rw [hpc]
    exact forward_atLastWords
  refine ⟨hreset, hagrees, hforward, ?_⟩
  -- The others do whatever they may.
  have h := (forward_finishes true (fun v u (h : Elsewhere v u) => h) hreset hagrees hforward).2.1
  rw [hpc] at h
  exact h

end DisplayList

import DisplayList.Proofs.Ahead
import DisplayList.Proofs.Transferring

/-!
# Looking back

A look at the word before the one fetched last moves the cursor back, reads, and moves the cursor
to where it was. What it may leave behind is a cursor that had to be found for it. A list that has
its cursor sooner than it would have had does all that is asked of it as before; only another look
back may tell, at an address that is not mapped, where no cursor would be found.

* `Twins`, **`twins_serve`**: what comes to the same for one who has found cursors sooner;
* **`twins_next`**, `twins_previous`, `Astray`: fetches, and looks back, which may go astray;
* **`ahead_peek`**, **`ahead_course`**: looks back put in between the requests of a session;
* **`peeking_shows_only_astray`**: they show in nothing but looks back that go astray.
-/

namespace DisplayList

/-! ## Processes -/

namespace Process

variable {α β : Type} {i : Nat} {v w u : FrontEnd}

/-- Run alone by one who is ahead and by one who is not, the process comes to the same. -/
def Twins (p : Process α) : Prop :=
  ∀ v w, v.Ahead w → ∃ r v' w', Gives p v r v' ∧ Gives p w r w' ∧ v'.Ahead w'

theorem twins_pure (a : α) : Twins (pure a : Process α) :=
  fun v w h => ⟨a, v, w, gives_done a v, gives_done a w, h⟩

theorem twins_bind {p : Process β} {f : β → Process α} (hp : Twins p) (hf : ∀ b, Twins (f b)) :
    Twins (p >>= f) := by
  intro v w h
  obtain ⟨b, v₁, w₁, hv, hw, h₁⟩ := hp v w h
  obtain ⟨r, v₂, w₂, hv', hw', h₂⟩ := hf b v₁ w₁ h₁
  exact ⟨r, v₂, w₂, hv.bind hv', hw.bind hw', h₂⟩

theorem twins_ite {c : Prop} [Decidable c] {p q : Process α} (hp : Twins p) (hq : Twins q) :
    Twins (if c then p else q) := by
  split
  · exact hp
  · exact hq

theorem gives_perform (a : Action) (w : FrontEnd) :
    Gives (perform a) w (a.perform w).1 (a.perform w).2 :=
  ⟨_, .act (.stay ..)⟩

theorem twins_perform {a : Action} (ha : a.Deaf) : Twins (perform a) := by
  intro v w h
  obtain ⟨hr, hs⟩ := Action.ahead_perform h ha
  exact ⟨_, _, _, gives_perform a v, hr ▸ gives_perform a w, hs⟩

theorem twins_change (c : Change) : Twins (change i c) :=
  twins_perform trivial

theorem twins_look {f : Slot → Process α} (hf : ∀ s s' : Slot, s'.bare = s.bare → f s' = f s)
    (h : ∀ s, Twins (f s)) : Twins (look i >>= f) := by
  intro v w hvw
  obtain ⟨r, v', w', hv, hw, hvw'⟩ := h (v.slot i) v w hvw
  rw [← hf (v.slot i) (w.slot i) (hvw.slots i).bare] at hw
  exact ⟨r, v', w', hv.perform (a := .look i), hw.perform (a := .look i), hvw'⟩

theorem twins_tell (r : Report) : Twins (tell r) :=
  fun _ _ h => ⟨(), _, _, ⟨_, .report (.stay ..)⟩, ⟨_, .report (.stay ..)⟩, h.tell r⟩

theorem twins_setHost {f : Host → Host}
    (hf : ∀ h, { f h with onCursor := [] } = { f { h with onCursor := [] } with onCursor := [] }) :
    Twins (perform (.setHost f)) := by
  intro v w h
  have hdeaf : ∀ x : FrontEnd, FrontEnd.deaf { x with host := f x.host } =
      { x.deaf with host := { f x.deaf.host with onCursor := [] } } := by
    intro x
    unfold FrontEnd.deaf
    dsimp only
    rw [hf]
  refine ⟨(), _, _, ⟨_, .act (.stay ..)⟩, ⟨_, .act (.stay ..)⟩, ?_, h.size, h.slots⟩
  change FrontEnd.deaf { w with host := f w.host } = FrontEnd.deaf { v with host := f v.host }
  rw [hdeaf, hdeaf, h.deaf]

/-! ## Accesses -/

open Operation

section Access

variable {a : Slot.Access} {x : Address}

/-- **An access through the cursor at hand.** -/
theorem gives_at_hand (h : (w.slot i).fetcher.wanted (w.slot i).pc = none) :
    Gives (access i a) w ((w.slot i).access w.memory a).1
      (w.setSlot i ((w.slot i).access w.memory a).2) := by
  have htry : (w.slot i).tryAccess w.memory a =
      (.inr ((w.slot i).access w.memory a).1, ((w.slot i).access w.memory a).2) := by
    unfold Slot.tryAccess
    rw [h]
  refine ⟨[.act (.access i a) w], .loop (.act ?_)⟩
  rw [perform_access htry]
  exact .stay ..

theorem gives_seek {r : Except Failure a.Answer}
    (h : (w.slot i).fetcher.wanted (w.slot i).pc = some x)
    (hs : Gives ((found i a x (Cursor.openAt x 4)).bind (again i a)) (w.tell (.cursor x 4)).2 r u) :
    Gives (access i a) w r u := by
  have htry : (w.slot i).tryAccess w.memory a = (.inl x, w.slot i) := by
    unfold Slot.tryAccess
    rw [h]
  have hp := perform_access htry
  rw [FrontEnd.setSlot_slot] at hp
  obtain ⟨t, hs⟩ := hs
  refine ⟨.act (.access i a) w :: .report (.cursor x 4) w :: t, .loop (.act ?_)⟩
  rw [hp]
  exact .report hs

/-- **An access that finds no cursor.** -/
theorem gives_unmapped {f : Memory.Fault} (h : (w.slot i).fetcher.wanted (w.slot i).pc = some x)
    (hx : Cursor.openAt x 4 = .error f) :
    Gives (access i a) w (.error (.memory f)) (w.tell (.cursor x 4)).2 := by
  refine gives_seek h ?_
  rw [hx]
  exact ⟨_, .stay ..⟩

/-- **An access that finds its cursor first.** -/
theorem gives_found {c : Cursor} (h : (w.slot i).fetcher.wanted (w.slot i).pc = some x)
    (hx : Cursor.openAt x 4 = .ok c) :
    Gives (access i a) w (((w.slot i).equip c).access w.memory a).1
      ((w.tell (.cursor x 4)).2.setSlot i (((w.slot i).equip c).access w.memory a).2) := by
  refine gives_seek h ?_
  have hmemory : (w.tell (.cursor x 4)).2.memory = w.memory := by
    obtain ⟨host, journal, hw⟩ := w.tell_frame (.cursor x 4)
    rw [hw]
  have hwith : ((w.tell (.cursor x 4)).2.slot i).accessWith (w.tell (.cursor x 4)).2.memory x c a =
      (some (((w.slot i).equip c).access w.memory a).1,
        (((w.slot i).equip c).access w.memory a).2) := by
    rw [FrontEnd.slot_tell, hmemory]
    exact Slot.accessWith_wanted h
  rw [hx]
  refine ⟨[.act (.accessWith i x c a) (w.tell (.cursor x 4)).2], .act ?_⟩
  rw [perform_accessWith hwith]
  exact .stay ..

end Access

/-- The list at position `i` is at an address that is not mapped, and wants a cursor there; in `w` it
has one, found before it came there. -/
structure Stranded (i : Nat) (v w : FrontEnd) : Prop where
  unmapped : Memory.isMapped (v.slot i).pc = false
  wanted : (v.slot i).fetcher.wanted (v.slot i).pc = some (v.slot i).pc
  cursor : (w.slot i).fetcher.source = .own ⟨(v.slot i).pc, .word⟩

/-- **An access** by one who is ahead, and by one who is not, comes to the same unless no cursor can
be found any more. -/
theorem twins_access_or (h : v.Ahead w) (i : Nat) (a : Slot.Access) :
    (∃ r v' w', Gives (access i a) v r v' ∧ Gives (access i a) w r w' ∧ v'.Ahead w') ∨
      Stranded i v w := by
  have hs := h.slots i
  have hpc : (w.slot i).pc = (v.slot i).pc := (congrArg Slot.pc hs.rest :)
  have hsame : (w.slot i).fetcher.source = (v.slot i).fetcher.source →
      (w.slot i).fetcher.wanted (w.slot i).pc = (v.slot i).fetcher.wanted (v.slot i).pc := by
    intro he
    unfold Fetcher.wanted
    rw [he, hs.fetcher.window, hpc]
  cases hv : (v.slot i).fetcher.wanted (v.slot i).pc with
  | none =>
    obtain ⟨c, hc⟩ := Fetcher.cursor_of_wanted hv
    have he := hs.fetcher.cursor hc
    obtain ⟨hr, ha⟩ := hs.access he v.memory a
    have hw := gives_at_hand (a := a) ((hsame he).trans hv)
    rw [h.memory, hr] at hw
    exact .inl ⟨_, _, _, gives_at_hand hv, hw, h.setSlot i ha⟩
  | some x =>
    obtain rfl := hs.placed.wanted hv
    cases hopen : Cursor.openAt (v.slot i).pc 4 with
    | error f =>
      rcases hs.fetcher.source with he | ⟨-, he⟩
      · exact .inl ⟨_, _, _, gives_unmapped hv hopen,
          gives_unmapped ((hsame he).trans hv) hopen, h.tell _⟩
      · exact .inr ⟨(Cursor.openAt_error hs.placed.pc hopen).2, hv, he⟩
    | ok c =>
      obtain ⟨rfl, -⟩ := Cursor.openAt_eq hs.placed.pc hopen
      have hresolved := hs.equip ⟨(v.slot i).pc, .word⟩
      rcases hs.fetcher.source with he | ⟨-, he⟩
      · obtain ⟨hr, ha⟩ := hresolved.access rfl v.memory a
        have hw := gives_found (a := a) ((hsame he).trans hv) hopen
        rw [h.memory, hr] at hw
        exact .inl ⟨_, _, _, gives_found hv hopen, hw, (h.tell _).setSlot i ha⟩
      · -- The cursor that is found in one is at hand in the other.
        have hahead : ((v.slot i).equip ⟨(v.slot i).pc, .word⟩).Ahead (w.slot i) :=
          ⟨hresolved.placed, hs.rest, hs.fetcher.window, .inl he⟩
        obtain ⟨hr, ha⟩ := hahead.access he v.memory a
        have hwanted : (w.slot i).fetcher.wanted (w.slot i).pc = none := by
          unfold Fetcher.wanted
          rw [he]
        have hw := gives_at_hand (a := a) hwanted
        rw [h.memory, hr] at hw
        exact .inl ⟨_, _, _, gives_found hv hopen, hw, (h.looked _ 4).1.setSlot i ha⟩

/-- Where no cursor can be found any more, an access fails; through the cursor at hand it does what
it can, and in neither case does it change the list. -/
theorem Stranded.gives (hb : Stranded i v w) (h : v.Ahead w) {a : Slot.Access}
    (ha : ((w.slot i).access w.memory a).2 = w.slot i) :
    Gives (access i a) v (.error (.memory (.unmapped (v.slot i).pc)))
        (v.tell (.cursor (v.slot i).pc 4)).2 ∧
      Gives (access i a) w ((w.slot i).access w.memory a).1 w := by
  have hopen : Cursor.openAt (v.slot i).pc 4 = .error (.unmapped (v.slot i).pc) := by
    cases ho : Cursor.openAt (v.slot i).pc 4 with
    | error f => rw [(Cursor.openAt_error (h.slots i).placed.pc ho).1]
    | ok c =>
      have hmapped := (Cursor.openAt_eq (h.slots i).placed.pc ho).2
      rw [hb.unmapped] at hmapped
      cases hmapped
  have hwanted : (w.slot i).fetcher.wanted (w.slot i).pc = none := by
    unfold Fetcher.wanted
    rw [hb.cursor]
  have hw := gives_at_hand (a := a) hwanted
  rw [ha, FrontEnd.setSlot_slot] at hw
  exact ⟨gives_unmapped hb.wanted hopen, hw⟩

/-- **A fetch** is the same either way: there is nothing to be read where no cursor is found. -/
theorem twins_next : Twins (access i .next) := by
  intro v w h
  rcases twins_access_or h i .next with hsame | hb
  · exact hsame
  have hunmapped := Memory.readWord_unmapped v.memory (h.slots i).placed.pc hb.unmapped
  have hcursor : (w.slot i).fetcher.cursor? = some ⟨(v.slot i).pc, .word⟩ := by
    unfold Fetcher.cursor?
    rw [hb.cursor]
  have hnext : (w.slot i).access w.memory .next =
      (.error (.memory (.unmapped (v.slot i).pc)), w.slot i) := by
    unfold Slot.access
    rw [hcursor, h.memory]
    dsimp only
    rw [Slot.read_at, hunmapped]
    rfl
  obtain ⟨hv, hw⟩ := hb.gives h (a := .next) (by rw [hnext])
  rw [hnext] at hw
  exact ⟨_, _, _, hv, hw, (h.looked _ 4).1⟩

/-- The answer `r'` to a look back is not the answer `r` that it has where no cursor was found at the
address of the list before it came to be there: no cursor is found now. -/
structure Astray (i : Nat) (v : FrontEnd) (r r' : Except Failure UInt32) : Prop where
  unmapped : Memory.isMapped (v.slot i).pc = false
  wanted : (v.slot i).fetcher.wanted (v.slot i).pc = some (v.slot i).pc
  answer : r = .error (.memory (.unmapped (v.slot i).pc))
  other : r' = (v.memory.readWord ((v.slot i).pc - 8)).mapError .memory

/-- **A look back** is the same either way, unless it goes astray. -/
theorem twins_previous (h : v.Ahead w) (i : Nat) : ∃ r r' v' w',
    Gives (access i .previous) v r v' ∧ Gives (access i .previous) w r' w' ∧ v'.Ahead w' ∧
      (r' = r ∨ Astray i v r r') := by
  rcases twins_access_or h i .previous with ⟨r, v', w', hv, hw, h'⟩ | hb
  · exact ⟨r, r, v', w', hv, hw, h', .inl rfl⟩
  have hpc : (w.slot i).pc = (v.slot i).pc := (congrArg Slot.pc (h.slots i).rest :)
  have hcursor : (w.slot i).fetcher.cursor? = some ⟨(w.slot i).pc, .word⟩ := by
    unfold Fetcher.cursor?
    rw [hb.cursor, hpc]
  have hprevious := Slot.access_previous_at (m := w.memory) hcursor
  obtain ⟨hv, hw⟩ := hb.gives h (a := .previous) (by rw [Slot.access_previous])
  rw [hprevious, hpc, h.memory] at hw
  exact ⟨_, _, _, _, hv, hw, (h.looked _ 4).1, .inr ⟨hb.unmapped, hb.wanted, rfl, rfl⟩⟩

/-- **A look back by itself** leaves everything as it was but the fetcher of the list, and that too if
it has a cursor at hand. -/
theorem gives_peek (v : FrontEnd) (i : Nat) : ∃ r u, Gives (access i .previous) v r u ∧
    u.deaf = v.deaf ∧ (∀ j, (u.slot j).bare = (v.slot j).bare) ∧
      ∀ c, (v.slot i).fetcher.cursor? = some c → u = v := by
  cases hw : (v.slot i).fetcher.wanted (v.slot i).pc with
  | none =>
    have hg := gives_at_hand (a := .previous) hw
    rw [Slot.access_previous, FrontEnd.setSlot_slot] at hg
    exact ⟨_, v, hg, rfl, fun _ => rfl, fun _ _ => rfl⟩
  | some x =>
    have hnone : ∀ c, (v.slot i).fetcher.cursor? ≠ some c := by
      intro c hc
      rw [Fetcher.wanted_of_cursor hc] at hw
      cases hw
    cases hopen : Cursor.openAt x 4 with
    | error f =>
      refine ⟨_, _, gives_unmapped hw hopen, FrontEnd.deaf_tell_cursor .., fun j => ?_,
        fun c hc => absurd hc (hnone c)⟩
      rw [FrontEnd.slot_tell]
    | ok c =>
      have hg := gives_found (a := .previous) hw hopen
      rw [Slot.access_previous] at hg
      refine ⟨_, _, hg, FrontEnd.deaf_tell_cursor .., fun j => ?_,
        fun c hc => absurd hc (hnone c)⟩
      rw [FrontEnd.slot_setSlot]
      split
      next hj =>
        rw [hj.1]
        rfl
      next => rw [FrontEnd.slot_tell]

/-- **A look back put in between** leaves everybody ahead who was. -/
theorem ahead_peek (h : v.Ahead w) (i : Nat) :
    ∃ r w', Gives (access i .previous) w r w' ∧ v.Ahead w' := by
  have hs := h.slots i
  have hpc : (w.slot i).pc = (v.slot i).pc := (congrArg Slot.pc hs.rest :)
  cases hw : (w.slot i).fetcher.wanted (w.slot i).pc with
  | none =>
    have hg := gives_at_hand (a := .previous) hw
    rw [Slot.access_previous, FrontEnd.setSlot_slot] at hg
    exact ⟨_, w, hg, h⟩
  | some x =>
    -- The list wants a cursor in both.
    have he : (w.slot i).fetcher.source = (v.slot i).fetcher.source := by
      refine hs.fetcher.source.resolve_right fun ⟨_, he⟩ => ?_
      unfold Fetcher.wanted at hw
      rw [he] at hw
      cases hw
    have hv : (v.slot i).fetcher.wanted (v.slot i).pc = some x := by
      rw [← hw]
      unfold Fetcher.wanted
      rw [he, hs.fetcher.window, hpc]
    obtain rfl := hs.placed.wanted hv
    cases hopen : Cursor.openAt (v.slot i).pc 4 with
    | error f => exact ⟨_, _, gives_unmapped hw hopen, (h.looked _ 4).2⟩
    | ok c =>
      obtain ⟨rfl, -⟩ := Cursor.openAt_eq hs.placed.pc hopen
      have hg := gives_found (a := .previous) hw hopen
      rw [Slot.access_previous] at hg
      refine ⟨_, _, hg, ?_⟩
      have hahead : (v.slot i).Ahead ((w.slot i).equip ⟨(v.slot i).pc, .word⟩) := by
        refine ⟨hs.placed, ?_, hs.fetcher.window, .inr ⟨hv, rfl⟩⟩
        exact congrArg (fun s : Slot => s.equip ⟨(v.slot i).pc, .word⟩) hs.rest
      have hset := (h.looked (v.slot i).pc 4).2.setSlot i hahead
      rw [FrontEnd.setSlot_slot] at hset
      exact hset

/-! ## Requests -/

theorem twins_reset : Twins (Operation.reset i) :=
  twins_bind (twins_change _) fun _ => twins_perform trivial

theorem twins_start (p : Placement) : Twins (Operation.start i p) := by
  refine twins_bind (twins_change _) fun _ => twins_bind (twins_perform trivial) fun _ =>
    twins_bind (twins_perform trivial) fun _ => ?_
  cases p with
  | tail => exact twins_change _
  | head => exact twins_pure _

theorem twins_restart : Twins (Operation.restart i) :=
  twins_bind (twins_change _) fun _ => twins_bind (twins_change _) fun _ =>
    twins_bind (twins_change _) fun _ => twins_perform trivial

theorem twins_finish : Twins (Operation.finish i) :=
  twins_bind (twins_change _) fun _ => twins_perform trivial

theorem twins_endList : Twins (Operation.endList i) := by
  refine twins_look (fun s s' h => ?_) fun _ => twins_change _
  rw [show s'.flags = s.flags from (congrArg Slot.flags h :)]

theorem twins_stallMoved : Twins (Operation.stallMoved i) :=
  twins_bind (twins_perform trivial) fun _ => twins_change _

theorem twins_setStall (a : Address) : Twins (Operation.setStall i a) :=
  twins_bind (twins_change _) fun _ => twins_ite twins_stallMoved (twins_pure _)

theorem twins_setStallWith (a : Address) (w : Window) : Twins (Operation.setStallWith i a w) :=
  twins_bind (twins_change _) fun _ => twins_ite twins_stallMoved (twins_pure _)

theorem twins_jump (mode : Mode) (arg : UInt32) : Twins (Operation.jump i mode arg) :=
  twins_bind (twins_perform trivial) fun _ => twins_change _

theorem twins_call (mode : Mode) (arg : UInt32) : Twins (Operation.call i mode arg) :=
  twins_bind (twins_perform trivial) fun _ => twins_change _

theorem twins_ret : Twins (Operation.ret i) := by
  refine twins_bind (twins_change .ret) fun r => ?_
  cases r with
  | none => exact twins_pure _
  | some offset => exact twins_bind (twins_perform trivial) fun _ => twins_perform trivial

theorem twins_signalCallback (list : Nat) (behavior signal : UInt32) :
    Twins (Operation.signalCallback i list behavior signal) := by
  refine twins_look (fun s s' h => ?_) fun _ =>
    twins_bind (twins_perform trivial) fun _ => twins_tell _
  rw [show s'.callbackId = s.callbackId from (congrArg Slot.callbackId h :),
    show s'.pc = s.pc from (congrArg Slot.pc h :)]

theorem twins_finishCallback (list : Nat) (arg : UInt32) :
    Twins (Operation.finishCallback i list arg) := by
  refine twins_look (fun s s' h => ?_) fun _ =>
    twins_bind (twins_perform trivial) fun _ => twins_tell _
  rw [show s'.callbackId = s.callbackId from (congrArg Slot.callbackId h :),
    show s'.pc = s.pc from (congrArg Slot.pc h :)]

theorem twins_thenUnit {p : Process Unit} (h : Twins p) : Twins p.thenUnit :=
  twins_bind h fun _ => twins_pure _

theorem twins_withCursor (plan : CursorPlan) {f : Cursor → Process Unit}
    (hf : ∀ c, Twins (f c)) : Twins (Request.withCursor plan f) := by
  unfold Request.withCursor
  split
  · exact twins_pure _
  · exact twins_thenUnit (hf _)

theorem twins_read (f : Slot → Reply) (hf : ∀ s s' : Slot, s'.bare = s.bare → f s' = f s) :
    Twins (look i >>= fun s => pure (f s)) :=
  twins_look (fun s s' h => by rw [hf s s' h]) fun _ => twins_pure _

end Process

/-- What is asked of a list, other than to look back or to move its cursor by hand; or of what
serves the lists. The pool as a whole and the engine are left out. -/
def Request.Single : Request → Prop
  | submit .. | pool | resetAll | run _ | execute _ => False
  | access _ a => a = .next
  | _ => True

namespace Process

/-- **What is asked of a list** has the same answer either way. -/
theorem twins_serve {r : Request} (hr : r.Single) : Twins r.serve := by
  cases r with
  | submit | pool | resetAll | run | execute => exact hr.elim
  | write a ws =>
    refine twins_bind (twins_perform trivial) fun r => ?_
    split <;> exact twins_pure _
  | poolSlot i =>
    exact twins_bind (twins_perform trivial) fun _ =>
      twins_ite (twins_read _ fun s s' h => congrArg (fun s => Reply.id s.id) h) (twins_pure _)
  | dequeue =>
    refine twins_bind (twins_perform trivial) fun next => ?_
    cases next with
    | none => exact twins_pure _
    | some i => exact twins_read _ fun s s' h => congrArg (fun s => Reply.id s.id) h
  | route external | router | services =>
    exact twins_bind (twins_perform trivial) fun _ =>
      twins_bind (twins_perform trivial) fun _ => twins_pure _
  | reset i => exact twins_thenUnit twins_reset
  | jump i mode arg => exact twins_thenUnit (twins_jump mode arg)
  | call i mode arg => exact twins_bind (twins_call mode arg) fun _ => twins_pure _
  | ret i => exact twins_thenUnit twins_ret
  | setStall i a => exact twins_thenUnit (twins_setStall a)
  | setStallWith i a plan lo hi => exact twins_withCursor plan fun c => twins_setStallWith a _
  | useCursor i plan => exact twins_withCursor plan fun c => twins_change _
  | waitSignalled i longEnough =>
    refine twins_bind (twins_perform trivial) fun woken => twins_ite ?_ ?_
    · exact twins_bind (twins_change _) fun _ => twins_pure _
    · refine twins_bind (twins_change _) fun _ => ?_
      cases longEnough with
      | true => exact twins_bind (twins_perform (a := .await i) trivial) fun _ => twins_pure _
      | false => exact twins_pure _
  | start i p => exact twins_thenUnit (twins_start p)
  | restart i => exact twins_thenUnit twins_restart
  | finish i => exact twins_thenUnit twins_finish
  | endList i => exact twins_thenUnit twins_endList
  | signalCallback i list behavior payload => exact twins_thenUnit (twins_signalCallback _ _ _)
  | finishCallback i list arg => exact twins_thenUnit (twins_finishCallback _ _)
  | access i a =>
    cases hr
    exact twins_bind twins_next fun _ => twins_pure _
  | isInUse i list stack =>
    exact twins_read _ fun s s' h => congrArg (fun s => Reply.bool (s.isInUse list stack)) h
  | status i =>
    refine twins_look (fun s s' h => ?_) fun _ => twins_look (fun s s' h => ?_) fun _ =>
      twins_read _ fun s s' h => congrArg (fun s => Reply.status _ _ s.pc) h
    · rw [show s'.status = s.status from (congrArg Slot.status h :)]
    · rw [show s'.reported = s.reported from (congrArg Slot.reported h :)]
  | text i => exact twins_read _ fun s s' h => congrArg (fun s => Reply.text s.text) h
  | diagnostic i => exact twins_read _ fun s s' h => congrArg (fun s => Reply.text s.diagnostic) h
  | expect | onCommand | onCallback | onCursor =>
    exact twins_thenUnit (twins_setHost fun _ => rfl)
  | _ => exact twins_bind (twins_perform trivial) fun _ => twins_pure _

/-! ## Sessions -/

/-- A request that was carried out: where, and with what answer. -/
structure Asked where
  before : FrontEnd
  request : Request
  reply : Reply

/-- `Course w session asked u`: from `w` the session leads to `u`, where each number stands for a
look back at that list, whose answer does not matter, and the requests were those `asked`. -/
inductive Course : FrontEnd → List (Nat ⊕ Request) → List Asked → FrontEnd → Prop
  | nil (w : FrontEnd) : Course w [] [] w
  | peek {w v u : FrontEnd} {i : Nat} {reply : Reply} {session : List (Nat ⊕ Request)}
    {asked : List Asked} : Gives (Request.access i .previous).serve w reply v →
    Course v session asked u → Course w (.inl i :: session) asked u
  | ask {w v u : FrontEnd} {r : Request} {reply : Reply} {session : List (Nat ⊕ Request)}
    {asked : List Asked} : Gives r.serve w reply v → Course v session asked u →
    Course w (.inr r :: session) (⟨w, r, reply⟩ :: asked) u

/-- The request was carried out twice and had the same answer; or it was a look back and went
astray. -/
structure Asked.Same (x y : Asked) : Prop where
  request : y.request = x.request
  reply : y.reply = x.reply ∨ ∃ i r r', x.request = .access i .previous ∧
    x.reply = .ofExcept .word r ∧ y.reply = .ofExcept .word r' ∧ Astray i x.before r r'

/-- **One request**, by one who is ahead and by one who is not. -/
theorem ahead_serve (h : v.Ahead w) {r : Request}
    (hr : r.Single ∨ ∃ i, r = .access i .previous) : ∃ reply reply' v' w',
      Gives r.serve v reply v' ∧ Gives r.serve w reply' w' ∧ v'.Ahead w' ∧
        Asked.Same ⟨v, r, reply⟩ ⟨w, r, reply'⟩ := by
  rcases hr with hr | ⟨i, rfl⟩
  · obtain ⟨reply, v', w', hv, hw, h'⟩ := twins_serve hr v w h
    exact ⟨reply, reply, v', w', hv, hw, h', rfl, .inl rfl⟩
  · obtain ⟨r, r', v', w', hv, hw, h', hsame⟩ := twins_previous h i
    refine ⟨_, _, v', w', hv.bind (gives_done _ _), hw.bind (gives_done _ _), h', rfl, ?_⟩
    exact hsame.imp (congrArg (Reply.ofExcept Reply.word)) fun hastray => ⟨i, r, r', rfl, rfl, rfl, hastray⟩

/-- **A session with looks back put in**, by one who is ahead of one who does without them. -/
theorem ahead_course {session : List (Nat ⊕ Request)}
    (hs : ∀ r, .inr r ∈ session → r.Single ∨ ∃ i, r = .access i .previous) (h : v.Ahead w) :
    ∃ xs v' ys w', Course v (session.filter Sum.isRight) xs v' ∧ Course w session ys w' ∧
      v'.Ahead w' ∧ List.Forall₂ Asked.Same xs ys := by
  induction session generalizing v w with
  | nil => exact ⟨[], v, [], w, .nil v, .nil w, h, .nil⟩
  | cons x session ih =>
    have hrest : ∀ r, .inr r ∈ session → r.Single ∨ ∃ i, r = .access i .previous :=
      fun r hr => hs r (List.mem_cons_of_mem x hr)
    cases x with
    | inl i =>
      obtain ⟨r, w', hpeek, h'⟩ := ahead_peek h i
      obtain ⟨xs, v₂, ys, w₂, hxs, hys, h₂, hsame⟩ := ih hrest h'
      exact ⟨xs, v₂, ys, w₂, hxs, .peek (hpeek.bind (gives_done _ _)) hys, h₂, hsame⟩
    | inr r =>
      obtain ⟨reply, reply', v', w', hv, hw, h', hone⟩ := ahead_serve h (hs r (by simp))
      obtain ⟨xs, v₂, ys, w₂, hxs, hys, h₂, hsame⟩ := ih hrest h'
      exact ⟨_, v₂, _, w₂, .ask hv hxs, .ask hw hys, h₂, .cons hone hsame⟩

/-! ## Looks back put in -/

/-- **Looks back show in nothing but looks back that go astray.** Whatever cursor a list has, the
access itself changes nothing about the list; the operation, left alone, changes nothing of the list
but its fetcher, nothing of the rest but that a cursor may be looked for, and nothing at all if a
cursor is at hand. And in a session of requests to lists, the host being idle, looks back that are
put in change no answer, but that of a look back at an address that is not mapped: where no cursor is
at hand it fails for want of memory, and where a look back put in has found one before the list went
there it answers through that. -/
theorem peeking_shows_only_astray {w₀ w : FrontEnd} (hfresh : w₀.Fresh)
    (hw : Relation.ReflTransGen Anybody w₀ w) {session : List (Nat ⊕ Request)}
    (hs : ∀ r, .inr r ∈ session → r.Single ∨ ∃ i, r = .access i .previous) :
    (∀ (s : Slot) (m : Memory), (s.access m .previous).2 = s) ∧
    (∀ (v : FrontEnd) (i : Nat), ∃ r u, Gives (Operation.access i .previous) v r u ∧ u.deaf = v.deaf ∧
      (∀ j, (u.slot j).bare = (v.slot j).bare) ∧
      ∀ c, (v.slot i).fetcher.cursor? = some c → u = v) ∧
    ∃ xs v ys u, Course w (session.filter Sum.isRight) xs v ∧ Course w session ys u ∧
      v.Ahead u ∧ List.Forall₂ Asked.Same xs ys := by
  have hahead : w.Ahead w := FrontEnd.ahead_refl fun i => placed_reachable hfresh hw i
  exact ⟨Slot.access_previous, gives_peek, ahead_course hs hahead⟩

/-- A list is submitted and looked back at, moves past the end of main memory, and is looked back at
there. -/
def pastTheEnd : List (Nat ⊕ Request) :=
  [.inr (.init 0 ⟨0x09FFFFF0, 0, 0, none⟩), .inl 0, .inr (.moveTo 0 0x0A000000),
    .inr (.access 0 .previous)]

/-- **Looks back do show** in a later look back: without the first one the second fails for want of
memory at the address of the list; with it, it gives a word. -/
theorem peeking_shows_pastTheEnd : ∃ xs v ys u,
    Course (Replay.frontEnd {}) (pastTheEnd.filter Sum.isRight) xs v ∧
    Course (Replay.frontEnd {}) pastTheEnd ys u ∧
    xs.map Asked.reply = [.unit, .unit, .failure (.memory (.unmapped 0x0A000000))] ∧
    ys.map Asked.reply = [.unit, .unit, .word 0] := by
  let w₁ := ((Action.change 0 (.init ⟨0x09FFFFF0, 0, 0, none⟩)).perform (Replay.frontEnd {})).2
  let w₂ := ((Action.change 0 (.moveTo 0x0A000000)).perform w₁).2
  let v₁ := (w₁.tell (.cursor 0x09FFFFF0 4)).2.setSlot 0
    (((w₁.slot 0).equip ⟨0x09FFFFF0, .word⟩).access w₁.memory .previous).2
  let v₂ := ((Action.change 0 (.moveTo 0x0A000000)).perform v₁).2
  have hchange : ∀ (c : Change) (w : FrontEnd), Gives (change 0 c >>= fun _ => pure Reply.unit) w
      .unit ((Action.change 0 c).perform w).2 :=
    fun c w => (gives_perform (.change 0 c) w).bind (gives_done _ _)
  have hlast : Gives (Operation.access 0 .previous) w₂
      (.error (.memory (.unmapped 0x0A000000))) (w₂.tell (.cursor 0x0A000000 4)).2 :=
    gives_unmapped (by decide +kernel) (by decide +kernel)
  have hpeek : Gives (Operation.access 0 .previous) w₁ _ v₁ :=
    gives_found (by decide +kernel) (by decide +kernel)
  have hword : ((v₂.slot 0).access v₂.memory .previous).1 = .ok 0 := by decide +kernel
  have hlast' : Gives (Operation.access 0 .previous) v₂ (.ok 0) _ :=
    hword ▸ gives_at_hand (w := v₂) (by decide +kernel)
  exact ⟨_, _, _, _,
    .ask (hchange _ _) (.ask (hchange _ _) (.ask (hlast.bind (gives_done _ _)) (.nil _))),
    .ask (hchange _ _) (.peek (hpeek.bind (gives_done _ _)) (.ask (hchange _ _)
      (.ask (hlast'.bind (gives_done _ _)) (.nil _)))), rfl, rfl⟩

/-- That is a look back that goes astray. -/
theorem peeking_pastTheEnd : (Replay.frontEnd {}).Fresh ∧
    (∀ r, .inr r ∈ pastTheEnd → r.Single ∨ ∃ i, r = .access i .previous) ∧
    ∃ xs v ys u, Course (Replay.frontEnd {}) (pastTheEnd.filter Sum.isRight) xs v ∧
      Course (Replay.frontEnd {}) pastTheEnd ys u ∧ v.Ahead u ∧ List.Forall₂ Asked.Same xs ys := by
  have hfresh : (Replay.frontEnd {}).Fresh := FrontEnd.fresh_of_slots rfl
  have hs : ∀ r, .inr r ∈ pastTheEnd → r.Single ∨ ∃ i, r = .access i .previous := by
    simp [pastTheEnd, Request.Single]
  exact ⟨hfresh, hs, (peeking_shows_only_astray hfresh .refl hs).2.2⟩

end Process

end DisplayList

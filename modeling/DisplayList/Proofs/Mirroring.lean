import DisplayList.Proofs.Aliasing
import DisplayList.Proofs.Telling
import DisplayList.Proofs.Together
import DisplayList.Replay

/-!
# Alias bits steer nothing

Threads share a front end and take turns, step by step; each carries out requests. If the addresses
that lists are submitted with, their stall addresses and what the registers are set to are changed
in their alias bits, and so are the registers to begin with, nothing else changes.

* `Request.Shadows`, `Host.Shadows`, `FrontEnd.Shadows`: requests, hosts and front ends that are the
  same but for alias bits;
* `Action.Shadows`, **`Action.shadows_perform`**: actions; `aliasing`, `Request.Shadows.abreast`:
  requests are carried out abreast;
* `Crew`: threads by turns; `Crew.SeenAs`: all that can be seen of them;
  **`Crew.alias_bits_never_steer`**.
-/

namespace DisplayList

open Process

/-! ## Requests -/

mutual

/-- The requests are the same but for alias bits of the addresses that lists are submitted with, of
stall addresses and of what the registers are set to. What the host is told to do may differ in
such bits in turn. -/
inductive Request.Shadows : Request → Request → Prop
  | same (r : Request) : ¬ r.Prepares → Request.Shadows r r
  | expect (visible : List Bool) : Request.Shadows (.expect visible) (.expect visible)
  | submit {sub sub' : Submission} (p : Placement) : sub.Shadows sub' →
    Request.Shadows (.submit sub p) (.submit sub' p)
  | init (i : Nat) {sub sub' : Submission} : sub.Shadows sub' →
    Request.Shadows (.init i sub) (.init i sub')
  | setStall (i : Nat) {a b : Address} : Address.Shadows a b →
    Request.Shadows (.setStall i a) (.setStall i b)
  | setStallWith (i : Nat) {a b : Address} (plan : CursorPlan) (lo hi : Address) :
    Address.Shadows a b →
    Request.Shadows (.setStallWith i a plan lo hi) (.setStallWith i b plan lo hi)
  | setRegisters {r r' : Registers} : r.Shadows r' →
    Request.Shadows (.setRegisters r) (.setRegisters r')
  | onCommand (word : UInt32) {reaction reaction' : Reaction} :
    Reaction.Shadows reaction reaction' →
    Request.Shadows (.onCommand word reaction) (.onCommand word reaction')
  | onCallback {reaction reaction' : Reaction} : Reaction.Shadows reaction reaction' →
    Request.Shadows (.onCallback reaction) (.onCallback reaction')
  | onCursor {reaction reaction' : Reaction} : Reaction.Shadows reaction reaction' →
    Request.Shadows (.onCursor reaction) (.onCursor reaction')

/-- One after the other, the requests are the same but for alias bits. -/
inductive Reaction.Shadows : Reaction → Reaction → Prop
  | nil : Reaction.Shadows [] []
  | cons (name : String) {r r' : Request} {rest rest' : Reaction} : Request.Shadows r r' →
    Reaction.Shadows rest rest' → Reaction.Shadows ((name, r) :: rest) ((name, r') :: rest')

end

/-! ## Hosts -/

/-- The hosts are the same but for alias bits in what they do. -/
structure Host.Shadows (h h' : Host) : Prop where
  takesCallbacks : h.takesCallbacks = h'.takesCallbacks
  visible : h.visible = h'.visible
  onCommand : List.Forall₂ (fun x y => x.1 = y.1 ∧ Reaction.Shadows x.2 y.2)
    h.onCommand h'.onCommand
  onCallback : List.Forall₂ Reaction.Shadows h.onCallback h'.onCallback
  onCursor : List.Forall₂ Reaction.Shadows h.onCursor h'.onCursor

theorem Reaction.shadows_lookup {l l' : List (UInt32 × Reaction)}
    (h : List.Forall₂ (fun x y => x.1 = y.1 ∧ Reaction.Shadows x.2 y.2) l l') (word : UInt32) :
    Reaction.Shadows ((l.lookup word).getD []) ((l'.lookup word).getD []) := by
  induction h with
  | nil => exact .nil
  | @cons x y _ _ hxy _ ih =>
    obtain ⟨x, reaction⟩ := x
    obtain ⟨y, reaction'⟩ := y
    obtain ⟨rfl, hr⟩ := hxy
    simp only [List.lookup_cons]
    split
    · exact hr
    · exact ih

theorem Reaction.shadows_headD {l l' : List Reaction} (h : List.Forall₂ Reaction.Shadows l l') :
    Reaction.Shadows (l.headD []) (l'.headD []) ∧
      List.Forall₂ Reaction.Shadows l.tail l'.tail := by
  cases h with
  | nil => exact ⟨.nil, .nil⟩
  | cons hr ht => exact ⟨hr, ht⟩

namespace Host.Shadows

variable {h h' : Host} (hh : h.Shadows h')

include hh

theorem hears (r : Report) : h.hears r = h'.hears r := by
  cases r <;> first | rfl | exact hh.takesCallbacks

theorem react (r : Report) :
    Reaction.Shadows (h.react r).1 (h'.react r).1 ∧ (h.react r).2.Shadows (h'.react r).2 := by
  have hcallback := Reaction.shadows_headD hh.onCallback
  have hcursor := Reaction.shadows_headD hh.onCursor
  cases r with
  | command list pc word => exact ⟨Reaction.shadows_lookup hh.onCommand word, hh⟩
  | signalCallback | finishCallback =>
    exact ⟨hcallback.1, hh.takesCallbacks, hh.visible, hh.onCommand, hcallback.2, hh.onCursor⟩
  | cursor =>
    exact ⟨hcursor.1, hh.takesCallbacks, hh.visible, hh.onCommand, hh.onCallback, hcursor.2⟩

end Host.Shadows

/-! ## Front ends -/

namespace FrontEnd

/-- The front end without its lists, its registers and its host. -/
def shell (w : FrontEnd) : FrontEnd :=
  { w with slots := #[], registers := {}, host := {} }

/-- The front ends are the same but for alias bits: those of the registers, of the offsets that
calls saved, and of what the host does. -/
structure Shadows (v w : FrontEnd) : Prop where
  shell : v.shell = w.shell
  registers : v.registers.Shadows w.registers
  host : v.host.Shadows w.host
  size : v.slots.size = w.slots.size
  slots : ∀ i, (v.slot i).Shadows (w.slot i)

namespace Shadows

variable {v w : FrontEnd} (h : v.Shadows w)

include h

theorem memory : v.memory = w.memory := (congrArg FrontEnd.memory h.shell :)

theorem queue : v.queue = w.queue := (congrArg FrontEnd.queue h.shell :)

theorem backend : v.backend = w.backend := (congrArg FrontEnd.backend h.shell :)

theorem listening : v.listening = w.listening := (congrArg FrontEnd.listening h.shell :)

theorem selected : v.selected? = w.selected? := (congrArg FrontEnd.selected? h.shell :)

theorem journal : v.journal = w.journal := (congrArg FrontEnd.journal h.shell :)

theorem events : v.events = w.events := (congrArg FrontEnd.events h.shell :)

theorem update (f : FrontEnd → FrontEnd)
    (hf : ∀ w, (f w).shell = (f w.shell).shell := by exact fun _ => rfl)
    (hr : ∀ w, (f w).registers = w.registers := by exact fun _ => rfl)
    (hh : ∀ w, (f w).host = w.host := by exact fun _ => rfl)
    (hs : ∀ w, (f w).slots = w.slots := by exact fun _ => rfl) : (f v).Shadows (f w) where
  shell := by rw [hf v, hf w, h.shell]
  registers := by rw [hr, hr]; exact h.registers
  host := by rw [hh, hh]; exact h.host
  size := by rw [hs, hs, h.size]
  slots i := by
    rw [slot_congr v i (hs v), slot_congr w i (hs w)]
    exact h.slots i

theorem setSlot (i : Nat) {s s' : Slot} (hs : s.Shadows s') :
    (v.setSlot i s).Shadows (w.setSlot i s') where
  shell := h.shell
  registers := h.registers
  host := h.host
  size := by rw [size_setSlot, size_setSlot, h.size]
  slots j := by
    rw [slot_setSlot, slot_setSlot, h.size]
    split
    · exact hs
    · exact h.slots j

theorem setHost {host host' : Host} (hh : host.Shadows host') :
    { v with host := host }.Shadows { w with host := host' } :=
  ⟨h.shell, h.registers, hh, h.size, h.slots⟩

theorem note (e : Entry) : (v.note e).Shadows (w.note e) :=
  h.update (·.note e)

theorem tellEngine (i : Nat) (n : Notice) : (v.tellEngine i n).Shadows (w.tellEngine i n) := by
  cases n <;> exact h.update (·.tellEngine i _)

theorem tellRenderer (r : Renderer) (i : Nat) (n : Notice) :
    (v.tellRenderer r i n).Shadows (w.tellRenderer r i n) := by
  unfold FrontEnd.tellRenderer
  dsimp only
  rw [(h.slots i).id, (h.slots i).stall]
  generalize ({ notice := n, list := (w.slot i).id, stall := (w.slot i).stall } : Event) = e
  cases r with
  | channel =>
    by_cases hl : (w.listening && e.isCarried) = true
    · rw [if_pos hl, if_pos (by rwa [h.listening])]
      exact h.update fun x => { x with events := x.events.push e }
    · rw [if_neg hl, if_neg (by rwa [h.listening])]
      exact h
  | recorder label => exact h.note (.heard e)
  | inert => exact h

theorem notify (i : Nat) (n : Notice) : (v.notify i n).Shadows (w.notify i n) := by
  unfold FrontEnd.notify
  rw [h.backend, h.selected]
  split
  · exact h.tellEngine i n
  · exact h.tellRenderer _ i n
  · split
    · exact (h.tellEngine i .reset).tellRenderer _ i .reset
    · exact h.tellEngine i .reset
    · exact h.tellRenderer _ i _
    · exact h.tellEngine i _

/-- **The host hears the same**, and does the same about it but for alias bits. -/
theorem tell (r : Report) :
    Reaction.Shadows (v.tell r).1 (w.tell r).1 ∧ (v.tell r).2.Shadows (w.tell r).2 := by
  unfold FrontEnd.tell
  rw [h.host.hears r]
  split
  · obtain ⟨hreaction, hhost⟩ := h.host.react r
    exact ⟨hreaction, (h.setHost hhost).note _⟩
  · exact ⟨.nil, h⟩

end Shadows

end FrontEnd

/-! ## Actions -/

/-- The actions are the same but for alias bits. -/
inductive Action.Shadows : Action → Action → Prop
  | same (a : Action) : (∀ f, a ≠ .setHost f) → Shadows a a
  | change (i : Nat) {c c' : Change} : c.Shadows c' → Shadows (.change i c) (.change i c')
  | setRegisters {r r' : Registers} : r.Shadows r' → Shadows (.setRegisters r) (.setRegisters r')
  | setHost {f f' : Host → Host} :
    (∀ h h', Host.Shadows h h' → Host.Shadows (f h) (f' h')) → Shadows (.setHost f) (.setHost f')

/-- Alias bits may differ. -/
def aliasing : Likeness where
  slots := Slot.Shadows
  words := Address.Shadows
  acts := Action.Shadows

namespace Action

variable {v w : FrontEnd}

theorem shadows_onSlot {α : Type} {f g : Slot → α × Slot} (h : v.Shadows w) (i : Nat)
    (hf : (f (v.slot i)).1 = (g (w.slot i)).1 ∧ (f (v.slot i)).2.Shadows (g (w.slot i)).2) :
    HEq (onSlot v i f).1 (onSlot w i g).1 ∧ (onSlot v i f).2.Shadows (onSlot w i g).2 :=
  ⟨heq_of_eq hf.1, h.setSlot i hf.2⟩

/-- **Actions that are the same but for alias bits** answer the same and do the same, but for alias
bits. -/
theorem shadows_perform {a a' : Action} (h : v.Shadows w) (ha : a.Shadows a') :
    aliasing.Agree a a' (a.perform v).1 (a'.perform w).1 ∧
      (a.perform v).2.Shadows (a'.perform w).2 := by
  have change : ∀ (i : Nat) {c c' : Change}, c.Shadows c' →
      aliasing.Agree (.change i c) (.change i c') ((Action.change i c).perform v).1
          ((Action.change i c').perform w).1 ∧
        ((Action.change i c).perform v).2.Shadows ((Action.change i c').perform w).2 := by
    intro i c c' hc
    obtain ⟨hr, hs⟩ := (h.slots i).perform hc
    exact ⟨hr, h.setSlot i hs⟩
  cases ha with
  | change i hc => exact change i hc
  | setRegisters hr => exact ⟨.rfl, h.shell, hr, h.host, h.size, h.slots⟩
  | setHost hf => exact ⟨.rfl, h.setHost (hf _ _ h.host)⟩
  | same a ha =>
    cases a with
    | look i => exact ⟨h.slots i, h⟩
    | change i c => exact change i (.refl c)
    | await i =>
      have hwake : (v.slot i).wake = (w.slot i).wake := (congrArg Slot.wake (h.slots i).rest :)
      refine shadows_onSlot (f := fun s => (s.wake.take.1, { s with wake := s.wake.take.2 })) h i
        ((h.slots i).update fun s => (s.wake.take.1, { s with wake := s.wake.take.2 }))
    | access i a =>
      simp only [perform, h.memory]
      exact shadows_onSlot h i ((h.slots i).tryAccess w.memory a)
    | accessWith i address c a =>
      simp only [perform, h.memory]
      exact shadows_onSlot h i ((h.slots i).accessWith w.memory address c a)
    | write a ws =>
      simp only [perform, h.memory]
      cases w.memory.writeWords a ws with
      | ok memory => exact ⟨.rfl, h.update fun x => { x with memory }⟩
      | error f => exact ⟨.rfl, h⟩
    | enqueue i p => exact ⟨.rfl, h.update (·.enqueue i p)⟩
    | dequeue => exact ⟨heq_of_eq (congrArg List.head? h.queue), h.update (·.dequeue.2)⟩
    | withdraw i =>
      exact ⟨heq_of_eq (congrArg (List.contains · i) h.queue), h.update fun x => (x.withdraw i).2⟩
    | queuedIds =>
      refine ⟨heq_of_eq ?_, h⟩
      change v.queuedIds = w.queuedIds
      unfold FrontEnd.queuedIds
      rw [h.queue]
      exact List.map_congr_left fun i _ => (h.slots i).id
    | notify i n => exact ⟨.rfl, h.notify i n⟩
    | kind => exact ⟨heq_of_eq (congrArg FrontEnd.kind h.shell :), h⟩
    | route b =>
      have hr : (v.route b).1 = (w.route b).1 := (congrArg (fun w => (w.route b).1) h.shell :)
      exact ⟨heq_of_eq hr, h.update fun x => (x.route b).2⟩
    | routerText => exact ⟨heq_of_eq (congrArg FrontEnd.routerText h.shell :), h⟩
    | servicesText => exact ⟨heq_of_eq (congrArg FrontEnd.servicesText h.shell :), h⟩
    | registers => exact ⟨⟨h.registers.base, h.registers.offset⟩, h⟩
    | setRegisters r => exact ⟨.rfl, h.shell, .refl r, h.host, h.size, h.slots⟩
    | poolSize => exact ⟨heq_of_eq (congrArg FrontEnd.poolSize h.shell :), h⟩
    | testVisible =>
      have hvisible := h.host.visible
      have hhost : Host.Shadows { v.host with visible := v.host.visible.tail }
          { w.host with visible := w.host.visible.tail } :=
        ⟨h.host.takesCallbacks, congrArg List.tail hvisible, h.host.onCommand, h.host.onCallback,
          h.host.onCursor⟩
      simp only [perform, FrontEnd.testVisible]
      rw [hvisible]
      rw [hvisible] at hhost
      exact ⟨.rfl, (h.setHost hhost).note _⟩
    | note name reply => exact ⟨.rfl, h.note _⟩
    | setHost f => exact absurd rfl (ha f)
    | hangUp => exact ⟨.rfl, h.update fun x => { x with listening := false, events := #[] }⟩
    | close => exact ⟨.rfl, h.update fun x => { x with closed := true }⟩
    | isClosed => exact ⟨heq_of_eq (congrArg FrontEnd.closed h.shell :), h⟩

end Action

/-! ## Processes -/

/-- **No branch leads elsewhere** for its alias bits, and nothing of a list shows them. -/
theorem sound_aliasing : aliasing.Sound where
  seen h := ⟨h.id, h.callbackId, h.pc, h.status, h.flags, h.isStalled, h.reported, h.isDone,
    h.isInUse, h.text, h.diagnostic⟩
  word _ := rfl
  target hr mode arg := Mode.target_shadows ⟨hr.1, hr.2⟩ mode arg
  same := .same
  sameRegisters hr := .setRegisters ⟨hr.1, hr.2⟩
  sameCall i _ _ _ ho := .change i (.call _ ho)

theorem abreast_once {a a' : Action} {α : Type} {x : α} (h : a.Shadows a') :
    Abreast aliasing (.act a fun _ => .done x) (.act a' fun _ => .done x) :=
  .act h fun _ _ _ => .done x

/-- **Requests that are the same but for alias bits** are carried out abreast. -/
theorem Request.Shadows.abreast {r r' : Request} (h : r.Shadows r') :
    Abreast aliasing r.serve r'.serve := by
  have hs := sound_aliasing
  cases h with
  | same r hr => exact hs.serve r hr
  | submit p hsub =>
    have hstack : Submission.stack _ = Submission.stack _ :=
      congrArg (Option.elim · 0 Params.stackAddress) hsub.params
    refine abreast_bind (hs.submit hsub.list.aligned hstack (fun i => .change i (.init hsub)) p)
      fun x => ?_
    cases x with
    | ok i => exact hs.lookId i
    | error e => exact abreast_pure _
  | init i hsub => exact abreast_once (.change i (.init hsub))
  | setStall i ha =>
    exact Likeness.Sound.thenUnit (hs.setStall (.change i (.moveStall ha)))
  | setStallWith i plan lo hi ha =>
    exact Likeness.Sound.withCursor plan fun c =>
      hs.setStallWith (.change i (.moveStallWith _ ha))
  | setRegisters hr => exact abreast_once (.setRegisters hr)
  | expect visible =>
    exact abreast_once (.setHost fun h h' hh =>
      ⟨hh.takesCallbacks, congrArg (· ++ visible) hh.visible, hh.onCommand, hh.onCallback,
        hh.onCursor⟩)
  | onCommand word hreaction =>
    exact abreast_once (.setHost fun h h' hh =>
      ⟨hh.takesCallbacks, hh.visible, .cons ⟨rfl, hreaction⟩ hh.onCommand, hh.onCallback,
        hh.onCursor⟩)
  | onCallback hreaction =>
    exact abreast_once (.setHost fun h h' hh =>
      ⟨hh.takesCallbacks, hh.visible, hh.onCommand,
        List.rel_append hh.onCallback (.cons hreaction .nil), hh.onCursor⟩)
  | onCursor hreaction =>
    exact abreast_once (.setHost fun h h' hh =>
      ⟨hh.takesCallbacks, hh.visible, hh.onCommand, hh.onCallback,
        List.rel_append hh.onCursor (.cons hreaction .nil)⟩)

theorem Reaction.Shadows.abreast {l l' : Reaction} (h : Reaction.Shadows l l') :
    Abreast aliasing (Request.serveAll l) (Request.serveAll l') := by
  induction l generalizing l' with
  | nil =>
    cases h
    exact abreast_pure _
  | cons x rest ih =>
    cases h with
    | cons name hr hrest =>
      exact abreast_bind hr.abreast fun _ => abreast_bind (sound_aliasing.perform trivial) fun _ =>
        ih hrest

theorem kept_aliasing : aliasing.Kept FrontEnd.Shadows where
  perform h ha := Action.shadows_perform h ha
  tell r h := ⟨(h.tell r).1.abreast, (h.tell r).2⟩

/-! ## Moves -/

theorem Action.Shadows.word? {a a' : Action} (ha : a.Shadows a') {v w : FrontEnd}
    (h : v.Shadows w) (i : Nat) : (Move.act a v).word? i = (Move.act a' w).word? i := by
  cases ha with
  | same a =>
    cases a with
    | access j a =>
      cases a with
      | next =>
        simp only [Move.word?, h.memory, ((h.slots j).tryAccess w.memory .next).1, (h.slots i).pc]
      | _ => rfl
    | accessWith j address c a =>
      cases a with
      | next =>
        simp only [Move.word?, h.memory, ((h.slots j).accessWith w.memory address c .next).1,
          (h.slots i).pc]
      | _ => rfl
    | _ => rfl
  | _ => rfl

/-- **The move of two processes abreast** fetches the same word and tells the host the same. -/
theorem Process.Abreast.move? {α : Type} {p p' : Process α} (hp : Abreast aliasing p p')
    {v w : FrontEnd} (h : v.Shadows w) :
    (∀ i, fetched i (p.move? v).toList = fetched i (p'.move? w).toList) ∧
      told (p.move? v).toList = told (p'.move? w).toList := by
  cases hp with
  | done => exact ⟨fun _ => rfl, rfl⟩
  | loop => exact ⟨fun _ => rfl, rfl⟩
  | report r => exact ⟨fun _ => rfl, rfl⟩
  | act ha =>
    refine ⟨fun i => ?_, rfl⟩
    have hword := ha.word? h i
    simp only [fetched, Process.move?, Option.toList_some, List.filterMap_cons, hword]

/-! ## Threads by turns -/

section Forall₂

variable {α β : Type*} {R : α → β → Prop} {l : List α} {l' : List β}

theorem rel_getElem? (h : List.Forall₂ R l l') (k : Nat) : Option.Rel R l[k]? l'[k]? := by
  induction h generalizing k with
  | nil => exact .none
  | cons hx _ ih =>
    cases k with
    | zero => exact .some hx
    | succ k => exact ih k

theorem rel_set (h : List.Forall₂ R l l') (k : Nat) {x : α} {y : β} (hxy : R x y) :
    List.Forall₂ R (l.set k x) (l'.set k y) := by
  induction h generalizing k with
  | nil => exact .nil
  | cons hx ht ih =>
    cases k with
    | zero => exact .cons hxy ht
    | succ k => exact .cons hx (ih k)

end Forall₂

/-- Threads that share a front end, each with what it has still to do, and the moves that were
made. -/
structure Crew where
  threads : List (Process Unit)
  moves : List Move := []
  state : FrontEnd

namespace Crew

/-- Each of the threads is to carry out requests, one after the other, and to write down their
answers. -/
def start (scripts : List Reaction) (w : FrontEnd) : Crew where
  threads := scripts.map Request.serveAll
  state := w

/-- The thread at position `k` makes a step, if there is one. What the host does about a report is
done by the thread that made it. -/
def turn (c : Crew) (k : Nat) : Crew :=
  match c.threads[k]? with
  | none => c
  | some p =>
    { threads := c.threads.set k (p.next c.state).1
      moves := c.moves ++ (p.move? c.state).toList
      state := (p.next c.state).2 }

/-- The threads take turns. -/
def play (c : Crew) (turns : List Nat) : Crew :=
  turns.foldl turn c

/-- All that can be seen of the crews is the same: the words fetched for each list and where, what
the host was told, the journal with the answers to all requests, the events for a renderer, which
threads are done, and what shows of each list. -/
structure SeenAs (c d : Crew) : Prop where
  fetched : ∀ i, fetched i c.moves = fetched i d.moves
  told : told c.moves = told d.moves
  journal : c.state.journal = d.state.journal
  events : c.state.events = d.state.events
  isDone : ∀ k : Nat, c.threads[k]? = some (.done ()) ↔ d.threads[k]? = some (.done ())
  slots : ∀ i, (c.state.slot i).SeenAs (d.state.slot i)
  depth : ∀ i, (c.state.slot i).calls.depth = (d.state.slot i).calls.depth

/-- The threads go abreast, on front ends that are the same but for alias bits, and what they did so
far looks the same. -/
structure Shadows (c d : Crew) : Prop where
  threads : List.Forall₂ (Abreast aliasing) c.threads d.threads
  fetched : ∀ i, DisplayList.fetched i c.moves = DisplayList.fetched i d.moves
  told : DisplayList.told c.moves = DisplayList.told d.moves
  state : c.state.Shadows d.state

variable {c d : Crew}

/-- **What is seen of crews that go abreast** is the same. -/
theorem Shadows.seenAs (h : c.Shadows d) : c.SeenAs d where
  fetched := h.fetched
  told := h.told
  journal := h.state.journal
  events := h.state.events
  isDone k := by
    have hk := rel_getElem? h.threads k
    generalize c.threads[k]? = x at hk
    generalize d.threads[k]? = y at hk
    cases hk with
    | none => exact Iff.rfl
    | some hp => cases hp <;> simp
  slots i := sound_aliasing.seen (h.state.slots i)
  depth i := (h.state.slots i).depth

/-- **One turn** on both sides. -/
theorem Shadows.turn (h : c.Shadows d) (k : Nat) : (c.turn k).Shadows (d.turn k) := by
  have hk := rel_getElem? h.threads k
  unfold Crew.turn
  generalize c.threads[k]? = x at hk
  generalize d.threads[k]? = y at hk
  cases hk with
  | none => exact h
  | some hp =>
    obtain ⟨hnext, hstate⟩ := kept_aliasing.next hp h.state
    obtain ⟨hfetched, htold⟩ := hp.move? h.state
    refine ⟨rel_set h.threads k hnext, fun i => ?_, ?_, hstate⟩
    · rw [fetched_append, fetched_append, h.fetched, hfetched]
    · rw [told_append, told_append, h.told, htold]

/-- **Any turns.** -/
theorem Shadows.play (h : c.Shadows d) (turns : List Nat) : (c.play turns).Shadows (d.play turns) := by
  induction turns generalizing c d with
  | nil => exact h
  | cons k turns ih => exact ih (h.turn k)

theorem shadows_start {scripts scripts' : List Reaction}
    (hs : List.Forall₂ Reaction.Shadows scripts scripts') {v w : FrontEnd} (h : v.Shadows w) :
    (start scripts v).Shadows (start scripts' w) := by
  refine ⟨?_, fun _ => rfl, rfl, h⟩
  unfold start
  rw [List.forall₂_map_left_iff, List.forall₂_map_right_iff]
  exact hs.imp fun _ _ hr => hr.abreast

/-- **Alias bits never steer anything.** Threads carry out requests on a front end, taking turns in
any order. If the registers to begin with, the addresses with which lists are submitted, their stall
addresses, every later one, and what the registers are set to are changed in their alias bits, then
all that can be seen is the same at every moment. -/
theorem alias_bits_never_steer {v w : FrontEnd} (h : v.Shadows w) {scripts scripts' : List Reaction}
    (hs : List.Forall₂ Reaction.Shadows scripts scripts') (turns : List Nat) :
    ((start scripts v).play turns).SeenAs ((start scripts' w).play turns) :=
  ((shadows_start hs h).play turns).seenAs

/-- A worker that loads a list, submits it and runs the queue twice, and a producer that lets the
list go on, with these alias bits in their addresses. The list branches by way of the registers. -/
def workerAndProducer (bits : UInt32) : List Reaction :=
  [[("write", .write 0x08800000 [0x10080000, 0x0880000C, 0, 0x0F000000, 0x0C000000]),
    ("submit", .submit ⟨0x08800000 ||| bits, 0x08800008 ||| bits, 7, none⟩ .tail),
    ("run", .run true),
    ("run", .run true)],
   [("stall", .setStall 0 (0x08800014 ||| bits))]]

/-- A front end with these alias bits in its offset register. -/
def aliasedFrontEnd (bits : UInt32) : FrontEnd :=
  { Replay.frontEnd {} with backend := .engine, registers := { offset := bits } }

/-- The worker runs the list up to its stall address, the producer lets it go on, and the worker
runs it to its END word. Four words are fetched, with alias bits and without. -/
theorem alias_bits_never_steer_workerAndProducer :
    let turns := .replicate 200 0 ++ .replicate 10 1 ++ .replicate 200 0
    let c := (start (workerAndProducer 0) (aliasedFrontEnd 0)).play turns
    (aliasedFrontEnd 0).Shadows (aliasedFrontEnd 0xC0000000) ∧
      List.Forall₂ Reaction.Shadows (workerAndProducer 0) (workerAndProducer 0x80000000) ∧
      (fetched 0 c.moves).length = 4 ∧
      c.SeenAs ((start (workerAndProducer 0x80000000) (aliasedFrontEnd 0xC0000000)).play turns) := by
  intro turns c
  have h : (aliasedFrontEnd 0).Shadows (aliasedFrontEnd 0xC0000000) :=
    ⟨rfl, ⟨by decide, by decide⟩, ⟨rfl, rfl, .nil, .nil, .nil⟩, rfl, fun i => .refl _⟩
  have hsub : Submission.Shadows ⟨0x08800000 ||| 0, 0x08800008 ||| 0, 7, none⟩
      ⟨0x08800000 ||| 0x80000000, 0x08800008 ||| 0x80000000, 7, none⟩ :=
    ⟨by decide, by decide, rfl, rfl⟩
  have hs : List.Forall₂ Reaction.Shadows (workerAndProducer 0) (workerAndProducer 0x80000000) := by
    refine .cons (.cons _ (.same _ id) (.cons _ (.submit _ hsub) (.cons _ (.same _ id)
      (.cons _ (.same _ id) .nil)))) (.cons (.cons _ (.setStall 0 ?_) .nil) .nil)
    decide
  exact ⟨h, hs, by decide +kernel, alias_bits_never_steer h hs turns⟩

end Crew

end DisplayList

import DisplayList.Proofs.Alone
import DisplayList.Proofs.Coherence
import DisplayList.Proofs.Histories
import DisplayList.Proofs.Obeying

/-!
# What the host is told about the words

Every word for whoever draws is handed over once, with the address that it was fetched at; a FINISH
word and some of the SIGNAL words make one callback each. The address is worked out from the
instruction address after the fetch, and so it is right unless that has wrapped around.

* `told`, `fetched`: what the host was told by the moves of a run, and the words fetched by them;
* `Hushed`, **`goes_hushed`**: processes that tell the host nothing but what cursors they look for;
* `due`, `reported`: what the host should be told about a word, and what it is told;
* `Level`, `Owing`, **`keeps_running`**: all that is fetched is reported in order, and the report
  about the last word may be outstanding;
* **`told_iff`**: the host is told what it should be exactly if no word of which it is told was
  fetched at the last instruction address of all; **`told_wrapped`**: it may have been.
-/

namespace DisplayList

open Process

/-! ## What the host is told -/

/-- A report other than that a cursor is looked for. -/
def Report.isNews : Report → Bool
  | .cursor .. => false
  | _ => true

/-- What the host is told by a move. -/
def Move.news? : Move → Option Report
  | .act .. => none
  | .report r _ => if r.isNews then some r else none

/-- What the host was told, in order, where cursors were looked for apart. -/
def told (t : List Move) : List Report :=
  t.filterMap Move.news?

theorem told_append (t t' : List Move) : told (t ++ t') = told t ++ told t' :=
  List.filterMap_append

theorem told_act (t : List Move) (a : Action) (w : FrontEnd) :
    told (t ++ [.act a w]) = told t := by
  simp [told, Move.news?]

theorem told_report (t : List Move) {r : Report} (h : r.isNews = true) (w : FrontEnd) :
    told (t ++ [.report r w]) = told t ++ [r] := by
  simp [told, Move.news?, h]

/-! ## Words fetched -/

/-- The word of the list at position `i` that a move fetches, with the instruction address at which
it was due. -/
def Move.word? (i : Nat) : Move → Option (Address × UInt32)
  | .act (.access j .next) w =>
    match (((w.slot j).tryAccess w.memory .next).1 : Address ⊕ Except Failure UInt32) with
    | .inr (.ok word) => if j = i then some ((w.slot i).pc, word) else none
    | _ => none
  | .act (.accessWith j a c .next) w =>
    match (((w.slot j).accessWith w.memory a c .next).1 : Option (Except Failure UInt32)) with
    | some (.ok word) => if j = i then some ((w.slot i).pc, word) else none
    | _ => none
  | _ => none

/-- The words of the list at position `i` that were fetched, in order. -/
def fetched (i : Nat) (t : List Move) : List (Address × UInt32) :=
  t.filterMap (Move.word? i)

theorem fetched_append (i : Nat) (t t' : List Move) :
    fetched i (t ++ t') = fetched i t ++ fetched i t' :=
  List.filterMap_append

theorem word?_of_not_isNext {i : Nat} {a : Action} (h : ¬ a.IsNext) (w : FrontEnd) :
    (Move.act a w).word? i = none := by
  cases a with
  | access j a =>
    cases a with
    | next => exact absurd trivial h
    | _ => rfl
  | accessWith j x c a =>
    cases a with
    | next => exact absurd trivial h
    | _ => rfl
  | _ => rfl

theorem fetched_act {i : Nat} {a : Action} (h : ¬ a.IsNext) (t : List Move) (w : FrontEnd) :
    fetched i (t ++ [.act a w]) = fetched i t := by
  rw [fetched_append]
  simp [fetched, word?_of_not_isNext h]

theorem fetched_report (i : Nat) (t : List Move) (r : Report) (w : FrontEnd) :
    fetched i (t ++ [.report r w]) = fetched i t := by
  simp [fetched, Move.word?]

namespace Slot

variable {s s' : Slot} {m : Memory} {word : UInt32}

theorem pc_of_access (h : s.access m .next = (.ok word, s')) :
    s'.pc = Address.aligned (s.pc + 4) := by
  unfold access at h
  dsimp only at h
  split at h
  · cases h
  · split at h
    · cases h
    · cases h
      rfl

theorem pc_of_tryAccess (h : s.tryAccess m .next = (.inr (.ok word), s')) :
    s'.pc = Address.aligned (s.pc + 4) := by
  unfold tryAccess at h
  split at h
  · cases h
  · have ha : s.access m .next = (.ok word, s') := by
      cases hx : s.access m .next
      simpa [hx] using h
    exact pc_of_access ha

theorem pc_of_accessWith {a : Address} {c : Cursor}
    (h : s.accessWith m a c .next = (some (.ok word), s')) :
    s'.pc = Address.aligned (s.pc + 4) := by
  unfold accessWith at h
  split at h
  · cases h
  next fetcher _ =>
    have ha : { s with fetcher }.access m .next = (.ok word, s') := by
      cases hx : { s with fetcher }.access m .next
      simpa [hx] using h
    exact pc_of_access (s := { s with fetcher }) ha

end Slot

/-! ## Processes that tell the host nothing -/

namespace Process

variable {α β σ : Type} {others : FrontEnd → FrontEnd → Prop} {p q : Process α}
  {w u : FrontEnd} {t : List Move}

/-- The process tells the host nothing but what cursors it looks for, whatever is answered to its
actions. -/
def Hushed : {α : Type} → Process α → Prop
  | _, .done _ => True
  | _, .act _ k => ∀ r, Hushed (k r)
  | _, .report r k => r.isNews = false ∧ Hushed k
  | _, .loop round _ k => (∀ s, Hushed (round s)) ∧ ∀ b, Hushed (k b)

theorem Hushed.bind {p : Process β} {f : β → Process α} (hp : Hushed p)
    (hf : ∀ b, Hushed (f b)) : Hushed (p.bind f) := by
  induction p with
  | done b => exact hf b
  | act a k ih => exact fun r => ih r (hp r) hf
  | report r k ih => exact ⟨hp.1, ih hp.2 hf⟩
  | loop round s k _ ih => exact ⟨hp.1, fun b => ih b (hp.2 b) hf⟩

/-- **A hushed process tells the host nothing.** -/
theorem goes_hushed (hp : Hushed p) (h : Goes others p w t q u) : told t = [] := by
  induction h with
  | stay => rfl
  | other _ _ ih => exact ih hp
  | act _ ih => exact ih (hp _)
  | @report r k q w u t _ ih =>
    have hr : Move.news? (.report r w) = none := by simp [Move.news?, hp.1]
    exact (List.filterMap_cons_none hr).trans (ih hp.2)
  | @loop σ β round s k _ _ _ _ _ ih =>
    refine ih ((hp.1 s).bind fun x => ?_)
    cases x with
    | inl s => exact hp
    | inr b => exact hp.2 b

theorem hushed_bind {p : Process β} {f : β → Process α} (hp : Hushed p)
    (hf : ∀ b, Hushed (f b)) : Hushed (p >>= f) :=
  hp.bind hf

theorem hushed_done (a : α) : Hushed (.done a) := trivial

theorem hushed_perform (a : Action) : Hushed (perform a) := fun _ => trivial

theorem hushed_iterate {s : σ} {round : σ → Process (σ ⊕ α)} (h : ∀ s, Hushed (round s)) :
    Hushed (iterate s round) :=
  ⟨h, fun _ => trivial⟩

variable {i : Nat}

theorem hushed_access (a : Slot.Access) : Hushed (Operation.access i a) := by
  refine hushed_iterate fun _ => hushed_bind (hushed_perform _) fun r => ?_
  cases r with
  | inr r => exact hushed_done _
  | inl address =>
    refine hushed_bind ⟨rfl, trivial⟩ fun _ => ?_
    cases Cursor.openAt address 4 with
    | error f => exact hushed_done _
    | ok c =>
      refine hushed_bind (hushed_perform _) fun r => ?_
      cases r with
      | some r => exact hushed_done _
      | none => exact hushed_done _

theorem hushed_jump (mode : Mode) (arg : UInt32) : Hushed (Operation.jump i mode arg) :=
  fun _ _ => trivial

theorem hushed_call (mode : Mode) (arg : UInt32) : Hushed (Operation.call i mode arg) :=
  fun _ _ => trivial

theorem hushed_ret : Hushed (Operation.ret i) := by
  intro r
  cases r with
  | none => trivial
  | some offset => exact fun _ _ => trivial

theorem hushed_transfer (t : Transfer) (target : UInt32) : Hushed (Engine.transfer i t target) := by
  cases t with
  | jump mode => exact hushed_bind (hushed_jump mode target) fun _ => trivial
  | call mode => exact hushed_bind (hushed_call mode target) fun _ => trivial
  | ret => exact hushed_bind hushed_ret fun _ => trivial
  | pause => exact fun _ => trivial

theorem hushed_conclude : Hushed (Engine.conclude i) :=
  fun _ _ _ _ => trivial

theorem hushed_stop (arg : UInt32) : Hushed (Engine.stop i arg) := by
  have hend : Hushed (Engine.conclude i >>= fun outcome =>
      (pure (.ok (some outcome)) : Process (Except Failure (Option Outcome)))) :=
    hushed_bind hushed_conclude fun _ => trivial
  refine hushed_bind (hushed_access _) fun r => ?_
  cases r with
  | error e =>
    cases e with
    | memory f => exact hend
    | _ => exact hushed_done _
  | ok word =>
    dsimp only
    split
    · split
      · exact hushed_transfer ..
      · exact hend
    · exact hend

theorem hushed_settle (r : Except Failure (Option Outcome)) : Hushed (Engine.settle r) := by
  cases r with
  | error e => trivial
  | ok o =>
    cases o with
    | none => trivial
    | some outcome => trivial

end Process

/-! ## What is due -/

/-- The opcodes of the words that steer the list. -/
def steering : List UInt8 :=
  [0x00, 0x08, 0x09, 0x0A, 0x0B, 0x0C, 0x0E, 0x0F, 0x10, 0x13, 0x14]

/-- What the host is told of a word of list number `id`: whoever draws gets it with the address
`pc`, and a callback gets the address `next`. -/
def tidings (id : Nat) (callbackId : Int32) (pc next : Address) (word : UInt32) : Option Report :=
  let opcode := (word >>> 24).toUInt8
  let behavior := (word >>> 16) &&& 0xFF
  if opcode ∉ steering then some (.command id pc word)
  else if opcode = 0x0F then some (.finishCallback callbackId id next (word &&& 0x00FFFFFF))
  else if opcode = 0x0E ∧ behavior ∈ [0x01, 0x02, 0x03, 0x08] then
    some (.signalCallback callbackId id next behavior (word &&& 0xFFFF))
  else none

/-- What the host is told of a command. -/
def Command.tidings (id : Nat) (callbackId : Int32) (pc next : Address) : Command → Option Report
  | draw word => some (.command id pc word)
  | finish arg => some (.finishCallback callbackId id next arg)
  | .signal behavior number =>
    if Signal.calls behavior then some (.signalCallback callbackId id next behavior number)
    else none
  | _ => none

theorem behavior_argument (word : UInt32) :
    Command.argument word >>> 16 &&& (0xFF : UInt32) = word >>> 16 &&& (0xFF : UInt32) := by
  unfold Command.argument
  rw [UInt32.shiftRight_and, UInt32.and_assoc]
  rfl

theorem signal_argument (word : UInt32) :
    Command.argument word &&& (0xFFFF : UInt32) = word &&& (0xFFFF : UInt32) := by
  unfold Command.argument
  rw [UInt32.and_assoc]
  rfl

/-- **What the host is told of a word is what it is told of the command.** -/
theorem tidings_decode (id : Nat) (callbackId : Int32) (pc next : Address) (word : UInt32) :
    (Command.decode word).tidings id callbackId pc next = tidings id callbackId pc next word := by
  have hop : (word >>> 24).toUInt8 = Command.opcode word := rfl
  unfold tidings Command.decode
  dsimp only
  rw [hop, behavior_argument, signal_argument]
  generalize word >>> 16 &&& 0xFF = behavior
  generalize Command.opcode word = op
  split
  case h_12 =>
    have hdraw : op ∉ steering := by simp_all [steering]
    rw [if_pos hdraw]
    rfl
  all_goals simp [Command.tidings, steering, Signal.calls, Command.argument, or_assoc]

/-- What is due for a word fetched at some address. -/
def due (id : Nat) (callbackId : Int32) (x : Address × UInt32) : Option Report :=
  tidings id callbackId x.1 (x.1 + 8) x.2

/-- What the host is told of a word fetched at some address. -/
def reported (id : Nat) (callbackId : Int32) (x : Address × UInt32) : Option Report :=
  tidings id callbackId (Address.aligned (x.1 + 4) - 4) (Address.aligned (x.1 + 4) + 4) x.2

theorem isSome_tidings (id : Nat) (callbackId : Int32) (pc pc' next next' : Address)
    (word : UInt32) : (tidings id callbackId pc next word).isSome =
      (tidings id callbackId pc' next' word).isSome := by
  unfold tidings
  dsimp only
  split
  · rfl
  · split
    · rfl
    · split <;> rfl

theorem tidings_inj {id : Nat} {callbackId : Int32} {pc pc' next next' : Address} {word : UInt32}
    (hpc : pc ≠ pc') (hnext : next ≠ next')
    (h : tidings id callbackId pc next word = tidings id callbackId pc' next' word) :
    tidings id callbackId pc' next' word = none := by
  unfold tidings at h ⊢
  dsimp only at h ⊢
  split at h
  · simp [hpc] at h
  · split at h
    · simp [hnext] at h
    · split at h
      · simp [hnext] at h
      next hop hfinish hsignal => rw [if_neg hop, if_neg hfinish, if_neg hsignal]

/-- The last instruction address of all, after which the addresses start over. -/
def lastAddress : Address := 0x3FFFFFFC

theorem aligned_add_four {a : Address} (h : Address.aligned a = a) (hlast : a ≠ lastAddress) :
    Address.aligned (a + 4) = a + 4 := by
  rw [Address.aligned_eq_iff] at h ⊢
  have hne : a.toNat ≠ 0x3FFFFFFC := fun he => hlast (UInt32.toNat_inj.1 he)
  have hadd : (a + 4).toNat = (a.toNat + 4) % 2 ^ 32 := UInt32.toNat_add ..
  omega

/-- **What is told of a word is what is due**, unless the addresses start over after it. -/
theorem reported_eq_due_iff {id : Nat} {callbackId : Int32} {x : Address × UInt32}
    (h : Address.aligned x.1 = x.1) : reported id callbackId x = due id callbackId x ↔
      (x.1 = lastAddress → due id callbackId x = none) := by
  unfold reported due
  by_cases hlast : x.1 = lastAddress
  · rw [hlast]
    refine ⟨fun he _ => tidings_inj (by decide) (by decide) he, fun hnone => ?_⟩
    have hsome := isSome_tidings id callbackId (Address.aligned (lastAddress + 4) - 4) lastAddress
      (Address.aligned (lastAddress + 4) + 4) (lastAddress + 8) x.2
    rw [hnone rfl] at hsome ⊢
    exact Option.isSome_eq_false_iff.1 hsome |> Option.isNone_iff_eq_none.1
  · have hback : x.1 + 4 - 4 = x.1 := UInt32.add_sub_cancel ..
    have hon : x.1 + 4 + 4 = x.1 + 8 := by rw [UInt32.add_assoc]; rfl
    rw [aligned_add_four h hlast, hback, hon]
    exact iff_of_true rfl fun he => absurd he hlast

theorem filterMap_eq_iff {α β : Type} {f g : α → Option β} {l : List α}
    (h : ∀ x, (f x).isSome = (g x).isSome) :
    l.filterMap f = l.filterMap g ↔ ∀ x ∈ l, f x = g x := by
  induction l with
  | nil => simp
  | cons x l ih =>
    rw [List.filterMap_cons, List.filterMap_cons, List.forall_mem_cons, ← ih]
    have hx := h x
    cases hf : f x with
    | none =>
      cases hg : g x with
      | none => simp
      | some b => simp [hf, hg] at hx
    | some a =>
      cases hg : g x with
      | none => simp [hf, hg] at hx
      | some b => simp

/-! ## What is reported in the course of a run -/

/-- Others who leave the list at position `i` where it is, and its callbacks. -/
structure LooksOn (i : Nat) (w v : FrontEnd) : Prop where
  anybody : Anybody w v
  pc : (v.slot i).pc = (w.slot i).pc
  callbackId : (v.slot i).callbackId = (w.slot i).callbackId
  kind : v.kind = w.kind

/-- The list at position `i` has the number `id` and makes callbacks in the name of
`callbackId`, and the builtin engine runs it. -/
structure Named (i id : Nat) (callbackId : Int32) (w : FrontEnd) : Prop where
  lt_size : i < w.slots.size
  id : (w.slot i).id = id
  callbackId : (w.slot i).callbackId = callbackId
  kind : w.kind = .builtin

section Running

variable {i id : Nat} {callbackId : Int32} {w v u : FrontEnd} {t : List Move} {a : Action}
  {x : Address × UInt32}

theorem Named.other (h : Named i id callbackId w) (ho : LooksOn i w v) :
    Named i id callbackId v where
  lt_size := size_anybody ho.anybody ▸ h.lt_size
  id := (id_anybody ho.anybody i).trans h.id
  callbackId := ho.callbackId.trans h.callbackId
  kind := ho.kind.trans h.kind

theorem Action.Steers.kind (h : a.Steers i) (w : FrontEnd) : (a.perform w).2.kind = w.kind := by
  rcases h with h | ⟨status, rfl⟩
  · cases a with
    | notify j n =>
      obtain ⟨queue, events, journal, hn⟩ := w.notify_frame j n
      change (w.notify j n).kind = w.kind
      rw [hn]
      rfl
    | look | registers | setRegisters | kind | testVisible => rfl
    | change | await | access | accessWith => rfl
    | _ => exact h.elim
  · rfl

theorem Action.Steers.callbackId_onto (h : a.Steers i) (j : Nat) (m : Memory) (s : Slot) :
    (a.onto j m s).callbackId = s.callbackId := by
  rcases h with h | ⟨status, rfl⟩
  · obtain ⟨pc, calls, fetcher, flags, wake, hs⟩ := h.onto_frame j m s
    rw [hs]
  · rw [onto_change]
    split <;> rfl

theorem Named.act (h : Named i id callbackId w) (ha : a.Steers i) :
    Named i id callbackId (a.perform w).2 where
  lt_size := by
    rw [Action.size_perform]
    exact h.lt_size
  id := (id_anybody (.act trivial w) i).trans h.id
  callbackId := Action.slot_perform_of (P := fun s => s.callbackId = callbackId) h.callbackId
    ((ha.callbackId_onto i w.memory _).trans h.callbackId)
  kind := (ha.kind w).trans h.kind

theorem Named.tell (h : Named i id callbackId w) (r : Report) :
    Named i id callbackId (w.tell r).2 := by
  obtain ⟨host, journal, hw⟩ := w.tell_frame r
  rw [hw]
  exact ⟨h.lt_size, h.id, h.callbackId, h.kind⟩

/-- Nothing is outstanding: what was told is what is told of the words fetched. -/
def Level (i id : Nat) (callbackId : Int32) : Assertion := fun t w =>
  told t = (fetched i t).filterMap (reported id callbackId) ∧ Named i id callbackId w

/-- The list is just past the word `x`, and what is told of it is outstanding. -/
structure Owing (i id : Nat) (callbackId : Int32) (x : Address × UInt32) (t : List Move)
    (w : FrontEnd) : Prop where
  told : ∃ l, fetched i t = l ++ [x] ∧ told t = l.filterMap (reported id callbackId)
  pc : (w.slot i).pc = Address.aligned (x.1 + 4)
  named : Named i id callbackId w

/-- What was told is what is told of the words fetched, or of all but the last. -/
def InOrder (i id : Nat) (callbackId : Int32) (t : List Move) : Prop :=
  told t = (fetched i t).filterMap (reported id callbackId) ∨
    ∃ l x, fetched i t = l ++ [x] ∧ told t = l.filterMap (reported id callbackId)

theorem Level.inOrder (h : Level i id callbackId t w) : InOrder i id callbackId t :=
  .inl h.1

theorem Owing.inOrder (h : Owing i id callbackId x t w) : InOrder i id callbackId t := by
  obtain ⟨l, hl, ht⟩ := h.told
  exact .inr ⟨l, x, hl, ht⟩

theorem Owing.level (h : Owing i id callbackId x t w) (hx : reported id callbackId x = none) :
    Level i id callbackId t w := by
  obtain ⟨l, hl, ht⟩ := h.told
  refine ⟨?_, h.named⟩
  rw [hl, ht, filterMap_concat, hx]
  simp

theorem Owing.report (h : Owing i id callbackId x t w) {r : Report}
    (hx : reported id callbackId x = some r) (hr : r.isNews = true) :
    Level i id callbackId (t ++ [.report r w]) (w.tell r).2 := by
  obtain ⟨l, hl, ht⟩ := h.told
  refine ⟨?_, h.named.tell r⟩
  rw [fetched_report, told_report t hr, hl, ht, filterMap_concat, hx]
  rfl

theorem Level.unread (h : Level i id callbackId t w) (ha : a.Steers i)
    (hword : (Move.act a w).word? i = none) :
    Level i id callbackId (t ++ [.act a w]) (a.perform w).2 := by
  refine ⟨?_, h.2.act ha⟩
  have hfetched : fetched i (t ++ [.act a w]) = fetched i t ++ _ := filterMap_concat ..
  rw [told_act, hfetched, hword, Option.toList_none, List.append_nil]
  exact h.1

theorem Level.act (h : Level i id callbackId t w) (ha : a.Steers i) (hn : ¬ a.IsNext) :
    Level i id callbackId (t ++ [.act a w]) (a.perform w).2 :=
  h.unread ha (word?_of_not_isNext hn w)

theorem Level.report (h : Level i id callbackId t w) {r : Report} (hr : r.isNews = false) :
    Level i id callbackId (t ++ [.report r w]) (w.tell r).2 := by
  refine ⟨?_, h.2.tell r⟩
  have htold : told (t ++ [.report r w]) = told t := by simp [told, Move.news?, hr]
  rw [fetched_report, htold]
  exact h.1

theorem Level.look (h : Level i id callbackId t w) (j : Nat) :
    Level i id callbackId (t ++ [.act (.look j) w]) w :=
  h.act (a := .look j) (.inl trivial) fun h => h

theorem Owing.act (h : Owing i id callbackId x t w) (ha : a.Steers i) (hn : ¬ a.IsNext)
    (hpc : ∀ m s, (a.onto i m s).pc = s.pc) :
    Owing i id callbackId x (t ++ [.act a w]) (a.perform w).2 where
  told := by
    rw [told_act, fetched_act hn]
    exact h.told
  pc := Action.slot_perform_of (P := fun s => s.pc = Address.aligned (x.1 + 4)) h.pc
    ((hpc _ _).trans h.pc)
  named := h.named.act ha

theorem Owing.look (h : Owing i id callbackId x t w) (j : Nat) :
    Owing i id callbackId x (t ++ [.act (.look j) w]) w :=
  h.act (a := .look j) (.inl trivial) (fun h => h) fun _ _ => rfl

end Running

/-! ## A run beside others -/

namespace Process

open Engine

variable {α β : Type} {others : FrontEnd → FrontEnd → Prop} {i id : Nat} {callbackId : Int32}
  {x : Address × UInt32} {p : Process α}

theorem stable_level (ho : ∀ w v, others w v → LooksOn i w v) :
    Stable others (Level i id callbackId) :=
  fun _ _ _ h hw => ⟨hw.1, hw.2.other (ho _ _ h)⟩

theorem stable_owing (ho : ∀ w v, others w v → LooksOn i w v) :
    Stable others (Owing i id callbackId x) :=
  fun _ w v h hw => ⟨hw.told, (ho w v h).pc.trans hw.pc, hw.named.other (ho w v h)⟩

variable (ho : ∀ w v, others w v → LooksOn i w v)

include ho in
/-- **What is hushed and fetches nothing** leaves nothing outstanding. -/
theorem keeps_hushed (hp : Hushed p) (ha : Only (fun a => a.Steers i ∧ ¬ a.IsNext) p) :
    Keeps others (Level i id callbackId) p (InOrder i id callbackId)
      fun _ => Level i id callbackId := by
  intro t₀ w t q u hw hg
  have htold := goes_hushed hp hg
  have hmoves := (goes_only ha hg).1
  have hfetched : fetched i t = [] := by
    refine List.filterMap_eq_nil_iff.2 fun m hm => ?_
    cases m with
    | act a w => exact word?_of_not_isNext (hmoves _ hm).2 w
    | report r w => rfl
  have hnamed : Named i id callbackId u := by
    refine goes_kept (I := Named i id callbackId) (fun v u h hv => hv.other (ho v u h)) hg ?_ hw.2
    intro m hm hv
    cases m with
    | act a w => exact hv.act (hmoves _ hm).1
    | report r w => exact hv.tell r
  have hlevel : Level i id callbackId (t₀ ++ t) u := by
    refine ⟨?_, hnamed⟩
    rw [told_append, fetched_append, htold, hfetched, List.append_nil, List.append_nil]
    exact hw.1
  exact ⟨hlevel.inOrder, fun _ _ => hlevel⟩

theorem hushed_step {c : Command} {n : Nat} {cb : Int32} {pc next : Address}
    (h : c.tidings n cb pc next = none) : Hushed (Engine.step true i c) := by
  cases c with
  | nop => exact hushed_done _
  | jump arg => exact hushed_bind (hushed_jump ..) fun _ => trivial
  | branchHidden arg =>
    refine hushed_bind (hushed_perform _) fun visible => ?_
    cases visible with
    | true => exact hushed_done _
    | false => exact hushed_bind (hushed_jump ..) fun _ => trivial
  | call arg => exact hushed_bind (hushed_call ..) fun _ => trivial
  | ret => exact hushed_bind hushed_ret fun _ => trivial
  | stop arg => exact hushed_stop arg
  | signal behavior number =>
    dsimp only [Engine.step]
    split
    next hcalls => simp [Command.tidings, hcalls] at h
    next => exact hushed_done _
  | finish arg => cases h
  | base arg => exact fun _ _ => trivial
  | offset arg => exact fun _ _ => trivial
  | origin => exact fun _ _ _ => trivial
  | draw word => cases h

theorem only_fetchless (c : Command) :
    Only (fun a => a.Steers i ∧ ¬ a.IsNext) (Engine.step true i c) :=
  (only_steps true c).and ((only_obeys c).mono fun _ ha => ha.fetchless)

section Owing

variable {Q : α → Assertion} {r : Report}

include ho in
theorem keeps_owing_act {a : Action} {f : a.Answer → Process α} (ha : a.Steers i)
    (hn : ¬ a.IsNext) (hpc : ∀ m s, (a.onto i m s).pc = s.pc)
    (hf : ∀ y, Keeps others (Owing i id callbackId x) (f y) (InOrder i id callbackId) Q) :
    Keeps others (Owing i id callbackId x) (perform a >>= f) (InOrder i id callbackId) Q :=
  keeps_perform (stable_owing ho) (fun _ _ h => h.inOrder) fun _ _ hw =>
    (hf _).now (hw.act ha hn hpc)

include ho in
theorem keeps_owing_look {f : Slot → Process α}
    (hf : ∀ s : Slot, s.id = id → s.callbackId = callbackId → s.pc = Address.aligned (x.1 + 4) →
      Keeps others (Owing i id callbackId x) (f s) (InOrder i id callbackId) Q) :
    Keeps others (Owing i id callbackId x) (look i >>= f) (InOrder i id callbackId) Q :=
  keeps_perform (stable_owing ho) (fun _ _ h => h.inOrder) fun _ _ hw =>
    (hf _ hw.named.id hw.named.callbackId hw.pc).now (hw.look i)

include ho in
theorem keeps_owing_kind {f : Kind → Process α}
    (hf : Keeps others (Owing i id callbackId x) (f .builtin) (InOrder i id callbackId) Q) :
    Keeps others (Owing i id callbackId x) (perform .kind >>= f) (InOrder i id callbackId) Q := by
  refine keeps_perform (stable_owing ho) (fun _ _ h => h.inOrder) fun t w hw => ?_
  have hkind : (Action.kind.perform w).1 = .builtin := hw.named.kind
  rw [hkind]
  exact hf.now (hw.act (a := .kind) (.inl trivial) (fun h => h) fun _ _ => rfl)

include ho in
theorem keeps_owing_tell {f : Unit → Process α} (hr : reported id callbackId x = some r)
    (hnews : r.isNews = true)
    (hf : ∀ y, Keeps others (Level i id callbackId) (f y) (InOrder i id callbackId) Q) :
    Keeps others (Owing i id callbackId x) (tell r >>= f) (InOrder i id callbackId) Q :=
  keeps_tell (stable_owing ho) (fun _ _ h => h.inOrder) fun _ _ hw =>
    (hf ()).now (hw.report hr hnews)

include ho in
theorem keeps_level_done (y : α) :
    Keeps others (Level i id callbackId) (.done y) (InOrder i id callbackId)
      fun _ => Level i id callbackId :=
  keeps_stay (stable_level ho) (fun _ _ h => h.inOrder) fun _ _ h => h

end Owing

include ho in
/-- **The host is told of a word once.** -/
theorem keeps_step :
    Keeps others (Owing i id callbackId x) (Engine.step true i (Command.decode x.2))
      (InOrder i id callbackId) fun _ => Level i id callbackId := by
  have htidings : reported id callbackId x = (Command.decode x.2).tidings id callbackId
      (Address.aligned (x.1 + 4) - 4) (Address.aligned (x.1 + 4) + 4) := (tidings_decode ..).symm
  cases hr : reported id callbackId x with
  | none =>
    have hhushed := hushed_step (i := i) (htidings.symm.trans hr)
    exact (keeps_hushed ho hhushed (only_fetchless _)).pre fun _ _ h => h.level hr
  | some r =>
    rw [hr] at htidings
    cases hc : Command.decode x.2 with
    | draw word =>
      rw [hc] at htidings
      cases htidings
      refine keeps_owing_look ho fun s hid _ hpc => ?_
      rw [hid, hpc]
      exact keeps_owing_tell ho hr rfl fun _ => keeps_level_done ho _
    | finish arg =>
      rw [hc] at htidings
      cases htidings
      have hpc : ∀ m s, ((Action.change i .setFinished).onto i m s).pc = s.pc :=
        fun m s => by simp [Action.onto_change, Change.perform]
      refine keeps_owing_act (a := .change i .setFinished) ho (.inl ⟨rfl, trivial⟩) (fun h => h)
        hpc fun _ => ?_
      refine keeps_owing_act (a := .notify i .finished) ho (.inl ⟨rfl, rfl⟩) (fun h => h)
        (fun _ _ => rfl) fun _ => ?_
      refine keeps_owing_look ho fun s hid _ _ => ?_
      refine keeps_owing_look ho fun s' _ hcb hpc => keeps_owing_kind ho ?_
      rw [hid, hcb, hpc]
      exact keeps_owing_tell ho hr rfl fun _ => keeps_level_done ho _
    | signal behavior number =>
      rw [hc] at htidings
      dsimp only [Engine.step]
      split
      next hcalls =>
        simp only [Command.tidings, hcalls, if_true] at htidings
        cases htidings
        refine keeps_owing_look ho fun s hid _ _ => ?_
        refine keeps_owing_look ho fun s' _ hcb hpc => keeps_owing_kind ho ?_
        rw [hid, hcb, hpc]
        exact keeps_owing_tell ho hr rfl fun _ => keeps_level_done ho _
      next hcalls => simp [Command.tidings, hcalls] at htidings
    | _ =>
      rw [hc] at htidings
      cases htidings

/-! ## A run -/

/-- What is outstanding after an access that answers `r`. -/
def After (i id : Nat) (callbackId : Int32) : Except Failure UInt32 → Assertion
  | .ok word => fun t w => ∃ pc, Owing i id callbackId (pc, word) t w
  | .error _ => Level i id callbackId

theorem stable_after (ho : ∀ w v, others w v → LooksOn i w v) (r : Except Failure UInt32) :
    Stable others (After i id callbackId r) := by
  cases r with
  | error f => exact stable_level ho
  | ok word =>
    rintro t w v h ⟨pc, hw⟩
    exact ⟨pc, stable_owing ho t w v h hw⟩

theorem After.inOrder {r : Except Failure UInt32} {t : List Move} {w : FrontEnd}
    (h : After i id callbackId r t w) : InOrder i id callbackId t := by
  cases r with
  | error f => exact Level.inOrder h
  | ok word =>
    obtain ⟨pc, h⟩ := h
    exact h.inOrder

theorem steers_next : (Action.access i .next).Steers i :=
  .inl ⟨rfl, by simp⟩

theorem steers_nextWith {address : Address} {c : Cursor} (hc : Cursor.openAt address 4 = .ok c) :
    (Action.accessWith i address c .next).Steers i :=
  .inl ⟨rfl, by simp, hc⟩

theorem level_fetch {a : Action} {r : Except Failure UInt32} {t : List Move} {w : FrontEnd}
    (h : Level i id callbackId t w) (ha : a.Steers i)
    (hword : (Move.act a w).word? i = r.toOption.map ((w.slot i).pc, ·))
    (hpc : ∀ word, r = .ok word →
      ((a.perform w).2.slot i).pc = Address.aligned ((w.slot i).pc + 4)) :
    After i id callbackId r (t ++ [.act a w]) (a.perform w).2 := by
  have hfetched : fetched i (t ++ [.act a w]) =
      fetched i t ++ (r.toOption.map ((w.slot i).pc, ·)).toList := by
    rw [← hword]
    exact filterMap_concat ..
  cases r with
  | error f =>
    refine ⟨?_, h.2.act ha⟩
    rw [told_act, hfetched]
    simpa [Except.toOption] using h.1
  | ok word => exact ⟨_, ⟨_, hfetched, (told_act ..).trans h.1⟩, hpc word rfl, h.2.act ha⟩

theorem after_try {r : Except Failure UInt32} {s : Slot} {t : List Move} {w : FrontEnd}
    (h : Level i id callbackId t w)
    (hr : (w.slot i).tryAccess w.memory .next = (.inr r, s)) :
    After i id callbackId r (t ++ [.act (.access i .next) w]) (w.setSlot i s) := by
  have hp := perform_access hr
  have hword : (Move.act (.access i .next) w).word? i =
      r.toOption.map ((w.slot i).pc, ·) := by
    cases r <;> simp [Move.word?, hr, Except.toOption]
  have hafter := level_fetch h steers_next hword fun word hok => ?_
  · rwa [hp] at hafter
  · subst hok
    rw [hp, FrontEnd.slot_setSlot_self h.2.lt_size]
    exact Slot.pc_of_tryAccess hr

theorem after_found {address : Address} {c : Cursor} {r : Except Failure UInt32} {s : Slot}
    {t : List Move} {w : FrontEnd} (h : Level i id callbackId t w)
    (hc : Cursor.openAt address 4 = .ok c)
    (hr : (w.slot i).accessWith w.memory address c .next = (some r, s)) :
    After i id callbackId r (t ++ [.act (.accessWith i address c .next) w])
      (w.setSlot i s) := by
  have hp := perform_accessWith hr
  have hword : (Move.act (.accessWith i address c .next) w).word? i =
      r.toOption.map ((w.slot i).pc, ·) := by
    cases r <;> simp [Move.word?, hr, Except.toOption]
  have hafter := level_fetch h (steers_nextWith hc) hword fun word hok => ?_
  · rwa [hp] at hafter
  · subst hok
    rw [hp, FrontEnd.slot_setSlot_self h.2.lt_size]
    exact Slot.pc_of_accessWith hr

theorem tries_level : Tries i .next (Level i id callbackId) (After i id callbackId) where
  answered := after_try
  wanted {t w address} h hr := by
    have hlevel := h.unread steers_next (by simp [Move.word?, hr])
    rwa [perform_access hr, FrontEnd.setSlot_slot] at hlevel
  looked h := h.report rfl
  unmapped h := h
  found := after_found
  late {t w address c} h hc hr := by
    have hlevel := h.unread (steers_nextWith hc) (by simp [Move.word?, hr])
    rwa [perform_accessWith hr, FrontEnd.setSlot_slot] at hlevel

include ho in
/-- **A fetch** leaves the report about the word fetched outstanding. -/
theorem keeps_fetch : Keeps others (Level i id callbackId) (Operation.access i .next)
    (InOrder i id callbackId) (After i id callbackId) :=
  keeps_tries tries_level (stable_level ho) (stable_after ho) (fun _ _ h => h.inOrder)
    fun _ _ _ h => h.inOrder

include ho in
/-- **A round** leaves nothing outstanding. -/
theorem keeps_round : Keeps others (Level i id callbackId) (round true i)
    (InOrder i id callbackId) fun _ => Level i id callbackId := by
  have hstable : Stable others (Level i id callbackId) := stable_level ho
  have hinOrder : ∀ t w, Level i id callbackId t w → InOrder i id callbackId t :=
    fun _ _ h => h.inOrder
  rw [round_eq]
  refine keeps_perform hstable hinOrder fun t w hw => Keeps.now ?_ (hw.look i)
  split
  · exact keeps_level_done ho _
  refine keeps_perform hstable hinOrder fun t w hw => Keeps.now ?_ (hw.look i)
  split
  · have hdone : ∀ y : Unit ⊕ Except Failure Outcome, Keeps others (Level i id callbackId)
        (.done y) (InOrder i id callbackId) fun _ => Level i id callbackId :=
      fun y => keeps_level_done ho y
    refine keeps_perform hstable hinOrder fun t w hw => ?_
    refine Keeps.now ?_ (hw.act (a := .change i (.setStatus .stallReached)) (.inr ⟨_, rfl⟩)
      fun h => h)
    refine keeps_perform hstable hinOrder fun t w hw => ?_
    refine Keeps.now ?_ (hw.act (a := .await i) (.inl rfl) fun h => h)
    unfold waited
    split
    · refine keeps_perform hstable hinOrder fun t w hw => Keeps.now ?_ (hw.look i)
      split
      · exact hdone _
      · refine keeps_perform hstable hinOrder fun t w hw => ?_
        exact (hdone _).now (hw.act (a := .change i (.setStatus .drawing)) (.inr ⟨_, rfl⟩)
          fun h => h)
    · exact hdone _
  · refine keeps_bind (keeps_fetch ho) fun r => ?_
    cases r with
    | error f => exact keeps_level_done ho _
    | ok word =>
      refine keeps_iff.2 fun t w hw => ?_
      obtain ⟨pc, hw⟩ := hw
      refine Keeps.now ?_ hw
      exact keeps_bind (keeps_step ho) fun r =>
        keeps_hushed ho (hushed_settle r) (only_settle r)

include ho in
/-- **A run** tells the host of each word in order. -/
theorem keeps_running : Keeps others (Level i id callbackId) (execute true i)
    (InOrder i id callbackId) fun _ => Level i id callbackId := by
  have hstable : Stable others (Level i id callbackId) := stable_level ho
  have hinOrder : ∀ t w, Level i id callbackId t w → InOrder i id callbackId t :=
    fun _ _ h => h.inOrder
  have hrounds : Keeps others (Level i id callbackId) (change i (.setStatus .drawing) >>= fun _ =>
      iterate () fun _ => round true i) (InOrder i id callbackId)
      fun _ => Level i id callbackId := by
    refine keeps_perform hstable hinOrder fun t w hw => ?_
    refine Keeps.now ?_ (hw.act (a := .change i (.setStatus .drawing)) (.inr ⟨_, rfl⟩) fun h => h)
    refine keeps_iterate (I := fun _ => Level i id callbackId) (fun _ _ h => h) hinOrder hstable
      fun _ => (keeps_round ho).post fun y t w h => ?_
    cases y with
    | inl s => exact h
    | inr r => exact h
  refine keeps_perform hstable hinOrder fun t w hw => Keeps.now ?_ (hw.look i)
  split
  · exact keeps_level_done ho _
  refine keeps_perform hstable hinOrder fun t w hw => Keeps.now ?_ (hw.look i)
  split
  · refine keeps_perform hstable hinOrder fun t w hw => Keeps.now hrounds ?_
    exact hw.act (a := .change i (.setRestarted false)) (.inl ⟨rfl, trivial⟩) fun h => h
  · exact hrounds

/-! ## What should be told, and what is -/

variable {w₀ w u : FrontEnd} {t : List Move} {q : Process (Except Failure Outcome)}

theorem exists_of_mem_fetched (h : x ∈ fetched i t) :
    ∃ a m b, t = a ++ m :: b ∧ m.word? i = some x := by
  obtain ⟨m, hm, hx⟩ := List.mem_filterMap.1 h
  obtain ⟨a, b, rfl⟩ := List.append_of_mem hm
  exact ⟨a, m, b, rfl, hx⟩

theorem pc_of_word? {m : Move} (h : m.word? i = some x) : x.1 = (m.before.slot i).pc := by
  unfold Move.word? at h
  split at h
  · split at h
    · split at h
      · cases h
        rfl
      · cases h
    · cases h
  · split at h
    · split at h
      · cases h
        rfl
      · cases h
    · cases h
  · cases h

theorem aligned_of_fetched (hfresh : w₀.Fresh) (hreach : Relation.ReflTransGen Anybody w₀ w)
    {p q : Process α} (h : Goes Anybody p w t q u) (hx : x ∈ fetched i t) :
    Address.aligned x.1 = x.1 := by
  obtain ⟨a, m, b, rfl, hm⟩ := exists_of_mem_fetched hx
  obtain ⟨r, hr⟩ := goes_split h
  rw [pc_of_word? hm]
  exact (placed_reachable hfresh (hreach.trans hr.anybody) i).pc

theorem isMapped_of_word? {a : Action} (ha : a.Steers i) (hs : (w.slot i).Follows)
    (h : (Move.act a w).word? i = some x) : Memory.isMapped x.1 = true := by
  have hfetch : ∀ {word : UInt32} {s : Slot}, Slot.Fetched w.memory (w.slot i) (.ok word) s →
      Memory.isMapped (w.slot i).pc = true := by
    intro word s hf
    refine Classical.byContradiction fun hm => ?_
    have hanswer := hf.answer
    rw [Slot.fetch_unmapped hs.aligned (Bool.eq_false_iff.2 hm)] at hanswer
    cases hanswer
  have hpc : x.1 = (w.slot i).pc := pc_of_word? h
  rw [hpc]
  rcases ha with ha | ⟨status, rfl⟩
  · cases a with
    | access j a =>
      obtain ⟨rfl, -⟩ := ha
      cases a with
      | next =>
        cases hr : (w.slot j).tryAccess w.memory .next with
        | mk r s =>
        simp only [Move.word?, hr] at h
        split at h
        · exact hfetch (hs.tryAccess_next hr)
        · cases h
      | _ => cases h
    | accessWith j address c a =>
      obtain ⟨rfl, -, hc⟩ := ha
      cases a with
      | next =>
        cases hr : (w.slot j).accessWith w.memory address c .next with
        | mk r s =>
        simp only [Move.word?, hr] at h
        split at h
        · exact hfetch (hs.accessWith_next hc hr)
        · cases h
      | _ => cases h
    | _ => cases h
  · cases h

theorem tidy_of_steers {a : Action} (ha : a.Steers i) : a.Tidy := by
  rcases ha with ha | ⟨status, rfl⟩
  · cases a with
    | change j c =>
      cases c with
      | useCursor c => exact ha.2.elim
      | moveStallWith a w => exact ha.2.elim
      | _ => trivial
    | access j a =>
      cases a with
      | rewind n => exact absurd rfl (ha.2 n)
      | _ => trivial
    | accessWith j address c a =>
      cases a with
      | rewind n => exact absurd rfl (ha.2.1 n)
      | _ => exact ha.2.2
    | _ => trivial
  · trivial

theorem ne_last_of_fetched {p : Process α} {r : Process α} (hp : Only (Action.Steers i) p)
    (hfollows : ∀ v v', others v v' → (v.slot i).Follows → (v'.slot i).Follows)
    (hw : (w.slot i).Follows) (h : Goes others p w t r u) (hx : x ∈ fetched i t) :
    x.1 ≠ lastAddress := by
  obtain ⟨a, m, b, rfl, hm⟩ := exists_of_mem_fetched hx
  have hmoves := (goes_only hp h).1
  obtain ⟨r, hr⟩ := goes_split h
  have hbefore : (m.before.slot i).Follows := by
    refine goes_kept (I := fun v => (v.slot i).Follows) hfollows hr (fun m' hm' hv => ?_) hw
    have hsteers := hmoves m' (List.mem_append_left _ hm')
    cases m' with
    | act a v => exact Action.slot_perform_of hv (hv.onto (tidy_of_steers hsteers) i v.memory)
    | report r v =>
      change ((v.tell r).2.slot i).Follows
      rw [FrontEnd.slot_tell]
      exact hv
  have hsteers := hmoves m (by simp)
  cases m with
  | report r v => cases hm
  | act a v =>
    have hmapped := isMapped_of_word? hsteers hbefore hm
    intro hlast
    rw [hlast] at hmapped
    exact absurd hmapped (by decide)

end Process

/-- What is due for the words of the list at position `i`. -/
def FrontEnd.due (w : FrontEnd) (i : Nat) : Address × UInt32 → Option Report :=
  DisplayList.due (w.slot i).id (w.slot i).callbackId

open Process

variable {others : FrontEnd → FrontEnd → Prop} {i : Nat} {w₀ w u : FrontEnd} {t : List Move}
  {q : Process (Except Failure Outcome)}

/-- **When every word is accounted for.** In a run of a list, beside others who leave it where it
is, the host is told in order what is due for the words fetched, where only the last may be
outstanding: exactly if nothing is due for the words fetched at the last instruction address of all;
and so it is if the cursor of the list always follows the instruction address. -/
theorem told_iff (ho : ∀ v v', others v v' → LooksOn i v v') (hfresh : w₀.Fresh)
    (hreach : Relation.ReflTransGen Anybody w₀ w) (hi : i < w.slots.size)
    (hkind : w.kind = .builtin) (h : Goes others (Engine.execute true i) w t q u) :
    ∃ l : List (Address × UInt32),
      (fetched i t = l ∨ (∀ r, q ≠ .done r) ∧ ∃ x, fetched i t = l ++ [x]) ∧
      (told t = l.filterMap (w.due i) ↔ ∀ x ∈ l, x.1 = lastAddress → w.due i x = none) ∧
      ((w.slot i).Follows →
        (∀ v v', others v v' → (v.slot i).Follows → (v'.slot i).Follows) →
        told t = l.filterMap (w.due i)) := by
  have hlevel : Level i (w.slot i).id (w.slot i).callbackId [] w := ⟨rfl, hi, rfl, rfl, hkind⟩
  obtain ⟨horder, hdone⟩ := keeps_running ho hlevel h
  rw [List.nil_append] at horder hdone
  have haligned : ∀ x ∈ fetched i t, Address.aligned x.1 = x.1 := fun x hx =>
    aligned_of_fetched hfresh hreach (h.mono fun v v' hv => (ho v v' hv).anybody) hx
  -- What is told of the words in `l` is what is due if each of them is told of right.
  have haccount : ∀ l : List (Address × UInt32), (∀ x ∈ l, x ∈ fetched i t) →
      told t = l.filterMap (reported (w.slot i).id (w.slot i).callbackId) →
      (told t = l.filterMap (w.due i) ↔ ∀ x ∈ l, x.1 = lastAddress → w.due i x = none) ∧
      ((w.slot i).Follows →
        (∀ v v', others v v' → (v.slot i).Follows → (v'.slot i).Follows) →
        told t = l.filterMap (w.due i)) := by
    intro l hl ht
    have hiff : told t = l.filterMap (w.due i) ↔
        ∀ x ∈ l, x.1 = lastAddress → w.due i x = none := by
      have hsome : ∀ x, (reported (w.slot i).id (w.slot i).callbackId x).isSome =
          (w.due i x).isSome := fun x => isSome_tidings ..
      rw [ht, filterMap_eq_iff hsome]
      exact forall₂_congr fun x hx => reported_eq_due_iff (haligned x (hl x hx))
    refine ⟨hiff, fun hw hf => hiff.2 fun x hx hlast => ?_⟩
    exact absurd hlast (ne_last_of_fetched (only_execute true) hf hw h (hl x hx))
  rcases horder with hall | ⟨l, x, hl, ht⟩
  · exact ⟨_, .inl rfl, haccount _ (fun _ hx => hx) hall⟩
  · by_cases hq : ∃ r, q = .done r
    · obtain ⟨r, hr⟩ := hq
      exact ⟨_, .inl rfl, haccount _ (fun _ hx => hx) (hdone r hr).1⟩
    · have hmem : ∀ y ∈ l, y ∈ fetched i t := fun y hy => by rw [hl]; simp [hy]
      exact ⟨l, .inr ⟨fun r hr => hq ⟨r, hr⟩, x, hl⟩, haccount l hmem ht⟩

/-! ## A word at the last address -/

/-- A list is sent to the last address of all, and given a cursor for words somewhere else. -/
def sentToLast : List Action :=
  [.write 0x08800000 [0x21000005, 0x0F000007, 0x0C000000],
    .change 0 (.init ⟨0x08800000, 0, 9, none⟩), .change 0 (.moveTo lastAddress),
    .change 0 (.useCursor ⟨0x08800000, .word⟩)]

/-- The list before it runs. -/
def atLast : FrontEnd :=
  sentToLast.foldl (fun w a => (a.perform w).2) (Replay.frontEnd {})

theorem reach_foldl (as : List Action) (w : FrontEnd) :
    Relation.ReflTransGen Anybody w (as.foldl (fun w a => (a.perform w).2) w) := by
  induction as generalizing w with
  | nil => exact .refl
  | cons a as ih => exact .head (.act trivial w) (ih _)

theorem run_atLast : ∃ t r u, Goes Nobody (Engine.execute true 0) atLast t (.done r) u ∧
    fetched 0 t = [(lastAddress, 0x21000005), (0, 0x0F000007), (4, 0x0C000000)] ∧
    told t = [.command 0 0xFFFFFFFC 0x21000005, .finishCallback 9 0 8 7] := by
  have hrun : ((Engine.execute true 0).trace 60 atLast).map (fun x => (fetched 0 x.1, told x.1)) =
      some ([(lastAddress, 0x21000005), (0, 0x0F000007), (4, 0x0C000000)],
        [.command 0 0xFFFFFFFC 0x21000005, .finishCallback 9 0 8 7]) := by decide +kernel
  obtain ⟨⟨t, r, u⟩, ht, he⟩ := Option.map_eq_some_iff.1 hrun
  rw [Prod.mk.injEq] at he
  exact ⟨t, r, u, alone_of_trace ht, he⟩

theorem told_iff_atLast : (Replay.frontEnd {}).Fresh ∧
    Relation.ReflTransGen Anybody (Replay.frontEnd {}) atLast ∧ 0 < atLast.slots.size ∧
    atLast.kind = .builtin ∧
    ∃ t r u, Goes (LooksOn 0) (Engine.execute true 0) atLast t (.done r) u ∧
      (told t = (fetched 0 t).filterMap (atLast.due 0) ↔
        ∀ x ∈ fetched 0 t, x.1 = lastAddress → atLast.due 0 x = none) := by
  have hfresh : (Replay.frontEnd {}).Fresh := FrontEnd.fresh_of_slots rfl
  have hreach : Relation.ReflTransGen Anybody (Replay.frontEnd {}) atLast := reach_foldl _ _
  have hi : 0 < atLast.slots.size := by decide +kernel
  have hkind : atLast.kind = .builtin := by decide +kernel
  obtain ⟨t, r, u, hg, -⟩ := run_atLast
  have hgoes : Goes (LooksOn 0) (Engine.execute true 0) atLast t (.done r) u :=
    hg.mono fun _ _ ho => ho.elim
  obtain ⟨l, hl, hiff, -⟩ := told_iff (fun _ _ h => h) hfresh hreach hi hkind hgoes
  rcases hl with rfl | ⟨hr, -⟩
  · exact ⟨hfresh, hreach, hi, hkind, t, r, u, hgoes, hiff⟩
  · exact absurd rfl (hr r)

/-- **A word is told of with another address** than it was fetched at. -/
theorem told_wrapped : ∃ t r u, Goes (LooksOn 0) (Engine.execute true 0) atLast t (.done r) u ∧
    fetched 0 t = [(lastAddress, 0x21000005), (0, 0x0F000007), (4, 0x0C000000)] ∧
    told t ≠ (fetched 0 t).filterMap (atLast.due 0) := by
  obtain ⟨t, r, u, hg, hfetched, htold⟩ := run_atLast
  refine ⟨t, r, u, hg.mono fun _ _ ho => ho.elim, hfetched, ?_⟩
  rw [hfetched, htold]
  decide +kernel

end DisplayList

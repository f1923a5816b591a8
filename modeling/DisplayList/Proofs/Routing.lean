import DisplayList.Proofs.Sessions
import Mathlib.Data.List.Induction

/-!
# Lists behind a switch

A switch hands each list over as it is set at that time, and what was handed over before stays where
it is. So a list may come to a renderer while the engine still has it, from an earlier submission
that was cancelled and whose slot was used again.

* `renderer?`: the renderer to which a list was handed last;
* `Away`, **`Away.step`**: a list that the engine does not have comes to it only by being handed to
  it;
* **`kept_apart_iff`**: the engine leaves the lists of a renderer alone exactly if it never has one
  of them when it is handed over;
* `FrontEnd.heard`: what a renderer has heard; **`reset_reaches`**: whom a reset reaches.
-/

namespace DisplayList

open Process

/-! ## Lists handed over -/

/-- The renderer to which a list was handed last once the move is made, if it was `r` before. -/
def Move.renderer (i : Nat) (r : Option Renderer) : Move → Option Renderer
  | .act (.notify j (.submitted _)) w => if j = i then w.selected? else r
  | _ => r

/-- The renderer to which the list was handed last; none if it was the engine, or nobody. -/
def renderer? (i : Nat) (t : List Move) : Option Renderer :=
  t.foldl (Move.renderer i) none

@[simp] theorem renderer?_nil (i : Nat) : renderer? i [] = none := rfl

@[simp] theorem renderer?_snoc (i : Nat) (t : List Move) (m : Move) :
    renderer? i (t ++ [m]) = m.renderer i (renderer? i t) := by
  simp [renderer?]

/-- The list is handed to that renderer; to the engine if there is none. -/
def Move.HandsOver (i : Nat) (r : Option Renderer) (m : Move) : Prop :=
  ∃ p w, m = .act (.notify i (.submitted p)) w ∧ w.selected? = r

/-- The list whose words are accessed, if any are. -/
def Move.accessed? : Move → Option Nat
  | .act (.access i _) _ | .act (.accessWith i ..) _ => some i
  | _ => none

variable {i : Nat} {r : Renderer} {m : Move} {w u : FrontEnd} {s : Session}
  {t a b : List Move}

theorem Move.Tends.accessed {h : Option Nat} (hm : m.Tends h) (hi : m.accessed? = some i) :
    h = some i := by
  unfold Move.accessed? at hi
  split at hi
  · exact hm.trans hi
  · exact hm.trans hi
  · cases hi

theorem Move.HandsOver.renderer {r r₀ : Option Renderer} (h : m.HandsOver i r) :
    m.renderer i r₀ = r := by
  obtain ⟨p, w, rfl, rfl⟩ := h
  simp [Move.renderer]

/-- A list that is a renderer's after a move is not handed to the engine by it: it is handed to the
renderer, or was the renderer's before. -/
theorem Move.handsOver_of_renderer {r₀ : Option Renderer} (h : m.renderer i r₀ = some r) :
    ¬ m.HandsOver i none ∧ (m.HandsOver i (some r) ∨ r₀ = some r) := by
  refine ⟨fun hm => by simp [hm.renderer] at h, ?_⟩
  unfold Move.renderer at h
  split at h
  next j p w =>
    by_cases hj : j = i
    · subst hj
      simp only [if_true] at h
      exact .inl ⟨p, w, rfl, h⟩
    · simp only [hj, if_false] at h
      exact .inr h
  next => exact .inr h

/-! ## Lists that the engine does not have -/

/-- The engine has the list neither in its queue nor in hand. -/
structure Away (i : Nat) (t : List Move) (w : FrontEnd) : Prop where
  queue : i ∉ w.queue
  hand : inHand? t ≠ some i

namespace FrontEnd

theorem mem_queue_enqueue {j : Nat} {p : Placement} (h : i ∈ (w.enqueue j p).queue) :
    i ∈ w.queue ∨ i = j := by
  cases p with
  | tail =>
    simp only [enqueue, List.mem_append, List.mem_filter, List.mem_singleton] at h
    exact h.imp_left And.left
  | head =>
    simp only [enqueue, List.mem_cons, List.mem_filter] at h
    exact h.symm.imp_left And.left

theorem mem_queue_tellEngine {j : Nat} {n : Notice} (h : i ∈ (w.tellEngine j n).queue) :
    i ∈ w.queue ∨ (i = j ∧ ∃ p, n = .submitted p) := by
  cases n with
  | submitted p => exact (mem_queue_enqueue h).imp_right fun hj => ⟨hj, p, rfl⟩
  | reset => exact .inl (List.mem_of_mem_filter h)
  | _ => exact .inl h

@[simp] theorem queue_tellRenderer (j : Nat) (n : Notice) :
    (w.tellRenderer r j n).queue = w.queue := by
  obtain ⟨events, journal, h⟩ := tellRenderer_frame w j r n
  rw [h]

theorem notify_selected {j : Nat} {n : Notice} (hs : w.selected? = some r) (hn : n ≠ .reset) :
    w.notify j n = w.tellRenderer r j n := by
  unfold notify
  split
  next hb => simp [selected?, hb] at hs
  next hb =>
    simp only [selected?, hb, Option.some.injEq] at hs
    rw [hs]
  next =>
    rw [hs]
    cases n <;> first | rfl | exact absurd rfl hn

theorem notify_reset {j : Nat} {x : Option Renderer} (hb : w.backend = .switch x) :
    w.notify j .reset = (w.selected?.elim (w.withdraw j).2
      fun r => (w.withdraw j).2.tellRenderer r j .reset) := by
  simp only [notify, hb]
  cases w.selected? <;> rfl

theorem mem_queue_notify {j : Nat} {n : Notice} (h : i ∈ (w.notify j n).queue) :
    i ∈ w.queue ∨ (i = j ∧ w.selected? = none ∧ ∃ p, n = .submitted p) := by
  cases hs : w.selected? with
  | none =>
    rw [notify_builtin hs] at h
    exact (mem_queue_tellEngine h).imp_right fun ⟨hj, hn⟩ => ⟨hj, rfl, hn⟩
  | some r =>
    left
    by_cases hn : n = .reset
    · subst hn
      have hb : w.backend = .renderer r ∨ ∃ x, w.backend = .switch x := by
        unfold selected? at hs
        split at hs
        next => cases hs
        next hb =>
          cases hs
          exact .inl hb
        next x hb => exact .inr ⟨x, hb⟩
      rcases hb with hb | ⟨x, hb⟩
      · simpa [notify, hb] using h
      · rw [notify_reset hb, hs] at h
        simp only [Option.elim_some, queue_tellRenderer] at h
        exact List.mem_of_mem_filter h
    · rwa [notify_selected hs hn, queue_tellRenderer] at h

end FrontEnd

/-- **The engine comes to have a list** only if it is handed to it. -/
theorem Away.step (h : Away i t m.before) (ht : m.Tends (inHand? t)) (hm : ¬ m.HandsOver i none) :
    Away i (t ++ [m]) m.after := by
  have hsame : m.after.queue ⊆ m.before.queue → m.hand (inHand? t) = inHand? t →
      Away i (t ++ [m]) m.after := fun hq hhand =>
    ⟨fun hi => h.queue (hq hi), by rw [inHand?_snoc, hhand]; exact h.hand⟩
  cases m with
  | report m w =>
    obtain ⟨host, journal, hw⟩ := w.tell_frame m
    refine hsame ?_ rfl
    change (w.tell m).2.queue ⊆ w.queue
    simp [hw]
  | act x w =>
    cases x with
    | dequeue =>
      refine ⟨fun hi => h.queue (List.mem_of_mem_tail hi), ?_⟩
      rw [inHand?_snoc]
      exact fun hi => h.queue (List.mem_of_mem_head? hi)
    | enqueue j p =>
      -- The list that is put back was in hand.
      have hj : inHand? t = some j := ht
      refine ⟨fun hi => ?_, by simp [Move.hand]⟩
      rcases FrontEnd.mem_queue_enqueue hi with hi | rfl
      · exact h.queue hi
      · exact h.hand hj
    | withdraw j => exact hsame (List.filter_subset_self _) rfl
    | notify j n =>
      refine ⟨fun hi => ?_, by simpa [Move.hand] using h.hand⟩
      rcases FrontEnd.mem_queue_notify hi with hi | ⟨rfl, hs, p, rfl⟩
      · exact h.queue hi
      · exact hm ⟨p, w, rfl, hs⟩
    | write x ws =>
      obtain ⟨memory, hw⟩ := Action.write_frame w x ws
      refine hsame ?_ rfl
      change ((Action.write x ws).perform w).2.queue ⊆ w.queue
      simp [hw]
    | _ => exact hsame (List.Subset.refl _) rfl

/-! ## Traces taken apart -/

namespace Session.Trace

theorem last (h : Trace w (t ++ [m]) u) :
    Trace w t m.before ∧ m.Tends (inHand? t) ∧ u = m.after := by
  generalize ht : t ++ [m] = t' at h
  cases h with
  | nil => simp at ht
  | snoc h hm =>
    obtain ⟨rfl, he⟩ := List.append_inj' ht rfl
    cases he
    exact ⟨h, hm, rfl⟩

theorem left (h : Trace w (a ++ b) u) : ∃ v, Trace w a v := by
  induction b using List.reverseRecOn generalizing u with
  | nil => exact ⟨u, by simpa using h⟩
  | append_singleton b m ih =>
    rw [← List.append_assoc] at h
    exact ih h.last.1

theorem away (h : Trace w (a ++ b) u) (ha : ∀ v, Trace w a v → Away i a v)
    (hb : ∀ m ∈ b, ¬ m.HandsOver i none) : Away i (a ++ b) u := by
  induction b using List.reverseRecOn generalizing u with
  | nil =>
    rw [List.append_nil] at h ⊢
    exact ha u h
  | append_singleton b m ih =>
    rw [← List.append_assoc] at h ⊢
    obtain ⟨hab, hm, rfl⟩ := h.last
    have haway := ih hab fun m' hm' => hb m' (List.mem_append_left _ hm')
    exact haway.step hm (hb m (by simp))

end Session.Trace

/-! ## Lists of a renderer -/

/-- What is done to a list in a session while it is a renderer's: its words are not accessed, and
afterwards the engine has it neither in its queue nor in hand. -/
structure KeptApart (t : List Move) (m : Move) : Prop where
  access : ∀ i r, renderer? i t = some r → m.accessed? ≠ some i
  queue : ∀ i r, renderer? i (t ++ [m]) = some r → i ∉ m.after.queue
  hand : ∀ i r, renderer? i (t ++ [m]) = some r → inHand? (t ++ [m]) ≠ some i

/-- If the move hands a list to a renderer, the engine does not have it. -/
def HandsOverFreely (t : List Move) (m : Move) : Prop :=
  ∀ i r, m.HandsOver i (some r) → i ∉ m.before.queue ∧ inHand? t ≠ some i

/-- If no list is handed to a renderer while the engine has it, the engine has no list of a
renderer. -/
theorem Session.Trace.away_of_renderer (h : Trace w t u)
    (hfree : ∀ a m b, t = a ++ m :: b → HandsOverFreely a m)
    (hr : renderer? i t = some r) : Away i t u := by
  induction h with
  | nil => simp at hr
  | @snoc t m h hm ih =>
    rw [renderer?_snoc] at hr
    obtain ⟨hnone, hsome | hbefore⟩ := Move.handsOver_of_renderer hr
    · obtain ⟨hqueue, hhand⟩ := hfree t m [] rfl i r hsome
      exact Away.step ⟨hqueue, hhand⟩ hm hnone
    · refine (ih (fun a m' b hb => hfree a m' (b ++ [m]) ?_) hbefore).step hm hnone
      simp [hb]

/-- **The lists of a renderer.** In any session, the engine leaves each list alone that was handed
to a renderer last, exactly if no list is handed to a renderer while the engine has it. -/
theorem kept_apart_iff (hs : Relation.ReflTransGen Session.Step (.start w) s) :
    (∀ a m b, s.moves = a ++ m :: b → KeptApart a m) ↔
      ∀ a m b, s.moves = a ++ m :: b → HandsOverFreely a m := by
  have htrace := Session.trace hs
  have hsplit : ∀ {a m b}, s.moves = a ++ m :: b →
      Session.Trace w a m.before ∧ m.Tends (inHand? a) ∧ Session.Trace w (a ++ [m]) m.after := by
    intro a m b hb
    rw [hb, List.append_cons] at htrace
    obtain ⟨v, hv⟩ := htrace.left
    obtain ⟨ha, hm, -⟩ := hv.last
    exact ⟨ha, hm, ha.snoc hm⟩
  constructor
  · intro h a m b hb i r hm
    have hr : renderer? i (a ++ [m]) = some r := by rw [renderer?_snoc, hm.renderer]
    have hqueue := (h a m b hb).queue i r hr
    have hhand := (h a m b hb).hand i r hr
    obtain ⟨p, x, rfl, hx⟩ := hm
    have hsame : (x.notify i (.submitted p)).queue = x.queue := by
      rw [FrontEnd.notify_selected hx (by simp), FrontEnd.queue_tellRenderer]
    change i ∉ (x.notify i (.submitted p)).queue at hqueue
    rw [hsame] at hqueue
    exact ⟨hqueue, by simpa [Move.hand] using hhand⟩
  · intro h a m b hb
    obtain ⟨ha, hm, ham⟩ := hsplit hb
    have hbefore : ∀ i r, renderer? i a = some r → Away i a m.before := fun i r hr =>
      ha.away_of_renderer (fun a' m' b' hb' => h a' m' (b' ++ m :: b) (by simp [hb, hb'])) hr
    have hafter : ∀ i r, renderer? i (a ++ [m]) = some r → Away i (a ++ [m]) m.after :=
      fun i r hr => ham.away_of_renderer (fun a' m' b' hb' => h a' m' (b' ++ b) (by
        rw [hb, List.append_cons, hb']
        simp)) hr
    exact ⟨fun i r hr hi => (hbefore i r hr).hand (hm.accessed hi),
      fun i r hr => (hafter i r hr).queue, fun i r hr => (hafter i r hr).hand⟩

/-- A pool of one slot behind a switch, with a renderer that listens on a channel. -/
def switched : FrontEnd :=
  { slots := #[Slot.new 0], poolSize := 1, backend := .switch (some .channel) }

/-- A list of one word. -/
def oneWord : Submission := ⟨0x08800000, 0, 0, none⟩

/-- A list is reset before its slot is used for the renderer. -/
theorem kept_apart_iff_reset : ∃ s, Relation.ReflTransGen Session.Step (.start switched) s ∧
    renderer? 0 s.moves = some .channel ∧ s.state.queue = [] ∧
      ((∀ a m b, s.moves = a ++ m :: b → KeptApart a m) ↔
        ∀ a m b, s.moves = a ++ m :: b → HandsOverFreely a m) := by
  have hplay : ((Session.play 100 [.submit oneWord .tail, .reset 0, .route true,
      .submit oneWord .tail] ([], switched)).map fun x => (renderer? 0 x.1, x.2.queue)) =
        some (some .channel, []) := by decide +kernel
  obtain ⟨⟨t, u⟩, ht, he⟩ := Option.map_eq_some_iff.1 hplay
  obtain ⟨s, hs, rfl, rfl⟩ := Session.reach_of_play (s := .start switched) rfl
    (by simp [Request.OnSwitch, Request.Calls]) ht
  obtain ⟨hr, hqueue⟩ := Prod.mk.inj he
  exact ⟨s, hs, hr, hqueue, kept_apart_iff hs⟩

/-- The engine gets a list, which is cancelled, and its slot is used again for the renderer. -/
def cancelling : List Request :=
  [.write 0x08800000 [0x0C000000], .submit oneWord .tail, .setStatus 0 .cancelled, .route true,
    .submit oneWord .tail]

/-- The engine still has the list that was cancelled in its queue, and runs the list that was handed
to the renderer in its stead. -/
theorem renderer_list_run :
    (∃ s, Relation.ReflTransGen Session.Step (.start switched) s ∧
      renderer? 0 s.moves = some .channel ∧ 0 ∈ s.state.queue) ∧
    ∃ s a m b, Relation.ReflTransGen Session.Step (.start switched) s ∧ s.moves = a ++ m :: b ∧
      renderer? 0 a = some .channel ∧ m.accessed? = some 0 := by
  have hplay : ((Session.play 100 cancelling ([], switched)).map fun x =>
      (renderer? 0 x.1, x.2.queue)) = some (some .channel, [0]) := by decide +kernel
  -- By then 30 moves were made; the next one is the engine's, which fetches the list's word.
  have hrun : ((Session.play 100 (cancelling ++ [.run true]) ([], switched)).map fun x =>
      (renderer? 0 (x.1.take 30), x.1[30]?.bind Move.accessed?)) =
        some (some .channel, some 0) := by decide +kernel
  have hcalls : ∀ r ∈ cancelling ++ [.run true], r.OnSwitch ∨ ∃ watched, r = .run watched := by
    simp [cancelling, Request.OnSwitch, Request.Calls]
  have hearlier : ∀ r ∈ cancelling, r.OnSwitch ∨ ∃ watched, r = .run watched := fun r hr =>
    hcalls r (List.mem_append_left _ hr)
  constructor
  · obtain ⟨⟨t, u⟩, ht, he⟩ := Option.map_eq_some_iff.1 hplay
    obtain ⟨s, hs, rfl, rfl⟩ := Session.reach_of_play (s := .start switched) rfl hearlier ht
    simp only [Prod.mk.injEq] at he
    exact ⟨s, hs, he.1, by simp [he.2]⟩
  · obtain ⟨⟨t, u⟩, ht, he⟩ := Option.map_eq_some_iff.1 hrun
    obtain ⟨s, hs, rfl, rfl⟩ := Session.reach_of_play (s := .start switched) rfl hcalls ht
    obtain ⟨hr, hacc⟩ := Prod.mk.inj he
    obtain ⟨m, hm, hacc⟩ := Option.bind_eq_some_iff.1 hacc
    obtain ⟨hlt, rfl⟩ := List.getElem?_eq_some_iff.1 hm
    refine ⟨s, s.moves.take 30, s.moves[30], s.moves.drop 31, hs, ?_, hr, hacc⟩
    rw [← List.drop_eq_getElem_cons hlt, List.take_append_drop]

/-! ## Whom a reset reaches -/

/-- What a recorder heard. -/
def Entry.event? : Entry → Option Event
  | .heard e => some e
  | _ => none

namespace FrontEnd

/-- What the renderer has heard; of a channel, what nobody has taken yet. -/
def heard (w : FrontEnd) : Renderer → List Event
  | .channel => w.events.toList
  | .recorder _ => w.journal.toList.filterMap Entry.event?
  | .inert => []

/-- Whether it shows that the renderer hears something. -/
def attends (w : FrontEnd) : Renderer → Bool
  | .channel => w.listening
  | .recorder _ => true
  | .inert => false

theorem heard_tellRenderer {n : Notice} (hr : w.attends r = true) (hn : ∀ p, n ≠ .announced p)
    (j : Nat) :
    (w.tellRenderer r j n).heard r = w.heard r ++ [⟨n, (w.slot j).id, (w.slot j).stall⟩] := by
  have hcarried : ∀ e : Event, e.notice = n → e.isCarried = true := by
    rintro e rfl
    unfold Event.isCarried
    split
    next p he => exact absurd he (hn p)
    next => rfl
  cases r with
  | channel =>
    have hl : w.listening = true := hr
    simp [tellRenderer, heard, hl, hcarried]
  | recorder kind => simp [tellRenderer, heard, Entry.event?]
  | inert => cases hr

end FrontEnd

theorem Session.Trace.backend (h : Trace w t u) : u.backend = w.backend := by
  induction h with
  | nil => rfl
  | @snoc t m _ _ ih =>
    rw [← ih]
    cases m with
    | act a v => exact (Action.perform_settled a v).1
    | report m v =>
      obtain ⟨host, journal, hv⟩ := v.tell_frame m
      change (v.tell m).2.backend = v.backend
      rw [hv]

/-- **Whom a reset reaches.** A list is reset that the engine does not run. However the switch was
set when the list was submitted, and is set now, the engine does not have the list any more, and
does not come to have it until it is handed to it again. The renderer hears of the reset exactly if
the switch is set to it now. -/
theorem reset_reaches {x : FrontEnd} (hbackend : w.backend = .switch (some r))
    (hs : Relation.ReflTransGen Session.Step (.start w) s)
    (hreset : s.moves = a ++ [.act (.notify i .reset) x]) (hhand : inHand? a ≠ some i) :
    (∀ s' c, Relation.ReflTransGen Session.Step s s' → s'.moves = s.moves ++ c →
      (∀ m ∈ c, ¬ m.HandsOver i none) → i ∉ s'.state.queue ∧ inHand? s'.moves ≠ some i) ∧
    (x.attends r = true → s.state.heard r =
      if x.external then x.heard r ++ [⟨.reset, (x.slot i).id, (x.slot i).stall⟩]
      else x.heard r) := by
  obtain ⟨hx, -, hstate⟩ := (hreset ▸ Session.trace hs).last
  have hb : x.backend = .switch (some r) := hx.backend.trans hbackend
  have hselected : x.selected? = if x.external then some r else none := by
    simp only [FrontEnd.selected?, hb]
  have hafter : s.state = x.selected?.elim (x.withdraw i).2
      fun r => (x.withdraw i).2.tellRenderer r i .reset :=
    hstate.trans (FrontEnd.notify_reset hb)
  rw [hselected] at hafter
  have haway : Away i s.moves s.state := by
    refine ⟨?_, ?_⟩
    · rw [hafter]
      split <;> simp [FrontEnd.withdraw]
    · rw [hreset, inHand?_snoc]
      exact hhand
  constructor
  · intro s' c hs' hc hnone
    have htrace := Session.trace (hs.trans hs')
    rw [hc] at htrace
    have hnow : ∀ v, Session.Trace w s.moves v → Away i s.moves v := by
      intro v hv
      rw [hreset] at hv
      rwa [hv.last.2.2.trans hstate.symm]
    have haway' := htrace.away hnow hnone
    exact ⟨haway'.queue, hc ▸ haway'.hand⟩
  · intro hr
    rw [hafter]
    split
    · exact FrontEnd.heard_tellRenderer (w := (x.withdraw i).2) hr (by simp) i
    · cases r <;> rfl

/-- A list is reset after the switch was set to the renderer: the engine does not have it any more,
and the renderer hears of it. -/
theorem reset_reaches_both : ∃ s a x,
    Relation.ReflTransGen Session.Step (.start switched) s ∧
      s.moves = a ++ [.act (.notify 0 .reset) x] ∧ inHand? a ≠ some 0 ∧ x.queue = [0] ∧
      0 ∉ s.state.queue ∧
      s.state.heard .channel = x.heard .channel ++ [⟨.reset, (x.slot 0).id, (x.slot 0).stall⟩] := by
  have hplay : ((Session.play 100 [.submit oneWord .tail, .route true] ([], switched)).map
      fun x => (inHand? x.1, x.2.queue, x.2.external, x.2.listening)) =
        some (none, [0], true, true) := by decide +kernel
  obtain ⟨⟨t, u⟩, ht, he⟩ := Option.map_eq_some_iff.1 hplay
  simp only [Prod.mk.injEq] at he
  obtain ⟨hhand, hqueue, hexternal, hlistening⟩ := he
  obtain ⟨s, hs, rfl, rfl⟩ := Session.reach_of_play (s := .start switched) rfl
    (by simp [Request.OnSwitch, Request.Calls]) ht
  obtain ⟨calls, hreset⟩ := s.reach_reset 0
  have hnone : inHand? (s.moves ++ [.act (.change 0 .reset) s.state]) ≠ some 0 := by
    simp [Move.hand, hhand]
  obtain ⟨haway, hheard⟩ := reset_reaches (w := switched) rfl (hs.trans hreset) rfl hnone
  have hgone := (haway _ [] .refl (by simp) (by simp)).1
  exact ⟨_, _, _, hs.trans hreset, rfl, hnone, hqueue, hgone,
    (hheard hlistening).trans (if_pos hexternal)⟩

/-- A list was handed to the renderer, and the switch is set back before it is reset: the renderer
hears nothing. -/
theorem reset_unheard : ∃ s a x,
    Relation.ReflTransGen Session.Step (.start switched) s ∧
      s.moves = a ++ [.act (.notify 0 .reset) x] ∧ inHand? a ≠ some 0 ∧
      renderer? 0 a = some .channel ∧ x.attends .channel = true ∧
      s.state.heard .channel = x.heard .channel := by
  have hplay : ((Session.play 100 [.route true, .submit oneWord .tail, .route false]
      ([], switched)).map fun x => (inHand? x.1, renderer? 0 x.1, x.2.external, x.2.listening)) =
        some (none, some .channel, false, true) := by decide +kernel
  obtain ⟨⟨t, u⟩, ht, he⟩ := Option.map_eq_some_iff.1 hplay
  simp only [Prod.mk.injEq] at he
  obtain ⟨hhand, hr, hexternal, hlistening⟩ := he
  obtain ⟨s, hs, rfl, rfl⟩ := Session.reach_of_play (s := .start switched) rfl
    (by simp [Request.OnSwitch, Request.Calls]) ht
  obtain ⟨calls, hreset⟩ := s.reach_reset 0
  refine ⟨_, _, _, hs.trans hreset, rfl, by simp [Move.hand, hhand],
    by simpa [Move.renderer] using hr, hlistening, ?_⟩
  have hbackend : s.state.backend = .switch (some .channel) := (Session.trace hs).backend
  have hselected : s.state.selected? = none := by
    simp [FrontEnd.selected?, hbackend, hexternal]
  have hnotify := FrontEnd.notify_reset (w := ((Action.change 0 .reset).perform s.state).2) (j := 0)
    hbackend
  rw [show ((Action.change 0 .reset).perform s.state).2.selected? = none from hselected] at hnotify
  exact (congrArg (FrontEnd.heard · .channel) hnotify).trans rfl

end DisplayList

import DisplayList.Proofs.Submitting
import DisplayList.Proofs.Working

/-!
# Streaming

A list that is submitted with its first words and then handed over in parts comes to what it comes
to when it is submitted with all its words, whatever the turns of producer and worker are.

* `FrontEnd.Idle`, **`Idle.fed_accept`**: a list just submitted is one that is handed over in parts;
* **`gives_lead`**, **`alone_lead`**: loading the first words and submitting the list;
* `Matches`, **`streamed_eq_whole`**: streaming a list is running it in one go.
-/

namespace DisplayList

/-! ## A list just submitted -/

namespace Slot

variable {s : Slot} {sub : Submission} {start stop : Address}

theorem within_init (start : Address) (s : Slot) (sub : Submission) :
    (s.init sub).fetcher.Within start (s.init sub).pc := by
  have hs : Fetcher.Within start { s.clear with
      list := Address.aligned sub.list
      stall := Address.aligned sub.stall
      callbackId := sub.callbackId
      params := sub.params }.fetcher 0 := Fetcher.within_clear
  exact within_moveTo hs (Address.aligned sub.list)

/-- **A list just submitted** with some of its words is one that is handed over in parts. -/
theorem fed_init (ha : Address.aligned sub.stall = sub.stall)
    (hlow : start.toNat < sub.stall.toNat) (hhigh : sub.stall.toNat ≤ stop.toNat) :
    (s.init sub).Fed start stop := by
  have hf := follows_init s sub
  have hw := within_init start s sub
  obtain ⟨f, hm⟩ := init_frame s sub
  rw [hm] at hf hw ⊢
  rw [ha] at hf hw ⊢
  exact ⟨hf, hw, ha, hlow, hhigh, rfl, rfl⟩

theorem shown_init (s : Slot) (sub : Submission) (a : Address) :
    (s.init { sub with stall := a }).shown = (s.init sub).shown := by
  obtain ⟨f, hm⟩ := init_frame s sub
  obtain ⟨f', hm'⟩ := init_frame s { sub with stall := a }
  rw [hm, hm']
  rfl

end Slot

namespace FrontEnd

/-- The engine has nothing to do, and the host only listens. -/
structure Idle (w : FrontEnd) : Prop where
  builtin : w.selected? = none
  quiet : w.host.Quiet
  queue : w.queue = []
  closed : w.closed = false
  pool : w.poolSize ≤ w.slots.size

variable {w : FrontEnd} {i : Nat} {start stop : Address} {goal : Memory} {sub : Submission}

theorem Idle.withMemory (h : w.Idle) (m : Memory) : { w with memory := m }.Idle :=
  ⟨h.builtin, h.quiet, h.queue, h.closed, h.pool⟩

theorem Idle.queue_accept (h : w.Idle) : (w.accept i sub).queue = [i] := by
  change w.queue.filter (· != i) ++ [i] = [i]
  rw [h.queue]
  rfl

theorem slot_accept (hi : i < w.slots.size) : (w.accept i sub).slot i =
    { (w.slot i).init sub with wake := ((w.slot i).init sub).wake.post } := by
  change (w.setSlot i _).slot i = _
  rw [slot_setSlot_self hi]

theorem stall_accept (hi : i < w.slots.size) (ha : Address.aligned sub.stall = sub.stall) :
    ((w.accept i sub).slot i).stall = sub.stall := by
  obtain ⟨f, hf⟩ := (w.slot i).init_frame sub
  rw [slot_accept hi, hf]
  exact ha

theorem isDone_accept (hi : i < w.slots.size) : ((w.accept i sub).slot i).isDone = false := by
  rw [slot_accept hi]
  exact (w.slot i).isDone_init sub

@[simp] theorem size_accept (w : FrontEnd) (i : Nat) (sub : Submission) :
    (w.accept i sub).slots.size = w.slots.size := by
  unfold accept
  exact size_setSlot ..

/-- **A list just submitted** with some of its words is one that is handed over in parts. -/
theorem Idle.fed_accept (h : w.Idle) (hi : i < w.slots.size)
    (ha : Address.aligned sub.stall = sub.stall) (hlow : start.toNat < sub.stall.toNat)
    (hhigh : sub.stall.toNat ≤ stop.toNat)
    (hm : w.memory.AgreesOutside sub.stall.toNat stop.toNat goal) :
    (w.accept i sub).Fed i start stop goal := by
  have hstall := stall_accept hi ha
  refine ⟨?_, h.builtin, h.quiet, ?_, ?_, fun hc => ?_⟩
  · rw [size_accept]
    exact hi
  · rw [slot_accept hi]
    exact (Slot.fed_init ha hlow hhigh).congr rfl rfl rfl rfl rfl
  · rw [hstall]
    exact hm
  · have hopen : w.closed = true := hc
    rw [h.closed] at hopen
    cases hopen

theorem shown_accept (w : FrontEnd) (i : Nat) (sub : Submission) (m : Memory) (a : Address) :
    ({ w with memory := m }.accept i { sub with stall := a }).shown = (w.accept i sub).shown := by
  have hs : Slot.shown { (w.slot i).init { sub with stall := a } with wake := ⟨true⟩ } =
      Slot.shown { (w.slot i).init sub with wake := ⟨true⟩ } :=
    congrArg (fun s : Slot => { s with wake := {} }) ((w.slot i).shown_init sub a)
  have hw : { w with memory := m }.shown = w.shown := rfl
  exact congrArg (fun x : FrontEnd => x.enqueue i .tail) (setSlot_of_shown hw i hs)

end FrontEnd

/-! ## Loading the first words -/

namespace Replay

open Process Engine

variable {o : Options} {words first : List UInt32} {later : List Part} {w x : FrontEnd} {i : Nat}
  {m m₁ : Memory} {stop : Address} {t : List Move}

namespace Options

/-- Where the list begins. -/
def start (o : Options) : Address :=
  Address.aligned o.loadAddress

/-- The address after so many words of the list. -/
def after (o : Options) (words : List UInt32) : Address :=
  o.start + 4 * UInt32.ofNat words.length

/-- What the list is submitted with once the words before `stall` were loaded. -/
def submission (o : Options) (stall : Address) : Submission :=
  ⟨o.start, stall, o.callbackId, none⟩

/-- The front end once `words` were loaded, which made memory `m`, and the list was submitted with
them and accepted at position `i`. -/
def submitted (o : Options) (words : List UInt32) (i : Nat) (m : Memory) (w : FrontEnd) :
    FrontEnd :=
  { w with memory := m }.accept i (o.submission (o.after words))

end Options

theorem gives_load {a : Address} (hm : w.memory.writeWords a words = .ok m) :
    Gives (load a words) w (.ok (a + 4 * UInt32.ofNat words.length)) { w with memory := m } := by
  refine Gives.act (a := .write a words) ?_
  rw [Action.perform_write_ok hm]
  exact gives_done _ _

theorem gives_load_error {a : Address} {f : Memory.Fault}
    (hm : w.memory.writeWords a words = .error f) :
    Gives (load a words) w (.error (.load a f)) w := by
  refine Gives.act (a := .write a words) ?_
  rw [Action.perform_write_error hm]
  exact gives_done _ _

/-- **The list is submitted** with words that can be loaded. -/
theorem gives_lead (hw : w.Idle) (hi : i < w.slots.size)
    (hm : w.memory.writeWords o.start words = .ok m) (ha : w.accepts (o.submission 0) = .ok i) :
    Gives (lead o words) w (.ok (i, o.after words)) (o.submitted words i m w) := by
  have haccepts : { w with memory := m }.accepts (o.submission (o.after words)) = .ok i := ha
  have hbuiltin : { w with memory := m }.selected? = none := hw.builtin
  refine Gives.bind (gives_load hm) ?_
  exact Gives.bind (gives_submit hbuiltin hi haccepts) (gives_done _ _)

/-- **A list that was submitted** has its words in memory. -/
theorem alone_lead (hw : w.Idle) (h : Alone (lead o words) w t (.ok (i, stop)) x) :
    ∃ m, w.memory.writeWords o.start words = .ok m ∧ w.accepts (o.submission 0) = .ok i ∧
      stop = o.after words ∧ x = o.submitted words i m w := by
  cases hm : w.memory.writeWords o.start words with
  | error f =>
    have hgives : Gives (lead o words) w (.error (.load o.start f)) w :=
      Gives.bind (gives_load_error hm) (gives_done _ _)
    obtain ⟨t', h'⟩ := hgives
    obtain ⟨hr, -⟩ := h.unique h'
    cases hr
  | ok m =>
    cases ha : w.accepts (o.submission 0) with
    | error e =>
      have hrefuses : { w with memory := m }.accepts (o.submission (o.after words)) = .error e := ha
      have hgives : Gives (lead o words) w (.error (.submit e)) { w with memory := m } := by
        refine Gives.bind (gives_load hm) ?_
        exact Gives.bind (gives_submit_error hrefuses) (gives_done _ _)
      obtain ⟨t', h'⟩ := hgives
      obtain ⟨hr, -⟩ := h.unique h'
      cases hr
    | ok j =>
      have hj : j < w.slots.size := Nat.lt_of_lt_of_le (lt_of_accepts ha) hw.pool
      obtain ⟨t', h'⟩ := gives_lead hw hj hm ha
      obtain ⟨hr, hx⟩ := h.unique h'
      cases hr
      exact ⟨m, rfl, rfl, rfl, hx⟩

/-! ## The first words and the others -/

/-- A list that was loaded as a whole could have been loaded in parts: the words in `first`, which
makes memory `m₁`, and then the words in `later`, which makes it `m`. -/
structure Split (o : Options) (first : List UInt32) (later : List Part) (w : FrontEnd)
    (m₁ m : Memory) : Prop where
  spans : Spans o.start (o.after (first ++ later.flatMap Part.words))
  aligned : Address.aligned (o.after first) = o.after first
  low : o.start.toNat < (o.after first).toNat
  high : (o.after first).toNat + (bytesOf later).length =
    (o.after (first ++ later.flatMap Part.words)).toNat
  written : w.memory.writeWords o.start first = .ok m₁
  whole : m = m₁.pokeAll (o.after first).toNat (bytesOf later)

/-- **A list that was loaded as a whole.** -/
theorem split_of_writeWords (hfirst : first ≠ [])
    (h : w.memory.writeWords o.start (first ++ later.flatMap Part.words) = .ok m) :
    ∃ m₁, Split o first later w m₁ m := by
  have haligned : Address.aligned o.start = o.start := Address.aligned_aligned o.loadAddress
  have hpos := List.length_pos_iff.2 hfirst
  have hcount : (first ++ later.flatMap Part.words).length =
      first.length + (later.flatMap Part.words).length := List.length_append
  have hne : first ++ later.flatMap Part.words ≠ [] := fun he =>
    hfirst (List.append_eq_nil_iff.1 he).1
  obtain ⟨hspans, hstop⟩ := spans_of_writeWords haligned hne h
  have hfit : o.start.toNat + 4 * first.length ≤
      (o.start + 4 * UInt32.ofNat (first ++ later.flatMap Part.words).length).toNat := by omega
  obtain ⟨hafter, hstall⟩ := hspans.after haligned hfit
  have hlater : (bytesOf later).length = 4 * (later.flatMap Part.words).length := length_bytes _
  have hwritten := hspans.writeWords w.memory haligned (Nat.le_refl _) hfirst hfit
  have hwhole := hspans.writeWords w.memory haligned (Nat.le_refl _) hne (Nat.le_of_eq hstop.symm)
  rw [h] at hwhole
  refine ⟨_, hspans, hafter, ?_, ?_, hwritten, ?_⟩
  · change o.start.toNat < (o.start + 4 * UInt32.ofNat first.length).toNat
    omega
  · change (o.start + 4 * UInt32.ofNat first.length).toNat + (bytesOf later).length =
      (o.start + 4 * UInt32.ofNat (first ++ later.flatMap Part.words).length).toNat
    omega
  · rw [Except.ok.inj hwhole, List.flatMap_append, Memory.pokeAll_append, length_bytes, ← hstall]
    rfl

namespace Split

variable (h : Split o first later w m₁ m)

include h in
theorem agrees : m₁.AgreesOutside (o.after first).toNat
    (o.after (first ++ later.flatMap Part.words)).toNat m := by
  rw [h.whole, ← h.high]
  exact Memory.agreesOutside_pokeAll _ _ _

include h in
theorem holds : m.Holds (o.after first).toNat (bytesOf later) := by
  rw [h.whole]
  exact Memory.holds_pokeAll _ (h.spans.inside (Nat.le_of_lt h.low) (Nat.le_of_eq h.high))

include h in
theorem le : (o.after first).toNat ≤ (o.after (first ++ later.flatMap Part.words)).toNat := by
  have hhigh := h.high
  omega

end Split

/-! ## In one go and in parts -/

variable {ρ : Except Failure Outcome} {y u z : FrontEnd} {r s : Except Error (List Outcome)}

theorem stall_submitted (hi : i < w.slots.size)
    (ha : Address.aligned (o.after words) = o.after words) :
    ((o.submitted words i m w).slot i).stall = o.after words :=
  FrontEnd.stall_accept hi ha

theorem shown_submitted (o : Options) (i : Nat) (w : FrontEnd) (words words' : List UInt32)
    (m m' : Memory) : (o.submitted words i m w).shown = (o.submitted words' i m' w).shown := by
  have hshown := FrontEnd.shown_accept w i (o.submission 0) m (o.after words)
  have hshown' := FrontEnd.shown_accept w i (o.submission 0) m' (o.after words')
  exact hshown.trans hshown'.symm

namespace Split

variable (hw : w.Idle) (hi : i < w.slots.size) (h : Split o first later w m₁ m)

include hw hi h in
theorem wholeList : Whole i o.start (o.after (first ++ later.flatMap Part.words)) m
    { o.submitted (first ++ later.flatMap Part.words) i m w with closed := true } := by
  have hidle := hw.withMemory m
  have hagree : m.AgreesOutside (o.after (first ++ later.flatMap Part.words)).toNat
      (o.after (first ++ later.flatMap Part.words)).toNat m := fun _ _ => rfl
  have hfed : (o.submitted (first ++ later.flatMap Part.words) i m w).Fed i o.start
      (o.after (first ++ later.flatMap Part.words)) m :=
    hidle.fed_accept hi h.spans.aligned_stop h.spans.lt (Nat.le_refl _) hagree
  have hstall : ((o.submitted (first ++ later.flatMap Part.words) i m w).slot i).stall = _ :=
    stall_submitted hi h.spans.aligned_stop
  exact ⟨⟨hfed.size, hfed.builtin, hfed.quiet, hfed.slot, hfed.memory, fun _ => hstall⟩, rfl,
    hidle.queue_accept, FrontEnd.isDone_accept hi⟩

include hw hi h in
theorem waiting
    (hway : OnWay i o.start (o.after (first ++ later.flatMap Part.words)) m true ρ y 0 x)
    (hx : x.shown =
      { o.submitted (first ++ later.flatMap Part.words) i m w with queue := [] }.shown) :
    Waiting i o.start (o.after (first ++ later.flatMap Part.words)) m true ρ y 0
      (o.submitted first i m₁ w) := by
  have hidle := hw.withMemory m₁
  have hfed : (o.submitted first i m₁ w).Fed i o.start _ m :=
    hidle.fed_accept hi h.aligned h.low h.le h.agrees
  have hshown : { o.submitted first i m₁ w with queue := [] }.shown = x.shown := by
    rw [hx]
    exact congrArg (fun v : FrontEnd => { v with queue := [] }) (shown_submitted ..)
  have hmirrors : Mirrors i o.start _ m x { o.submitted first i m₁ w with queue := [] } :=
    ⟨hfed.congr rfl rfl hfed.quiet rfl rfl, hshown⟩
  exact ⟨hidle.queue_accept, FrontEnd.isDone_accept hi, x, hway.mono (Nat.zero_le _), hmirrors,
    Nat.zero_le _⟩

include hw hi h in
theorem handedOver : HandedOver i o.start (o.after (first ++ later.flatMap Part.words)) m
    (o.after first) [] (o.submitted first i m₁ w) := by
  refine ⟨all_nil, stall_submitted hi h.aligned, ?_, hw.closed⟩
  unfold Options.submitted
  rw [FrontEnd.size_accept]
  exact hi

end Split

/-- A run in parts has come to what the run in one go has come to. -/
structure Matches (i : Nat) (r : Except Error (List Outcome)) (u : FrontEnd)
    (s : Except Error (List Outcome)) (z : FrontEnd) : Prop where
  /-- Before it came to that the list may have stalled any number of times. -/
  outcomes : ∃ k, s = r.map (List.replicate k .stalled ++ ·)
  shown : z.shown = u.shown
  memory : ∀ n, z.memory.peek n = u.memory.peek n
  stall : (z.slot i).stall = (u.slot i).stall
  /-- A list that was paused may rest as one that has stalled. -/
  status : ∀ outcomes, r = .ok outcomes → .paused ∉ outcomes →
    (z.slot i).status = (u.slot i).status

theorem Worked.matches {start : Address} (hway : OnWay i start stop m true ρ y 0 x)
    (hmem : (leaving i ρ y).memory = m) (hstall : ((leaving i ρ y).slot i).stall = stop)
    (hz : z.closed = true) (h : Worked i start stop m ρ y s z) :
    Matches i (verdict ρ) (leaving i ρ y) s z := by
  obtain ⟨hk, hmirrors, hrests⟩ := h
  have hend := hmirrors.fed.closed hz
  refine ⟨hk, hmirrors.shown, fun n => ?_, hend.trans hstall.symm, fun outcomes hr hp => ?_⟩
  · have hagree := hmirrors.fed.memory n (by rw [hend]; omega)
    rw [hmem]
    exact hagree
  · have hy := hway.rests (Nat.zero_le _)
    match ρ, hrests, hy with
    | .error e, _, _ => cases hr
    | .ok (.ended f), hrests, hy => exact hrests.trans hy.symm
    | .ok .stalled, hrests, hy => exact hrests.trans hy.symm
    | .ok .paused, _, _ =>
      cases hr
      exact absurd (List.mem_singleton_self _) hp

theorem alone_close {start : Address} (hnear : Near i start t)
    (h : Alone (supply i stop [] >>= fun _ => work) x t r u) :
    ∃ t', Near i start t' ∧ Alone work { x with closed := true } t' r u := by
  obtain ⟨t', rfl, h'⟩ := alone_act.1 h
  refine ⟨t', Near.right (t := [.act .close x]) hnear fun m hm => ?_, h'⟩
  rw [List.mem_singleton.1 hm]
  rintro ⟨word, hf⟩
  cases hf

/-- **Streaming a list is running it in one go.** Take a list that runs, with all its words in
memory, without ever going on past words that it has not come to. Submit it with its first words,
and hand the others over in parts, with cursors or without, while it runs. Whatever the turns of
producer and worker are, and whichever waits are given up, the producer succeeds, and the worker
comes to the same in the end. -/
theorem streamed_eq_whole {t₀ : List Move} (hfirst : first ≠ [])
    (hlater : ∀ part ∈ later, part.Sound) (hw : w.Idle)
    (hlead : Alone (lead o (first ++ later.flatMap Part.words)) w t₀ (.ok (i, stop)) x)
    (hwork : Alone (supply i stop [] >>= fun _ => work) x t r u) (hnear : Near i o.start t) :
    ∃ v, Gives (lead o first) w (.ok (i, o.after first)) v ∧
      ∀ a s z, Together (supply i (o.after first) later) work v (.done a) (.done s) z →
        a = .ok () ∧ Matches i r u s z := by
  obtain ⟨m, hm, haccepts, rfl, rfl⟩ := alone_lead hw hlead
  obtain ⟨m₁, hsplit⟩ := split_of_writeWords hfirst hm
  have hi : i < w.slots.size := Nat.lt_of_lt_of_le (lt_of_accepts haccepts) hw.pool
  obtain ⟨t', hnear', hwork'⟩ := alone_close hnear hwork
  obtain ⟨ρ, y, x, hway, hx, hy, rfl, rfl⟩ := alone_work (hsplit.wholeList hw hi) hnear' hwork'
  refine ⟨_, gives_lead hw hi hsplit.written haccepts, fun a s z h => ?_⟩
  have hquiet : (o.submitted first i m₁ w).host.Quiet := hw.quiet
  obtain ⟨ha, hclosed, hworked⟩ := Together.streams hsplit.spans hlater hsplit.aligned
    (Nat.le_of_lt hsplit.low) hsplit.high hsplit.holds hquiet (hsplit.handedOver hw hi) hy
    (hsplit.waiting hw hi hway hx) h
  obtain ⟨hmem, hstall⟩ := alone_runs only_work hwork' i
  have hstop : ((o.submitted (first ++ later.flatMap Part.words) i m w).slot i).stall = _ :=
    stall_submitted hi hsplit.spans.aligned_stop
  exact ⟨ha, hworked.matches hway hmem (hstall.trans hstop) hclosed⟩

/-- A list of two words, FINISH and END, is streamed a word at a time. -/
theorem streamed_eq_whole_finished : ∃ i stop t₀ x t r u,
    Alone (lead {} [0x0F000001, 0x0C000000]) (frontEnd {}) t₀ (.ok (i, stop)) x ∧
      Alone (supply i stop [] >>= fun _ => work) x t r u ∧ Near i 0x08800000 t ∧
      ∃ v, Gives (lead {} [0x0F000001]) (frontEnd {}) (.ok (i, 0x08800004)) v ∧
        ∀ a s z,
          Together (supply i 0x08800004 [⟨[0x0C000000], none⟩]) work v (.done a) (.done s) z →
          a = .ok () ∧ Matches i r u s z := by
  have hidle : (frontEnd {}).Idle := ⟨rfl, ⟨rfl, rfl, rfl⟩, rfl, rfl, by decide +kernel⟩
  have hlater : ∀ part ∈ [(⟨[0x0C000000], none⟩ : Part)], part.Sound := by
    intro part hpart
    rw [List.mem_singleton.1 hpart]
    exact ⟨by decide, fun c hc => by cases hc⟩
  -- The run in one go, carried out.
  have hshot : ((lead {} [0x0F000001, 0x0C000000]).trace 300 (frontEnd {})).any fun x =>
      x.2.1.toOption.any fun y =>
        ((supply y.1 y.2 [] >>= fun _ => work).trace 80 x.2.2).any fun z =>
          isNear y.1 0x08800004 z.1 := by decide +kernel
  obtain ⟨⟨t₀, led, x⟩, hlead, hshot⟩ := (Option.any_eq_true _ _).1 hshot
  cases led with
  | error e => cases hshot
  | ok y =>
    obtain ⟨i, stop⟩ := y
    have hrest : ((supply i stop [] >>= fun _ => work).trace 80 x).any
        (fun z => isNear i 0x08800004 z.1) = true := hshot
    obtain ⟨⟨t, r, u⟩, hwork, hnear⟩ := (Option.any_eq_true _ _).1 hrest
    have hlead' := alone_of_trace hlead
    have hwork' := alone_of_trace hwork
    have hnear' : Near i 0x08800000 t := near_of_isNear hnear
    exact ⟨i, stop, t₀, x, t, r, u, hlead', hwork', hnear', streamed_eq_whole (o := {})
      (by decide) hlater hidle hlead' hwork' hnear'⟩

end Replay

end DisplayList

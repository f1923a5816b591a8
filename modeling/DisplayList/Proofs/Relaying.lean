import DisplayList.Proofs.Extending
import DisplayList.Proofs.Flat
import DisplayList.Proofs.Forward
import DisplayList.Proofs.Queueing
import DisplayList.Proofs.Routing

/-!
# Replays for the external renderer

With the external renderer a replay runs nothing: it loads the list chunk by chunk and tells the
renderer of the list and of each new stall address.

* **`fits_append`**, `HasRoom`, **`hasRoom_iff`**: a list finds room chunk by chunk exactly if it
  finds room as a whole;
* `stops`, **`stops_chunks`**: where the chunks of a list end;
* `Relayed`: the list as the renderer knows it; **`gives_lead_relayed`**, **`gives_feed_relayed`**:
  what the producer tells it;
* **`external_tells_stream`**: what such a replay comes to.
-/

namespace DisplayList

/-! ## Room for chunks -/

namespace Memory

variable {a : Address} {m n : Nat}

theorem Fits.after (ha : Address.aligned a = a) (hm : 0 < m) (h : Fits a (4 * m)) :
    Address.aligned (a + 4 * UInt32.ofNat m) = a + 4 * UInt32.ofNat m ∧
      (a + 4 * UInt32.ofNat m).toNat = a.toNat + 4 * m := by
  have hspot := spot_eq_fits a (4 * m)
  rw [if_pos h] at hspot
  obtain ⟨hspans, hafter⟩ := spans_of_spot ha hm hspot
  exact ⟨hspans.aligned_stop, hafter⟩

/-- **Words lie inside one region** exactly if the first of them do and the others do: right past a
region nothing is mapped. -/
theorem fits_append (ha : Address.aligned a = a) (hm : 0 < m) (hn : 0 < n) :
    Fits a (4 * (m + n)) ↔ Fits a (4 * m) ∧ Fits (a + 4 * UInt32.ofNat m) (4 * n) := by
  constructor
  · intro h
    have hall : Fits a (4 * m + 4 * n) := h.mono (by omega)
    exact ⟨h.mono (by omega), (hall.skip (by omega)).1⟩
  · rintro ⟨hfirst, hrest⟩
    obtain ⟨halign, hafter⟩ := hfirst.after ha hm
    obtain ⟨r, hr, hlow, hhigh, hend⟩ := hfirst
    rw [Address.canonical_of_aligned ha] at hlow hhigh hend
    -- The other words begin in the region of the first ones, or right past it.
    obtain ⟨r', hr', hend'⟩ := fits_iff.1 hrest
    have hin := (holds_iff halign).1 (holds_of_region hr')
    have hsame : r' = r := by
      rcases Nat.lt_or_ge r.last.toNat (a + 4 * UInt32.ofNat m).toNat with hpast | hhere
      · obtain ⟨-, hunmapped, hnext⟩ := r.unmapped_next
        have hright : a + 4 * UInt32.ofNat m = r.last + 1 := UInt32.toNat_inj.1 (by omega)
        rw [← hright, isMapped, hr'] at hunmapped
        cases hunmapped
      · have hheld : r.holds (a + 4 * UInt32.ofNat m) = true := (holds_iff halign).2 (by omega)
        have hof := region_of_holds hheld
        rw [hr'] at hof
        exact Option.some.inj hof
    subst hsame
    rw [Address.canonical_of_aligned halign] at hend'
    unfold Region.size at hend'
    refine ⟨r', hr, ?_⟩
    rw [Address.canonical_of_aligned ha]
    omega

theorem writeWords_iff {m : Memory} {words : List UInt32} :
    (∃ m', m.writeWords a words = .ok m') ↔ Fits a (4 * words.length) := by
  unfold writeWords
  rw [writeBytes_eq, length_bytes]
  by_cases h : Fits a (4 * words.length)
  · simp [h]
  · simp [h]

end Memory

namespace Replay

open Process Memory

variable {a b : Address} {size n : Nat} {words chunk : List UInt32} {chunks : List (List UInt32)}

/-- Each chunk finds room behind those before it, the first one at `a`. -/
def HasRoom (a : Address) : List (List UInt32) → Prop
  | [] => True
  | chunk :: rest => Fits a (4 * chunk.length) ∧ HasRoom (a + 4 * UInt32.ofNat chunk.length) rest

/-- **Chunks find room one after the other** exactly if they do as a whole. -/
theorem hasRoom_iff (ha : Address.aligned a = a) (hchunk : chunk ≠ [])
    (hrest : ∀ chunk ∈ chunks, chunk ≠ []) :
    HasRoom a (chunk :: chunks) ↔ Fits a (4 * (chunk ++ chunks.flatten).length) := by
  induction chunks generalizing a chunk with
  | nil =>
    rw [List.flatten_nil, List.append_nil]
    exact and_iff_left trivial
  | cons next rest ih =>
    have hnext : next ≠ [] := hrest next List.mem_cons_self
    have hpos := List.length_pos_iff.2 hchunk
    have hmore : 0 < (next ++ rest.flatten).length := by
      have := List.length_pos_iff.2 hnext
      rw [List.length_append]
      omega
    rw [List.flatten_cons, List.length_append, fits_append ha hpos hmore]
    refine and_congr_right fun hfits => ?_
    exact ih (hfits.after ha hpos).1 hnext fun c hc => hrest c (List.mem_cons_of_mem _ hc)

/-! ## Where the chunks end -/

/-- The address after each chunk, if the first one is at `a`. -/
def stops (a : Address) : List (List UInt32) → List Address
  | [] => []
  | chunk :: rest =>
    (a + 4 * UInt32.ofNat chunk.length) :: stops (a + 4 * UInt32.ofNat chunk.length) rest

/-- The address after `k` chunks of `size` words of a list of `n` words. -/
def stopAfter (a : Address) (size n k : Nat) : Address :=
  a + 4 * UInt32.ofNat (min (k * size) n)

theorem stopAfter_add (a : Address) (size n k : Nat) :
    stopAfter (stopAfter a size n 1) size (n - size) k = stopAfter a size n (k + 1) := by
  have hcount : min (1 * size) n + min (k * size) (n - size) = min ((k + 1) * size) n := by
    rw [Nat.add_mul]
    omega
  unfold stopAfter
  rw [← hcount, UInt32.ofNat_add, UInt32.mul_add, UInt32.add_assoc]

theorem stops_chunksUpTo (hsize : 0 < size) (hn : words.length ≤ n) :
    stops a (chunksUpTo size n words) =
      (List.range' 1 ((words.length + size - 1) / size)).map (stopAfter a size words.length) := by
  induction n generalizing a words with
  | zero =>
    have hnone : (words.length + size - 1) / size = 0 := Nat.div_eq_of_lt (by omega)
    rw [hnone]
    rfl
  | succ n ih =>
    cases words with
    | nil =>
      have hnone : (([] : List UInt32).length + size - 1) / size = 0 :=
        Nat.div_eq_of_lt (by rw [List.length_nil]; omega)
      rw [hnone]
      rfl
    | cons word rest =>
      have hpos : 0 < (word :: rest).length := Nat.zero_lt_succ _
      have hcut : chunksUpTo size (n + 1) (word :: rest) =
          (word :: rest).take size :: chunksUpTo size n ((word :: rest).drop size) := rfl
      rw [hcut]
      generalize word :: rest = words at hn hpos
      have hfirst : a + 4 * UInt32.ofNat (words.take size).length =
          stopAfter a size words.length 1 := by
        rw [List.length_take, stopAfter, Nat.one_mul]
      have hcount : (words.length + size - 1) / size =
          (words.length - size + size - 1) / size + 1 := by
        have hmore : words.length + size - 1 = words.length - 1 + size := by omega
        rw [hmore, Nat.add_div_right _ hsize]
        rcases Nat.lt_or_ge words.length size with hlast | hfull
        · rw [Nat.div_eq_of_lt (by omega), Nat.div_eq_of_lt (by omega)]
        · rw [Nat.sub_add_cancel hfull]
      have hshift : List.range' (1 + 1) ((words.length - size + size - 1) / size) =
          (List.range' 1 ((words.length - size + size - 1) / size)).map (· + 1) :=
        List.range'_succ_left
      rw [stops, hfirst, ih (by rw [List.length_drop]; omega), List.length_drop, hcount,
        List.range'_succ, List.map_cons, hshift, List.map_map]
      refine congrArg _ (List.map_congr_left fun k _ => ?_)
      exact stopAfter_add a size words.length k

/-- **Where the chunks of a list end.** -/
theorem stops_chunks (a : Address) (size : Nat) (words : List UInt32) :
    stops a (Replay.chunks size words) =
      (List.range' 1 ((words.length + max 1 size - 1) / max 1 size)).map
        (stopAfter a (max 1 size) words.length) :=
  stops_chunksUpTo (by omega) (Nat.le_refl _)

/-! ## What the renderer hears -/

variable {s : Settings} {o : Options} {w : FrontEnd} {es : List Event}

/-- Nothing was run, the list at position 0 may run up to `a`, and the renderer has heard `es`. -/
structure Relayed (a : Address) (es : List Event) (w : FrontEnd) : Prop where
  selected : w.selected? = some .channel
  listening : w.listening = true
  size : 0 < w.slots.size
  id : (w.slot 0).id = 0
  stall : (w.slot 0).stall = a
  status : (w.slot 0).status = .queued
  heard : w.events.toList = es
  journal : w.journal = #[]

namespace Relayed

variable (h : Relayed a es w)

include h in
theorem setSlot {x : Slot} (hid : x.id = 0) (hstall : x.stall = b) (hstatus : x.status = .queued) :
    Relayed b es (w.setSlot 0 x) := by
  have hslot : (w.setSlot 0 x).slot 0 = x := FrontEnd.slot_setSlot_self h.size
  refine ⟨h.selected, h.listening, ?_, ?_, ?_, ?_, h.heard, h.journal⟩
  · rw [FrontEnd.size_setSlot]
    exact h.size
  · rw [hslot, hid]
  · rw [hslot, hstall]
  · rw [hslot, hstatus]

include h in
theorem withMemory (m : Memory) : Relayed a es { w with memory := m } :=
  ⟨h.selected, h.listening, h.size, h.id, h.stall, h.status, h.heard, h.journal⟩

include h in
theorem notify_announced (p : Placement) : w.notify 0 (.announced p) = w := by
  rw [FrontEnd.notify_selected h.selected (by simp)]
  simp [FrontEnd.tellRenderer, Event.isCarried]

include h in
/-- **Of what is carried the renderer hears**, with the stall address of the list. -/
theorem notify {n : Notice} (hreset : n ≠ .reset) (hn : Event.isCarried ⟨n, 0, a⟩ = true) :
    Relayed a (es ++ [⟨n, 0, a⟩]) (w.notify 0 n) := by
  have htold : w.notify 0 n = { w with events := w.events.push ⟨n, 0, a⟩ } := by
    rw [FrontEnd.notify_selected h.selected hreset]
    unfold FrontEnd.tellRenderer
    simp only [h.id, h.stall, h.listening, hn, Bool.and_self, if_true]
  rw [htold]
  refine ⟨h.selected, h.listening, h.size, h.id, h.stall, h.status, ?_, h.journal⟩
  rw [Array.toList_push, h.heard]

end Relayed

theorem gives_stallMoved_relayed (h : Relayed a es w) :
    ∃ u, Gives (Operation.stallMoved 0) w () u ∧ Relayed a (es ++ [⟨.stallMoved, 0, a⟩]) u := by
  have htold := h.notify (n := .stallMoved) (by simp) rfl
  have hgives : Gives (Operation.stallMoved 0) w () ((w.notify 0 .stallMoved).setSlot 0
      { (w.notify 0 .stallMoved).slot 0 with
        wake := ((w.notify 0 .stallMoved).slot 0).wake.post }) :=
    Gives.act (Gives.act (gives_done _ _))
  exact ⟨_, hgives, htold.setSlot htold.id htold.stall htold.status⟩

/-- **A new stall address**: the renderer is told of it. -/
theorem gives_setStall_relayed (h : Relayed a es w) (hb : Address.aligned b = b) (hne : a ≠ b) :
    ∃ u, Gives (Operation.setStall 0 b) w () u ∧ Relayed b (es ++ [⟨.stallMoved, 0, b⟩]) u := by
  have hchange : (Action.change 0 (.moveStall b)).perform w =
      (true, w.setSlot 0 { w.slot 0 with stall := b }) := by
    have hstall : (w.slot 0).moveStall b = (true, { w.slot 0 with stall := b }) := by
      unfold Slot.moveStall
      rw [hb, if_neg (by rw [h.stall]; exact hne)]
    change (((w.slot 0).moveStall b).1, w.setSlot 0 ((w.slot 0).moveStall b).2) = _
    rw [hstall]
  have hmoved : Relayed b es (w.setSlot 0 { w.slot 0 with stall := b }) :=
    h.setSlot h.id rfl h.status
  obtain ⟨u, hgives, hu⟩ := gives_stallMoved_relayed hmoved
  refine ⟨u, ?_, hu⟩
  refine Gives.perform ?_
  rw [hchange]
  exact hgives

/-- **The later chunks**: each of them is written if it finds room, and then the renderer is told
where it ends. -/
theorem gives_feed_relayed (h : Relayed a es w) (ha : Address.aligned a = a)
    (hchunks : ∀ chunk ∈ chunks, chunk ≠ []) : ∃ r u, Gives (feed 0 a chunks) w r u ∧
      (r = .ok () ↔ HasRoom a chunks) ∧ (r = .ok () → ∃ b,
        Relayed b (es ++ (stops a chunks).map fun stop => ⟨.stallMoved, 0, stop⟩) u) := by
  induction chunks generalizing a es w with
  | nil =>
    refine ⟨.ok (), { w with closed := true }, Gives.act (gives_done _ _), ?_, fun _ => ⟨a, ?_⟩⟩
    · exact iff_of_true rfl trivial
    · rw [stops, List.map_nil, List.append_nil]
      exact ⟨h.selected, h.listening, h.size, h.id, h.stall, h.status, h.heard, h.journal⟩
  | cons chunk rest ih =>
    have hpos := List.length_pos_iff.2 (hchunks chunk List.mem_cons_self)
    cases hm : w.memory.writeWords a chunk with
    | error f =>
      refine ⟨.error (.load a f), w, Gives.bind (gives_load_error hm) (gives_done _ _), ?_, nofun⟩
      refine iff_of_false nofun fun hroom => ?_
      obtain ⟨m, hok⟩ := writeWords_iff (m := w.memory).2 hroom.1
      rw [hm] at hok
      cases hok
    | ok m =>
      have hfits : Fits a (4 * chunk.length) := writeWords_iff.1 ⟨m, hm⟩
      obtain ⟨hstop, hafter⟩ := hfits.after ha hpos
      have hne : a ≠ a + 4 * UInt32.ofNat chunk.length := by
        intro he
        rw [← he] at hafter
        omega
      obtain ⟨v, hgives, hv⟩ := gives_setStall_relayed (h.withMemory m) hstop hne
      obtain ⟨r, u, hrest, hroom, htold⟩ :=
        ih hv hstop fun c hc => hchunks c (List.mem_cons_of_mem _ hc)
      refine ⟨r, u, Gives.bind (gives_load hm) (Gives.bind hgives hrest), ?_, fun hr => ?_⟩
      · rw [hroom]
        exact (and_iff_right hfits).symm
      · obtain ⟨b, hb⟩ := htold hr
        refine ⟨b, ?_⟩
        rw [List.append_assoc] at hb
        exact hb

/-! ### The first chunk -/

theorem slot_frontEnd (s : Settings) (j : Nat) : (frontEnd s).slot j = Slot.new j := by
  by_cases hj : j < s.listCount
  · simp [FrontEnd.slot, frontEnd, hj]
  · simp [FrontEnd.slot, frontEnd, hj]

theorem size_frontEnd (s : Settings) : (frontEnd s).slots.size = s.listCount := by
  simp [frontEnd]

theorem accepts_frontEnd (hcount : 0 < s.listCount) (sub : Submission) :
    (frontEnd s).accepts sub = .ok 0 := by
  have hdone : ∀ j, ((frontEnd s).slot j).isDone = true := by
    intro j
    rw [slot_frontEnd]
    rfl
  have hbusy : (frontEnd s).isBusy (Address.aligned sub.list) sub.stack
      (List.range (frontEnd s).poolSize) = false := by
    simp [FrontEnd.isBusy, hdone]
  have hfree : (frontEnd s).firstFree (List.range (frontEnd s).poolSize) = some 0 := by
    obtain ⟨n, hn⟩ : ∃ n, (frontEnd s).poolSize = n + 1 := ⟨s.listCount - 1, by
      change s.listCount = _
      omega⟩
    rw [hn, FrontEnd.firstFree, List.range_succ_eq_map, List.find?_cons, hdone]
  rw [FrontEnd.accepts, hbusy, hfree]
  rfl

theorem selected_frontEnd (hs : s.external = true) :
    (frontEnd s).selected? = some .channel := by
  unfold FrontEnd.selected? frontEnd
  simp only [hs]
  rfl

theorem relayed_receive (hs : s.external = true) (hcount : 0 < s.listCount) (m : Memory)
    (sub : Submission) (hstall : Address.aligned sub.stall = sub.stall)
    (hne : Address.aligned sub.list ≠ Address.aligned sub.stall) :
    Relayed sub.stall [⟨.submitted .tail, 0, sub.stall⟩]
      ({ frontEnd s with memory := m }.receive 0 sub .tail) := by
  have hslot : { frontEnd s with memory := m }.slot 0 = Slot.new 0 := slot_frontEnd s 0
  unfold FrontEnd.receive
  rw [hslot]
  have hmade : ((Slot.new 0).init sub).id = 0 ∧ ((Slot.new 0).init sub).stall = sub.stall ∧
      ((Slot.new 0).init sub).status = .queued := by
    obtain ⟨f, hf⟩ := (Slot.new 0).init_frame sub
    rw [hf]
    exact ⟨rfl, hstall, if_neg hne⟩
  generalize (Slot.new 0).init sub = x at hmade
  obtain ⟨hid, hx, hstatus⟩ := hmade
  have hsize : 0 < { frontEnd s with memory := m }.slots.size :=
    Nat.lt_of_lt_of_eq hcount (size_frontEnd s).symm
  have hself : ({ frontEnd s with memory := m }.setSlot 0 x).slot 0 = x :=
    FrontEnd.slot_setSlot_self hsize
  -- The list before the renderer hears of it.
  have hready : Relayed sub.stall [] ({ frontEnd s with memory := m }.setSlot 0 x) := by
    refine ⟨selected_frontEnd hs, rfl, ?_, ?_, ?_, ?_, rfl, rfl⟩
    · rw [FrontEnd.size_setSlot]
      exact hsize
    · rw [hself, hid]
    · rw [hself, hx]
    · rw [hself, hstatus]
  have htold := hready.notify (n := .submitted .tail) (by simp) rfl
  unfold FrontEnd.start
  rw [hready.notify_announced]
  exact htold.setSlot hid hx hstatus

/-- **The first chunk**: the list is submitted with it, and the renderer is told of the list. -/
theorem gives_lead_relayed (hs : s.external = true) (hcount : 0 < s.listCount) (hwords : words ≠ [])
    (hfits : Fits o.start (4 * words.length)) : ∃ u,
      Gives (lead o words) (frontEnd s) (.ok (0, o.after words)) u ∧
        Relayed (o.after words) [⟨.submitted .tail, 0, o.after words⟩] u := by
  have hstart : Address.aligned o.start = o.start := Address.aligned_aligned o.loadAddress
  have hpos := List.length_pos_iff.2 hwords
  obtain ⟨hstop, hafter⟩ := hfits.after hstart hpos
  have hne : Address.aligned o.start ≠ Address.aligned (o.after words) := by
    intro he
    have hsame : o.start = o.after words := hstart.symm.trans (he.trans hstop)
    change (o.after words).toNat = _ at hafter
    rw [← hsame] at hafter
    omega
  obtain ⟨m, hm⟩ := (writeWords_iff (m := (frontEnd s).memory)).2 hfits
  have hsize : 0 < { frontEnd s with memory := m }.slots.size :=
    Nat.lt_of_lt_of_eq hcount (size_frontEnd s).symm
  have haccepts : { frontEnd s with memory := m }.accepts (o.submission (o.after words)) = .ok 0 :=
    accepts_frontEnd hcount _
  exact ⟨_, Gives.bind (gives_load hm) (Gives.bind (gives_receive hsize haccepts .tail)
    (gives_done _ _)), relayed_receive hs hcount m (o.submission (o.after words))
      hstop hne⟩

/-! ## The whole replay -/

/-- What the renderer hears of a list of `n` words that begins at `a` and is handed over in chunks of
`size` words. -/
def streamEvents (a : Address) (size n : Nat) : List Event :=
  ⟨.submitted .tail, 0, stopAfter a size n 1⟩ ::
    (List.range' 2 ((n + size - 1) / size - 1)).map fun k => ⟨.stallMoved, 0, stopAfter a size n k⟩

/-- How many words are handed over at a time. -/
def Options.chunkSize (o : Options) (words : List UInt32) : Nat :=
  max 1 (o.chunkWords.getD words.length)

theorem streamEvents_chunks {first : List UInt32}
    (h : Replay.chunks (o.chunkWords.getD words.length) words = first :: chunks) :
    streamEvents o.start (o.chunkSize words) words.length =
      ⟨.submitted .tail, 0, o.after first⟩ ::
        (stops (o.after first) chunks).map fun stop => ⟨.stallMoved, 0, stop⟩ := by
  have hstops := stops_chunks o.start (o.chunkWords.getD words.length) words
  rw [h] at hstops
  change o.after first :: stops (o.after first) chunks =
    (List.range' 1 ((words.length + o.chunkSize words - 1) / o.chunkSize words)).map
      (stopAfter o.start (o.chunkSize words) words.length) at hstops
  unfold streamEvents
  generalize (words.length + o.chunkSize words - 1) / o.chunkSize words = count at hstops ⊢
  cases count with
  | zero => cases hstops
  | succ count =>
    rw [List.range'_succ, List.map_cons] at hstops
    obtain ⟨hfirst, hrest⟩ := List.cons.inj hstops
    rw [hrest, hfirst, List.map_map]
    rfl

/-- **A replay for the renderer, alone.** -/
theorem gives_process (hs : s.external = true) (hcount : 0 < s.listCount) (hwords : words ≠ []) :
    ∃ r u, Gives (process true o words) (frontEnd s) r u ∧
      (r.isOk = true ↔ Fits o.start (4 * words.length)) ∧
      ∀ x, r = .ok x → x = (0, []) ∧
        ∃ b, Relayed b (streamEvents o.start (o.chunkSize words) words.length) u := by
  have hflat := flatten_chunks (o.chunkWords.getD words.length) words
  have hne : ∀ chunk ∈ Replay.chunks (o.chunkWords.getD words.length) words, chunk ≠ [] :=
    fun _ => ne_nil_of_mem_chunks
  unfold process
  cases hchunks : Replay.chunks (o.chunkWords.getD words.length) words with
  | nil =>
    rw [hchunks] at hflat
    exact absurd hflat.symm hwords
  | cons first rest =>
    rw [hchunks] at hne hflat
    have hnil : first ≠ [] := hne first List.mem_cons_self
    have hlater : ∀ chunk ∈ rest, chunk ≠ [] := fun c hc => hne c (List.mem_cons_of_mem _ hc)
    have hstart : Address.aligned o.start = o.start := Address.aligned_aligned o.loadAddress
    have hroom : HasRoom o.start (first :: rest) ↔ Fits o.start (4 * words.length) := by
      rw [hasRoom_iff hstart hnil hlater, ← hflat, List.flatten_cons]
    rw [← hroom]
    by_cases hfirst : Fits o.start (4 * first.length)
    · obtain ⟨v, hlead, hv⟩ := gives_lead_relayed hs hcount hnil hfirst
      obtain ⟨hstop, -⟩ := hfirst.after hstart (List.length_pos_iff.2 hnil)
      obtain ⟨r, u, hfeed, hrest, htold⟩ := gives_feed_relayed hv hstop hlater
      cases r with
      | error e =>
        refine ⟨.error e, u, Gives.bind hlead (Gives.bind hfeed (gives_done _ _)), ?_, nofun⟩
        refine iff_of_false nofun fun h => ?_
        cases hrest.2 h.2
      | ok x =>
        obtain ⟨b, hb⟩ := htold rfl
        refine ⟨.ok (0, []), u, Gives.bind hlead (Gives.bind hfeed (gives_done _ _)), ?_, ?_⟩
        · exact iff_of_true rfl ⟨hfirst, hrest.1 rfl⟩
        · rintro x hx
          cases hx
          refine ⟨rfl, b, ?_⟩
          rw [streamEvents_chunks hchunks]
          exact hb
    · cases hm : (frontEnd s).memory.writeWords o.start first with
      | ok m => exact absurd (writeWords_iff.1 ⟨m, hm⟩) hfirst
      | error f =>
        refine ⟨.error (.load o.start f), frontEnd s,
          Gives.bind (Gives.bind (gives_load_error hm) (gives_done _ _)) (gives_done _ _), ?_, nofun⟩
        exact iff_of_false nofun fun h => hfirst h.1

/-- What a replay for the renderer reports of a list: nothing was run, and the renderer was told of
the list and then of each new stall address. -/
structure Streamed (o : Options) (words : List UInt32) (r : Report) : Prop where
  outcomes : r.outcomes = []
  commands : r.commands = []
  callbacks : r.callbacks = []
  status : r.status = .queued
  events : r.events = (streamEvents o.start (o.chunkSize words) words.length).map Event.text

theorem only_process (o : Options) (words : List UInt32) :
    Only Action.LeavesHost (process true o words) := by
  unfold process
  cases Replay.chunks (o.chunkWords.getD words.length) words with
  | nil => trivial
  | cons first rest =>
    have hlead : Only Action.LeavesHost (lead o first) := by
      refine only_bind (only_load _ _) fun r => ?_
      cases r with
      | error e => trivial
      | ok stall =>
        refine only_bind (only_submission (fun _ ha => ha.leavesHost) (fun _ => trivial) .tail) fun r => ?_
        cases r with
        | error e => trivial
        | ok i => trivial
    refine only_bind hlead fun r => ?_
    cases r with
    | error e => trivial
    | ok x =>
      dsimp only
      rw [feed_eq]
      refine only_bind (only_supply _ _) fun r => ?_
      cases r with
      | error e => trivial
      | ok y => trivial

/-- **A replay for the renderer tells it of the list and of each new stall address**, and does nothing
else. It comes to its end, and what it comes to does not depend on the budget; it succeeds exactly if
the list lies inside one region. -/
theorem external_tells_stream (hwords : words ≠ []) (hs : s.external = true)
    (hcount : 0 < s.listCount) : ∃ r, (∃ budget, replay budget words s o = some r) ∧
      (∀ budget x, replay budget words s o = some x → x = r) ∧
      ((∃ report, r = .ok report) ↔ Fits o.start (4 * words.length)) ∧
      ∀ report, r = .ok report → Streamed o words report := by
  obtain ⟨r, u, ⟨t, halone⟩, hfits, htold⟩ := gives_process hs hcount hwords
  have hquiet : (frontEnd s).host.Quiet := ⟨rfl, rfl, rfl⟩
  obtain ⟨n, hn⟩ := run_of_alone hquiet (only_process o words) halone
  refine ⟨r.map fun x => report u x.1 x.2, ⟨n, ?_⟩, fun budget x hx => ?_, ?_, fun y hy => ?_⟩
  · unfold replay
    rw [hs, hn]
    rfl
  · unfold replay at hx
    rw [hs] at hx
    obtain ⟨⟨r', u'⟩, hrun, rfl⟩ := Option.map_eq_some_iff.1 hx
    cases run_unique hrun hn
    rfl
  · rw [← hfits]
    cases r with
    | error e => exact iff_of_false nofun nofun
    | ok x => exact iff_of_true ⟨_, rfl⟩ rfl
  · cases r with
    | error e => cases hy
    | ok x =>
      cases hy
      obtain ⟨rfl, b, hb⟩ := htold x rfl
      refine ⟨rfl, ?_, ?_, hb.status, ?_⟩
      · change commandsOf u.journal.toList = []
        rw [hb.journal]
        rfl
      · change u.journal.toList.filterMap callbackText? = []
        rw [hb.journal]
        rfl
      · change u.events.toList.map Event.text = _
        rw [hb.heard]

/-- Chunks of two words, loaded at an alias of the address and off its boundary. -/
def byTwos : Options where
  loadAddress := 0x48800007
  chunkWords := some 2

/-- Of five words the renderer hears three times, the last time of a chunk of one word. -/
theorem external_tells_stream_fifth : ∃ budget report,
    replay budget [1, 2, 3, 4, 5] { external := true } byTwos = some (.ok report) ∧
      report.outcomes = [] ∧ report.status = .queued ∧
      report.events = ["started list=0 placement=Tail", "stall list=0 addr=0x08800014",
        "stall list=0 addr=0x08800018"] := by
  have hfits : Fits byTwos.start (4 * [1, 2, 3, 4, 5].length) := by decide
  obtain ⟨r, ⟨n, hn⟩, -, hok, htold⟩ := external_tells_stream (o := byTwos) (s := { external := true })
    (List.cons_ne_nil 1 [2, 3, 4, 5]) rfl (by decide)
  obtain ⟨report, rfl⟩ := hok.2 hfits
  have hstreamed := htold report rfl
  refine ⟨n, report, hn, hstreamed.outcomes, hstreamed.status, hstreamed.events.trans ?_⟩
  decide +kernel

end Replay

end DisplayList

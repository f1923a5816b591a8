import DisplayList.Proofs.Loading
import DisplayList.Proofs.Peeking
import DisplayList.Proofs.Positions

/-!
# Moving a cursor back

A list can be moved back over words that it has fetched, so that it fetches them again. Its cursor
is moved, and nothing else of it. A move has less than 2^31 elements, and a rewind of more words is
one of 2^31 - 1: as addresses wrap around, that leads one word forwards.

* `Cursor.rewound`, **`rewound_eq_iff`**, **`rewound_rewound_iff`**: the rewinds that move the
  cursor by as many words as are asked for, and those that add up;
* `Cursor.readEach_drop`, `readEach_le`: the last words that were read, and how many there may be;
* `FrontEnd.withCursor`, **`gives_rewind`**: what a rewind of a list comes to;
* `FetchesEach`, **`reads_of_fetches`**, **`fetches_of_reads`**: fetches one after the other are
  reads through one cursor; `fetches_rewound`: those after a rewind;
* **`rewinds_iff`**: the law of rewinds; **`rewound_forwards`**: one that moves the cursor on.
-/

namespace DisplayList

open Process Operation

/-! ## Cursors moved back -/

namespace Cursor

variable {a : Address} {c : Cursor} {m : Memory}

/-- The cursor moved back by `n` words, or by as many as one move has. -/
def rewound (c : Cursor) (n : UInt32) : Cursor :=
  c.advance (-(min n.toNat Slot.longestMove : Nat))

theorem toNat_advance_word (a : Address) (n : Int) :
    (((Cursor.mk a .word).advance n).address.toNat : Int) = (a.toNat + n * 4) % 2 ^ 32 :=
  toNat_advance _ _

theorem advance_eq_advance_iff {n k : Int} :
    (Cursor.mk a .word).advance n = (Cursor.mk a .word).advance k ↔ (n - k) % 2 ^ 30 = 0 := by
  have hn := toNat_advance_word a n
  have hk := toNat_advance_word a k
  have haddress : (Cursor.mk a .word).advance n = (Cursor.mk a .word).advance k ↔
      ((Cursor.mk a .word).advance n).address = ((Cursor.mk a .word).advance k).address :=
    ⟨congrArg Cursor.address, fun h => congrArg (Cursor.mk · Width.word) h⟩
  rw [haddress, ← UInt32.toNat_inj]
  omega

theorem mk_sub_eq (a : Address) (n : UInt32) :
    Cursor.mk (a - 4 * n) .word = (Cursor.mk a .word).advance (-(n.toNat : Int)) := by
  have haddress : a - 4 * n = ((Cursor.mk a .word).advance (-(n.toNat : Int))).address := by
    have hn := toNat_advance_word a (-(n.toNat : Int))
    have h4 : (4 : UInt32).toNat = 4 := rfl
    have := a.toNat_lt
    rw [← UInt32.toNat_inj, UInt32.toNat_sub, UInt32.toNat_mul, h4]
    omega
  exact congrArg (Cursor.mk · Width.word) haddress

theorem rewound_mk (a : Address) (n : UInt32) :
    (Cursor.mk a .word).rewound n = ⟨a - 4 * min n 0x7FFFFFFF, .word⟩ := by
  have hmin : (min n 0x7FFFFFFF).toNat = min n.toNat Slot.longestMove := by
    change (if n ≤ 0x7FFFFFFF then n else 0x7FFFFFFF).toNat = _
    simp only [apply_ite UInt32.toNat, UInt32.le_iff_toNat_le]
    rfl
  rw [mk_sub_eq, rewound, hmin]

/-- **The rewinds that are exact**: those that one move can make, and those by one word less than a
multiple of 2^30 words, which lead where the longest move leads. -/
theorem rewound_eq_iff {n : UInt32} : (Cursor.mk a .word).rewound n = ⟨a - 4 * n, .word⟩ ↔
    n.toNat < 2 ^ 31 ∨ n.toNat % 2 ^ 30 = 2 ^ 30 - 1 := by
  rw [mk_sub_eq, rewound, advance_eq_advance_iff, Slot.longestMove]
  omega

/-- **The rewinds that add up.** -/
theorem rewound_rewound_iff {k n : UInt32} (h : k.toNat + n.toNat < 2 ^ 32) :
    ((Cursor.mk a .word).rewound k).rewound n = (Cursor.mk a .word).rewound (k + n) ↔
      k.toNat + n.toNat < 2 ^ 31 ∨
      k.toNat < 2 ^ 31 ∧ n.toNat < 2 ^ 31 ∧ (k.toNat + n.toNat) % 2 ^ 30 = 2 ^ 30 - 1 ∨
      2 ^ 31 ≤ k.toNat ∧ n.toNat % 2 ^ 30 = 0 ∨ 2 ^ 31 ≤ n.toNat ∧ k.toNat % 2 ^ 30 = 0 := by
  unfold rewound
  rw [advance_advance, advance_eq_advance_iff, UInt32.toNat_add, Nat.mod_eq_of_lt h,
    Slot.longestMove]
  omega

/-! ## The last words read -/

theorem readEach_drop {k j : Nat} {ws : List UInt32} {d : Cursor}
    (h : c.readEach m (k + j) = .ok (ws, d)) :
    (c.advance k).readEach m j = .ok (ws.drop k, d) := by
  induction k generalizing c ws with
  | zero => simpa [advance_zero] using h
  | succ k ih =>
    rw [Nat.succ_add] at h
    obtain ⟨x, xs, rfl, -, hxs⟩ := readEach_succ_iff.1 h
    have hrest := ih hxs
    rw [advance_advance, Int.add_comm] at hrest
    exact hrest

theorem fits_of_read {x : UInt32 × Cursor} (h : c.read m = .ok x) :
    Memory.Fits c.address c.width.bytes := by
  by_contra hfits
  rw [Cursor.read, Memory.read, Memory.readBytes_eq_peek, Memory.spot_eq_fits, if_neg hfits] at h
  cases h

/-- Words that are read one after the other have an end: a cursor over words that goes through all
addresses comes to one below the first region. -/
theorem readEach_le {n : Nat} {ws : List UInt32} {d : Cursor}
    (h : (Cursor.mk a .word).readEach m n = .ok (ws, d)) : n ≤ 2 ^ 30 := by
  by_contra hn
  obtain ⟨k, hk, hlow⟩ : ∃ k : Nat, k < n ∧
      ((Cursor.mk a .word).advance k).address.toNat = a.toNat % 4 := by
    refine ⟨(2 ^ 30 - a.toNat / 4) % 2 ^ 30, by omega, ?_⟩
    have haddress := toNat_advance_word a ((2 ^ 30 - a.toNat / 4) % 2 ^ 30 : Nat)
    have := a.toNat_lt
    omega
  have hsplit : n = k + (n - k - 1 + 1) := by omega
  rw [hsplit] at h
  obtain ⟨x, xs, -, hread, -⟩ := readEach_succ_iff.1 (readEach_drop h)
  obtain ⟨r, -, hfirst, -, -⟩ := fits_of_read hread
  rw [Address.toNat_canonical, hlow] at hfirst
  have hr : 4 ≤ r.first.toNat := by
    cases r <;> decide
  omega

end Cursor

/-! ## Rewinds of a list -/

/-- The front end with the cursor of a list replaced by `c`. -/
def FrontEnd.withCursor (w : FrontEnd) (i : Nat) (c : Cursor) : FrontEnd :=
  w.setSlot i { w.slot i with fetcher := (w.slot i).fetcher.setCursor c }

section Rewinding

variable {i : Nat} {w u v : FrontEnd} {c d : Cursor} {n : UInt32} {word : UInt32}

theorem lt_size_of_cursor (h : (w.slot i).fetcher.cursor? = some c) : i < w.slots.size := by
  by_contra hi
  rw [FrontEnd.slot_of_le w i (by omega)] at h
  cases h

theorem cursor_withCursor (h : (w.slot i).fetcher.cursor? = some c) (d : Cursor) :
    ((w.withCursor i d).slot i).fetcher.cursor? = some d := by
  rw [FrontEnd.withCursor, FrontEnd.slot_setSlot_self (lt_size_of_cursor h)]
  exact Fetcher.cursor_setCursor h d

theorem withCursor_inj (h : (w.slot i).fetcher.cursor? = some c) {d d' : Cursor} :
    w.withCursor i d = w.withCursor i d' ↔ d = d' := by
  constructor
  · intro he
    have hd := cursor_withCursor h d
    rw [he, cursor_withCursor h d'] at hd
    exact (Option.some.inj hd).symm
  · intro he
    rw [he]

theorem withCursor_withCursor (h : (w.slot i).fetcher.cursor? = some c) (d d' : Cursor) :
    (w.withCursor i d).withCursor i d' = w.withCursor i d' := by
  have hfetcher : ∀ f : Fetcher, (f.setCursor d).setCursor d' = f.setCursor d' := by
    rintro ⟨source, window, found⟩
    cases source <;> cases window <;> rfl
  unfold FrontEnd.withCursor
  rw [FrontEnd.slot_setSlot_self (lt_size_of_cursor h), FrontEnd.setSlot_setSlot]
  dsimp only
  rw [hfetcher]

/-- **A rewind** moves the cursor of the list, and nothing else. -/
theorem gives_rewind (h : (w.slot i).fetcher.cursor? = some c) (n : UInt32) :
    Gives (access i (.rewind n)) w (.ok ()) (w.withCursor i (c.rewound n)) := by
  have haccess : (w.slot i).access w.memory (.rewind n) = (.ok (),
      { w.slot i with fetcher := (w.slot i).fetcher.setCursor (c.rewound n) }) := by
    unfold Slot.access
    rw [h]
    rfl
  have hgives := gives_at_hand (a := .rewind n) (Fetcher.wanted_of_cursor h (w.slot i).pc)
  rw [haccess] at hgives
  exact hgives

/-! ## Fetches one after the other -/

/-- **An access** is one through a cursor, that at hand if there is one, or it fails as no cursor is
found. -/
theorem gives_access (w : FrontEnd) (i : Nat) (a : Slot.Access) : ∃ host journal,
    (∃ (s : Slot) (c : Cursor), s.fetcher.cursor? = some c ∧
      (∀ d, (w.slot i).fetcher.cursor? = some d → d = c) ∧
      Gives (access i a) w (s.access w.memory a).1
        ({ w with host, journal }.setSlot i (s.access w.memory a).2)) ∨
    ∃ f, Gives (access i a) w (.error f) { w with host, journal } := by
  cases hw : (w.slot i).fetcher.wanted (w.slot i).pc with
  | none =>
    obtain ⟨c, hc⟩ := Fetcher.cursor_of_wanted hw
    refine ⟨w.host, w.journal, .inl ⟨w.slot i, c, hc, fun d hd => ?_, gives_at_hand hw⟩⟩
    exact Option.some.inj (hd.symm.trans hc)
  | some x =>
    obtain ⟨host, journal, htell⟩ := w.tell_frame (.cursor x 4)
    refine ⟨host, journal, ?_⟩
    cases hopen : Cursor.openAt x 4 with
    | error f => exact .inr ⟨_, htell ▸ gives_unmapped hw hopen⟩
    | ok c =>
      refine .inl ⟨(w.slot i).equip c, c, rfl, fun d hd => ?_, htell ▸ gives_found hw hopen⟩
      rw [Fetcher.wanted_of_cursor hd] at hw
      cases hw

theorem access_next_ok_iff {s : Slot} {m : Memory} (h : s.fetcher.cursor? = some c) :
    (s.access m .next).1 = .ok word ↔ c.read m = .ok (word, c.advance 1) := by
  unfold Slot.access
  rw [h]
  dsimp only
  cases hread : c.read m with
  | error f =>
    constructor
    · intro he
      cases he
    · intro he
      cases he
  | ok x =>
    obtain ⟨x, d⟩ := x
    obtain rfl := Cursor.advance_of_read hread
    constructor
    · intro he
      cases he
      rfl
    · intro he
      cases he
      rfl

theorem cursor_access_next {s : Slot} {m : Memory} (h : s.fetcher.cursor? = some c)
    (hread : c.read m = .ok (word, d)) : (s.access m .next).2.fetcher.cursor? = some d := by
  unfold Slot.access
  rw [h]
  dsimp only
  rw [hread]
  exact Fetcher.cursor_setCursor h d

/-- **A word that is fetched is read**, through the cursor at hand or one that is found first. -/
theorem read_of_gives (h : Gives (access i .next) w (.ok word) u) :
    u.memory = w.memory ∧ u.slots.size = w.slots.size ∧
    ∃ c, c.read w.memory = .ok (word, c.advance 1) ∧
      (i < w.slots.size → (u.slot i).fetcher.cursor? = some (c.advance 1)) ∧
      ∀ d, (w.slot i).fetcher.cursor? = some d → d = c := by
  obtain ⟨_, h⟩ := h
  obtain ⟨host, journal, ⟨s, c, hc, hsame, _, h'⟩ | ⟨f, _, h'⟩⟩ := gives_access w i .next
  · obtain ⟨hr, rfl⟩ := h.unique h'
    have hread := (access_next_ok_iff hc).1 hr.symm
    refine ⟨rfl, FrontEnd.size_setSlot .., c, hread, fun hi => ?_, hsame⟩
    have hslot : ({ w with host, journal }.setSlot i (s.access w.memory .next).2).slot i =
        (s.access w.memory .next).2 := FrontEnd.slot_setSlot_self hi
    rw [hslot]
    exact cursor_access_next hc hread
  · obtain ⟨hr, -⟩ := h.unique h'
    cases hr

/-- The words are fetched one after the other. -/
def FetchesEach (i : Nat) (w : FrontEnd) : List UInt32 → FrontEnd → Prop
  | [], v => v = w
  | word :: words, v => ∃ u, Gives (access i .next) w (.ok word) u ∧ FetchesEach i u words v

variable {words : List UInt32}

/-- **Fetches are reads** through one cursor: the one that the list had at first, if it had any. -/
theorem reads_of_fetches (h : FetchesEach i w words v) :
    v.memory = w.memory ∧ v.slots.size = w.slots.size ∧
    ∀ d, (v.slot i).fetcher.cursor? = some d →
      ∃ c, c.readEach w.memory words.length = .ok (words, d) ∧ d = c.advance words.length ∧
        ∀ c', (w.slot i).fetcher.cursor? = some c' → c' = c := by
  induction words generalizing w with
  | nil =>
    obtain rfl : v = w := h
    refine ⟨rfl, rfl, fun d hd => ⟨d, rfl, (Cursor.advance_zero d).symm, fun c' hc' => ?_⟩⟩
    exact Option.some.inj (hc'.symm.trans hd)
  | cons word words ih =>
    obtain ⟨u, hfirst, hrest⟩ := h
    obtain ⟨hmemory, hsize, c, hread, hcursor, hsame⟩ := read_of_gives hfirst
    obtain ⟨hmemory', hsize', hreads⟩ := ih hrest
    refine ⟨hmemory'.trans hmemory, hsize'.trans hsize, fun d hd => ?_⟩
    obtain ⟨c', hreads, rfl, hsame'⟩ := hreads d hd
    have hi : i < w.slots.size := by
      rw [← hsize, ← hsize']
      exact lt_size_of_cursor hd
    obtain rfl := hsame' _ (hcursor hi)
    rw [hmemory] at hreads
    have hlength : ((c.advance 1).advance words.length) = c.advance (word :: words).length := by
      rw [Cursor.advance_advance, Int.add_comm]
      rfl
    refine ⟨c, Cursor.readEach_succ_iff.2 ⟨word, words, rfl, hread, hreads⟩, hlength, hsame⟩

/-- **Reads are fetches**, if the list has that cursor. -/
theorem fetches_of_reads (hc : (w.slot i).fetcher.cursor? = some c)
    (h : c.readEach w.memory words.length = .ok (words, d)) : ∃ v, FetchesEach i w words v := by
  induction words generalizing w c with
  | nil => exact ⟨w, rfl⟩
  | cons word words ih =>
    obtain ⟨_, _, hw, hread, hreads⟩ := Cursor.readEach_succ_iff.1 h
    cases hw
    have hfirst := gives_at_hand (a := .next) (Fetcher.wanted_of_cursor hc (w.slot i).pc)
    rw [(access_next_ok_iff hc).2 hread] at hfirst
    have hcursor : ((w.setSlot i ((w.slot i).access w.memory .next).2).slot i).fetcher.cursor? =
        some (c.advance 1) := by
      rw [FrontEnd.slot_setSlot_self (lt_size_of_cursor hc)]
      exact cursor_access_next hc hread
    obtain ⟨v, hrest⟩ := ih hcursor hreads
    exact ⟨v, _, hfirst, hrest⟩

/-- **A rewind fetches again** what was fetched. -/
theorem fetches_rewound {w₀ : FrontEnd} {a : Address}
    (hc : (w.slot i).fetcher.cursor? = some ⟨a, .word⟩) (h : FetchesEach i w₀ words w) {j : Nat}
    (hj : j ≤ words.length) :
    ∃ u v, Gives (access i (.rewind (.ofNat j))) w (.ok ()) u ∧
      FetchesEach i u (words.drop (words.length - j)) v := by
  obtain ⟨hmemory, -, hreads⟩ := reads_of_fetches h
  obtain ⟨⟨first, width⟩, hreads, hlast, -⟩ := hreads _ hc
  obtain rfl : width = .word := (congrArg Cursor.width hlast).symm
  have hshort := Cursor.readEach_le hreads
  -- The cursor after the rewind is that which the last words were read through.
  have hrewound : (Cursor.mk a .word).rewound (.ofNat j) =
      (Cursor.mk first .word).advance (words.length - j : Nat) := by
    have hsize : UInt32.size = 2 ^ 32 := rfl
    have hn : (UInt32.ofNat j).toNat = j := UInt32.toNat_ofNat_of_lt' (by omega)
    rw [Cursor.rewound, hn, hlast, Cursor.advance_advance, Slot.longestMove]
    congr 1
    omega
  have hlast : (words.drop (words.length - j)).length = j := by
    rw [List.length_drop]
    omega
  have hagain : ((Cursor.mk a .word).rewound (.ofNat j)).readEach w.memory
      (words.drop (words.length - j)).length = .ok (words.drop (words.length - j), ⟨a, .word⟩) := by
    rw [hrewound, hmemory, hlast]
    refine Cursor.readEach_drop ?_
    rwa [Nat.sub_add_cancel hj]
  obtain ⟨v, hv⟩ := fetches_of_reads (cursor_withCursor hc _) hagain
  exact ⟨_, v, gives_rewind hc _, hv⟩

/-- **The law of rewinds.** A list has a cursor over words, at `a`.

* A rewind of it always succeeds and changes nothing but the address of the cursor. The new one is
  as many words before `a` as are asked for, modulo 2^32, if these are less than 2^31 or one less
  than a multiple of 2^30; for others it is not.
* Two rewinds one after the other come to the same as one of so many words together, if these are
  less than 2^31, and otherwise in the cases given.
* After any words were fetched one after the other, a rewind of no more words makes as many of the
  last ones be fetched again. -/
theorem rewinds_iff {a : Address} (hc : (w.slot i).fetcher.cursor? = some ⟨a, .word⟩) :
    (∀ n, ∃ b, b = a - 4 * min n 0x7FFFFFFF ∧
      Gives (access i (.rewind n)) w (.ok ()) (w.withCursor i ⟨b, .word⟩) ∧
      ((w.withCursor i ⟨b, .word⟩).slot i).fetcher.cursor? = some ⟨b, .word⟩ ∧
      (b = a - 4 * n ↔ n.toNat < 2 ^ 31 ∨ n.toNat % 2 ^ 30 = 2 ^ 30 - 1)) ∧
    (∀ k n : UInt32, k.toNat + n.toNat < 2 ^ 32 → ∃ u v v',
      Gives (access i (.rewind k)) w (.ok ()) u ∧ Gives (access i (.rewind n)) u (.ok ()) v ∧
      Gives (access i (.rewind (k + n))) w (.ok ()) v' ∧
      (v = v' ↔ k.toNat + n.toNat < 2 ^ 31 ∨
        k.toNat < 2 ^ 31 ∧ n.toNat < 2 ^ 31 ∧ (k.toNat + n.toNat) % 2 ^ 30 = 2 ^ 30 - 1 ∨
        2 ^ 31 ≤ k.toNat ∧ n.toNat % 2 ^ 30 = 0 ∨ 2 ^ 31 ≤ n.toNat ∧ k.toNat % 2 ^ 30 = 0)) ∧
    ∀ w₀ words, FetchesEach i w₀ words w → ∀ j ≤ words.length, ∃ u v,
      Gives (access i (.rewind (.ofNat j))) w (.ok ()) u ∧
      FetchesEach i u (words.drop (words.length - j)) v := by
  refine ⟨fun n => ⟨_, rfl, ?_, cursor_withCursor hc _, ?_⟩, fun k n h => ?_,
    fun w₀ words h j hj => fetches_rewound hc h hj⟩
  · rw [← Cursor.rewound_mk]
    exact gives_rewind hc n
  · rw [← Cursor.rewound_eq_iff (a := a), Cursor.rewound_mk, Cursor.mk.injEq]
    exact (and_iff_left rfl).symm
  · have hfirst := gives_rewind hc k
    have hsecond := gives_rewind (cursor_withCursor hc ((Cursor.mk a .word).rewound k)) n
    rw [withCursor_withCursor hc] at hsecond
    refine ⟨_, _, _, hfirst, hsecond, gives_rewind hc (k + n), ?_⟩
    rw [withCursor_inj hc, Cursor.rewound_rewound_iff h]

end Rewinding

/-! ## A list of three words -/

/-- A list is given three words and is ready to fetch them. -/
def threeWords : FrontEnd :=
  [Action.write 0x08800000 [1, 2, 3], .change 0 (.init ⟨0x08800000, 0, 0, none⟩)].foldl
    (fun w a => (a.perform w).2) (Replay.frontEnd {})

theorem fetches_first : ∃ w, FetchesEach 0 threeWords [1] w ∧
    (w.slot 0).fetcher.cursor? = some ⟨0x08800004, .word⟩ := by
  have hrun : ((access 0 .next).trace 20 threeWords).map
      (fun x => (x.2.1, (x.2.2.slot 0).fetcher.cursor?)) =
        some (.ok 1, some ⟨0x08800004, .word⟩) := by decide +kernel
  obtain ⟨⟨t, r, w⟩, ht, he⟩ := Option.map_eq_some_iff.1 hrun
  obtain ⟨hr, hc⟩ := Prod.mk.inj he
  dsimp only at hr
  subst hr
  exact ⟨w, ⟨w, ⟨t, alone_of_trace ht⟩, rfl⟩, hc⟩

theorem rewinds_iff_first : ∃ w, FetchesEach 0 threeWords [1] w ∧
    (w.slot 0).fetcher.cursor? = some ⟨0x08800004, .word⟩ ∧
    ∃ u v, Gives (access 0 (.rewind 1)) w (.ok ()) u ∧ FetchesEach 0 u [1] v := by
  obtain ⟨w, hw, hc⟩ := fetches_first
  exact ⟨w, hw, hc, (rewinds_iff hc).2.2 _ _ hw 1 (Nat.le_refl 1)⟩

/-- **A rewind that moves the cursor on.** Rewound by 2^31 words, which are no bytes modulo 2^32, the
list leaves out its second word. -/
theorem rewound_forwards : ∃ w u v, FetchesEach 0 threeWords [1] w ∧
    (w.slot 0).fetcher.cursor? = some ⟨0x08800004, .word⟩ ∧
    Gives (access 0 (.rewind 0x80000000)) w (.ok ()) u ∧
    (u.slot 0).fetcher.cursor? = some ⟨0x08800008, .word⟩ ∧
    (0x08800008 : Address) ≠ 0x08800004 - 4 * 0x80000000 ∧ FetchesEach 0 u [3] v := by
  obtain ⟨w, hw, hc⟩ := fetches_first
  have hrewind := gives_rewind hc 0x80000000
  have hforwards : (Cursor.mk 0x08800004 .word).rewound 0x80000000 = ⟨0x08800008, .word⟩ := by
    decide +kernel
  rw [hforwards] at hrewind
  have hcursor := cursor_withCursor hc ⟨0x08800008, .word⟩
  have hread : (Cursor.mk 0x08800008 .word).readEach threeWords.memory 1 =
      .ok ([3], ⟨0x0880000C, .word⟩) := by decide +kernel
  rw [← (reads_of_fetches hw).1] at hread
  obtain ⟨v, hv⟩ : ∃ v, FetchesEach 0 (w.withCursor 0 ⟨0x08800008, .word⟩) [3] v :=
    fetches_of_reads hcursor hread
  exact ⟨w, _, v, hw, hc, hrewind, hcursor, by decide, hv⟩

end DisplayList

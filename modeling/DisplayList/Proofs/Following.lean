import DisplayList.Proofs.Aligned
import DisplayList.Slot.Basic

/-!
# The cursor follows the instruction address

A list fetches through the cursor that its fetcher has at hand. The fetcher is told of each change
of the instruction address, and `Fetcher.At` is what it keeps: a cursor at hand is at the
instruction address, and a cursor still to be found is wanted there.

* `Cursor.Tidy`: cursors over whole words, at a multiple of four;
* **`Fetcher.At.follow`**: the fetcher follows the instruction address wherever it goes;
* `Slot.Follows`: what holds of a slot at any time, and `Slot.Follows.moveTo`, … that each step of
  a slot keeps it;
* `Slot.fetch`, **`Slot.Follows.next`**: a fetch through the cursor is a fetch without one;
* **`Slot.access_previous`**: a look back changes nothing about a list.
-/

namespace DisplayList

/-- A cursor over whole words, at a multiple of four. -/
structure Cursor.Tidy (c : Cursor) : Prop where
  width : c.width = .word
  address : c.address.toNat % 4 = 0

/-! ## Moving a cursor -/

namespace Cursor

theorem eq_of_address {c : Cursor} {a : Address} (ha : c.address = a) (hw : c.width = .word) :
    c = ⟨a, .word⟩ := by
  rw [← ha, ← hw]

theorem advance_zero (c : Cursor) : c.advance 0 = c := by
  have h : (c.advance 0).address = c.address := by
    apply UInt32.toNat_inj.1
    apply Int.ofNat_inj.1
    rw [toNat_advance]
    have := c.address.toNat_lt
    omega
  exact congrArg (Cursor.mk · c.width) h

theorem Tidy.advance {c : Cursor} {a : Address} (h : c.Tidy) (ha : a.toNat % 4 = 0) :
    c.advance (Fetcher.wordsBetween c.address a) = ⟨a, .word⟩ := by
  have hc := h.address
  have hd : (4 : Int) ∣ (a.toNat : Int) - c.address.toNat := by omega
  have hw : Fetcher.wordsBetween c.address a * 4 = (a.toNat : Int) - c.address.toNat :=
    Int.tdiv_mul_cancel hd
  have hn : (c.advance (Fetcher.wordsBetween c.address a)).address = a := by
    apply UInt32.toNat_inj.1
    apply Int.ofNat_inj.1
    have := a.toNat_lt
    rw [toNat_advance, h.width]
    change ((c.address.toNat : Int) + Fetcher.wordsBetween c.address a * 4) % 2 ^ 32 = _
    rw [hw]
    omega
  exact eq_of_address hn h.width

theorem advance_one (a : Address) : (Cursor.mk a .word).advance 1 = ⟨a + 4, .word⟩ := by
  have h : ((Cursor.mk a .word).advance 1).address = a + 4 := by
    apply UInt32.toNat_inj.1
    apply Int.ofNat_inj.1
    rw [toNat_advance, UInt32.toNat_add]
    change ((a.toNat : Int) + 1 * 4) % 2 ^ 32 = ((a.toNat + 4) % 2 ^ 32 : Nat)
    omega
  exact congrArg (Cursor.mk · Width.word) h

theorem advance_of_read {m : Memory} {c d : Cursor} {v : UInt32} (h : c.read m = .ok (v, d)) :
    d = c.advance 1 := by
  unfold Cursor.read at h
  cases hv : m.read c.address c.width.bytes with
  | error f =>
    rw [hv] at h
    cases h
  | ok x =>
    rw [hv] at h
    cases h
    rfl

theorem openAt_eq {a : Address} {c : Cursor} (ha : Address.aligned a = a)
    (h : openAt a 4 = .ok c) : c = ⟨a, .word⟩ ∧ Memory.isMapped a = true := by
  have hw : Width.ofStep? 4 = some .word := by decide
  unfold openAt at h
  rw [hw] at h
  simp only [Address.canonical_of_aligned ha] at h
  split at h
  next hm =>
    cases h
    exact ⟨rfl, hm⟩
  next => cases h

theorem openAt_error {a : Address} {f : Memory.Fault} (ha : Address.aligned a = a)
    (h : openAt a 4 = .error f) : f = .unmapped a ∧ Memory.isMapped a = false := by
  have hw : Width.ofStep? 4 = some .word := by decide
  unfold openAt at h
  rw [hw] at h
  simp only [Address.canonical_of_aligned ha] at h
  split at h
  next => cases h
  next hm =>
    cases h
    exact ⟨rfl, Bool.eq_false_iff.2 hm⟩

theorem openAt_of_readWord {m : Memory} {a : Address} {x : UInt32} (ha : Address.aligned a = a)
    (hx : m.readWord a = .ok x) : openAt a 4 = .ok ⟨a, .word⟩ := by
  cases ho : openAt a 4 with
  | error f =>
    have hm := Memory.isMapped_of_readWord ha hx
    rw [(openAt_error ha ho).2] at hm
    cases hm
  | ok c => rw [(openAt_eq ha ho).1]

end Cursor

/-! ## The fetcher -/

namespace Fetcher

/-- The fetcher is at `pc`. -/
structure At (f : Fetcher) (pc : Address) : Prop where
  /-- A cursor at hand is there. -/
  cursor : ∀ c, f.cursor? = some c → c = ⟨pc, .word⟩
  /-- A cursor to be found is wanted there. -/
  wanted : ∀ a, f.wanted pc = some a → a = pc
  window : ∀ w, f.window = some w → w.cursor.Tidy

variable {f : Fetcher} {pc old new : Address}

theorem cursor_of_wanted (h : f.wanted pc = none) : ∃ c, f.cursor? = some c := by
  obtain ⟨source, window, found⟩ := f
  cases source with
  | unset => cases h
  | pending a => cases h
  | own c => exact ⟨c, rfl⟩
  | window =>
    cases window with
    | none => cases h
    | some w => exact ⟨w.cursor, rfl⟩

theorem wanted_of_cursor {c : Cursor} (h : f.cursor? = some c) (pc : Address) :
    f.wanted pc = none := by
  obtain ⟨source, window, found⟩ := f
  cases source with
  | unset => cases h
  | pending a => cases h
  | own c => rfl
  | window =>
    cases window with
    | none => cases h
    | some w => rfl

theorem setCursor_self {c : Cursor} (h : f.cursor? = some c) : f.setCursor c = f := by
  obtain ⟨source, window, found⟩ := f
  cases source with
  | unset => cases h
  | pending a => cases h
  | own c =>
    cases h
    rfl
  | window =>
    cases window with
    | none => cases h
    | some w =>
      cases h
      rfl

theorem at_clear (pc : Address) : f.clear.At pc where
  cursor c h := by cases h
  wanted a h := by
    cases h
    rfl
  window w h := by cases h

theorem at_pending (h : ∀ w, f.window = some w → w.cursor.Tidy) :
    At { f with source := .pending pc } pc where
  cursor c h := by cases h
  wanted a h := by
    cases h
    rfl
  window := h

theorem at_own (h : ∀ w, f.window = some w → w.cursor.Tidy) :
    At { f with source := .own ⟨pc, .word⟩ } pc where
  cursor c h := by
    cases h
    rfl
  wanted a h := by cases h
  window := h

theorem At.leaveWindow (h : f.At old) (hold : old.toNat % 4 = 0) (hnew : new.toNat % 4 = 0) :
    (f.leaveWindow old new).At new := by
  unfold Fetcher.leaveWindow
  dsimp only
  split
  · split
    next c hs =>
      have hc : f.cursor? = some c := by
        unfold Fetcher.cursor?
        rw [hs]
      have ht : Cursor.Tidy ⟨old, .word⟩ := ⟨rfl, hold⟩
      have ha := ht.advance hnew
      rw [h.cursor c hc, ha]
      exact at_own h.window
    next => exact at_pending h.window
  · exact at_pending h.window

/-- **The fetcher follows the instruction address.** -/
theorem At.follow (h : f.At old) (hold : old.toNat % 4 = 0) (hnew : new.toNat % 4 = 0) :
    (f.follow old new).At new := by
  unfold Fetcher.follow
  split
  next w hw =>
    split
    · have ha := (h.window w hw).advance hnew
      dsimp only
      rw [ha]
      refine ⟨fun c hc => ?_, fun a ha => ?_, fun w' hw' => ?_⟩
      · cases hc
        rfl
      · cases ha
      · cases hw'
        exact ⟨rfl, hnew⟩
    · exact h.leaveWindow hold hnew
  next => exact h.leaveWindow hold hnew

theorem At.setWindow {w : Window} (h : f.At pc) (hw : w.cursor.Tidy) : (f.setWindow w).At pc := by
  obtain ⟨source, window, found⟩ := f
  have hwin : ∀ w', (some w) = some w' → w'.cursor.Tidy := by
    intro w' hw'
    cases hw'
    exact hw
  cases source with
  | unset =>
    refine ⟨fun c hc => ?_, fun a ha => ?_, hwin⟩
    · cases hc
    · cases ha
      rfl
  | window =>
    refine ⟨fun c hc => ?_, fun a ha => ?_, hwin⟩
    · cases hc
    · cases ha
      rfl
  | pending a =>
    refine ⟨fun c hc => ?_, fun b hb => ?_, hwin⟩
    · cases hc
    · exact h.wanted b hb
  | own c =>
    refine ⟨fun c hc => ?_, fun b hb => ?_, hwin⟩
    · exact h.cursor c hc
    · cases hb

theorem At.install {f' : Fetcher} {a : Address} {c : Cursor} (h : f.At pc)
    (hpc : Address.aligned pc = pc) (hc : Cursor.openAt a 4 = .ok c)
    (hf : f.install? pc a c = some f') : f'.At pc ∧ ∃ c', f'.cursor? = some c' := by
  unfold install? at hf
  split at hf
  next b hb =>
    split at hf
    next hba =>
      cases hf
      have hbpc := h.wanted b hb
      have hapc : a = pc := by rw [← hba, hbpc]
      rw [hapc] at hc
      rw [(Cursor.openAt_eq hpc hc).1]
      exact ⟨at_own (f := { f with found := f.found + 1 }) h.window, _, rfl⟩
    next => cases hf
  next hn =>
    cases hf
    exact ⟨h, cursor_of_wanted hn⟩

theorem At.setCursor (h : f.At old) (hnew : new.toNat % 4 = 0) {c : Cursor}
    (hc : f.cursor? = some c) : (f.setCursor ⟨new, .word⟩).At new := by
  obtain ⟨source, window, found⟩ := f
  cases source with
  | unset => cases hc
  | pending a => cases hc
  | own c' => exact at_own (f := ⟨.own c', window, found⟩) h.window
  | window =>
    cases window with
    | none => cases hc
    | some w =>
      refine ⟨fun c hc => ?_, fun a ha => ?_, fun w' hw' => ?_⟩
      · cases hc
        rfl
      · cases ha
      · cases hw'
        exact ⟨rfl, hnew⟩

end Fetcher

/-! ## The slot -/

namespace Slot

/-- The instruction address is one, and the fetcher is there. -/
structure Follows (s : Slot) : Prop where
  aligned : Address.aligned s.pc = s.pc
  fetcher : s.fetcher.At s.pc

variable {s : Slot} {m : Memory}

theorem Follows.mod (h : s.Follows) : s.pc.toNat % 4 = 0 :=
  (Address.aligned_eq_iff.1 h.aligned).1

theorem follows_clear (s : Slot) : s.clear.Follows := by
  have h : Address.aligned 0 = 0 := by decide
  exact ⟨h, Fetcher.at_clear ..⟩

theorem follows_new (id : Nat) : (new id).Follows :=
  follows_clear _

theorem Follows.moveTo (h : s.Follows) (a : Address) : (s.moveTo a).Follows := by
  unfold Slot.moveTo
  dsimp only
  split
  · exact h
  · have ha := Address.aligned_aligned a
    exact ⟨ha, h.fetcher.follow h.mod (Address.aligned_eq_iff.1 ha).1⟩

theorem Follows.call {s' : Slot} {target : Address} {offset : UInt32} (h : s.Follows)
    (hc : s.call target offset = .ok s') : s'.Follows := by
  unfold Slot.call at hc
  cases hp : s.calls.push ⟨s.pc, offset⟩ with
  | error e =>
    rw [hp] at hc
    cases hc
  | ok calls =>
    rw [hp] at hc
    cases hc
    have hs : Follows { s with calls } := ⟨h.aligned, h.fetcher⟩
    exact hs.moveTo target

theorem Follows.ret {s' : Slot} {offset : UInt32} (h : s.Follows)
    (hr : s.ret? = some (offset, s')) : s'.Follows := by
  unfold Slot.ret? at hr
  cases hp : s.calls.pop? with
  | none =>
    rw [hp] at hr
    cases hr
  | some x =>
    rw [hp] at hr
    cases hr
    have hs : Follows { s with calls := x.2 } := ⟨h.aligned, h.fetcher⟩
    exact hs.moveTo _

theorem follows_init (s : Slot) (sub : Submission) : (s.init sub).Follows := by
  have hc := follows_clear s
  have hs : Follows { s.clear with
      list := Address.aligned sub.list
      stall := Address.aligned sub.stall
      callbackId := sub.callbackId
      params := sub.params } := ⟨hc.aligned, hc.fetcher⟩
  have hm := hs.moveTo (Address.aligned sub.list)
  exact ⟨hm.aligned, hm.fetcher⟩

theorem Follows.moveStall (h : s.Follows) (a : Address) : (s.moveStall a).2.Follows := by
  unfold Slot.moveStall
  dsimp only
  split
  · exact h
  · exact ⟨h.aligned, h.fetcher⟩

theorem Follows.moveStallWith (h : s.Follows) (a : Address) {w : Window} (hw : w.cursor.Tidy) :
    (s.moveStallWith a w).2.Follows := by
  have hs := h.moveStall a
  exact ⟨hs.aligned, (hs.fetcher.setWindow hw).follow hs.mod hs.mod⟩

/-! ## Fetching -/

/-- The next word, fetched without a cursor. -/
def fetch (s : Slot) (m : Memory) : Except Failure UInt32 × Slot :=
  match m.readWord s.pc with
  | .ok word => (.ok word, { s with pc := s.pc + 4 })
  | .error f => (.error (.memory f), s)

/-- The slot without its fetcher. -/
def bare (s : Slot) : Slot :=
  { s with fetcher := {} }

theorem fetch_bare {s' : Slot} (h : s.bare = s'.bare) :
    (s.fetch m).1 = (s'.fetch m).1 ∧ (s.fetch m).2.bare = (s'.fetch m).2.bare := by
  have hpc : s.bare.pc = s'.bare.pc := congrArg Slot.pc h
  change s.pc = s'.pc at hpc
  unfold fetch
  rw [hpc]
  cases m.readWord s'.pc with
  | error f => exact ⟨rfl, h⟩
  | ok x => exact ⟨rfl, congrArg (fun t : Slot => { t with pc := s'.pc + 4 }) h⟩

theorem read_at {a : Address} :
    (Cursor.mk a .word).read m = (m.readWord a).map fun x => (x, ⟨a + 4, .word⟩) := by
  unfold Cursor.read
  rw [Cursor.advance_one]
  rfl

theorem fetch_unmapped (h : Address.aligned s.pc = s.pc) (hm : Memory.isMapped s.pc = false) :
    s.fetch m = (.error (.memory (.unmapped s.pc)), s) := by
  unfold fetch
  rw [Memory.readWord_unmapped m h hm]

/-- The answer `r` and the slot `s'` are those of a fetch, fetchers apart. -/
structure Fetched (m : Memory) (s : Slot) (r : Except Failure UInt32) (s' : Slot) : Prop where
  answer : r = (s.fetch m).1
  slot : s'.bare = (s.fetch m).2.bare
  /-- A fetch that fails for want of memory changes nothing at all. -/
  unmapped : Memory.isMapped s.pc = false → s' = s

/-- **A fetch through the cursor at hand is a fetch without one**, and the cursor goes along. -/
theorem Follows.next {c : Cursor} (h : s.Follows) (hc : s.fetcher.cursor? = some c) :
    Fetched m s (s.access m .next).1 (s.access m .next).2 ∧ (s.access m .next).2.Follows := by
  have hpc := h.fetcher.cursor c hc
  cases hx : m.readWord s.pc with
  | error f =>
    have ha : s.access m .next = (.error (.memory f), s) := by
      unfold Slot.access
      rw [hc, hpc]
      dsimp only
      rw [read_at, hx]
      rfl
    have hf : s.fetch m = (.error (.memory f), s) := by
      unfold fetch
      rw [hx]
    rw [ha]
    exact ⟨⟨by rw [hf], by rw [hf], fun _ => rfl⟩, h⟩
  | ok x =>
    have hm := Memory.isMapped_of_readWord h.aligned hx
    have hn := (Memory.aligned_next h.aligned hm).1
    have ha : s.access m .next = (.ok x, { s with
        fetcher := s.fetcher.setCursor ⟨s.pc + 4, .word⟩
        pc := s.pc + 4 }) := by
      unfold Slot.access
      rw [hc, hpc]
      dsimp only
      rw [read_at, hx]
      dsimp only [Except.map]
      rw [hn]
    have hf : s.fetch m = (.ok x, { s with pc := s.pc + 4 }) := by
      unfold fetch
      rw [hx]
    rw [ha]
    refine ⟨⟨by rw [hf], by rw [hf]; rfl, fun hu => ?_⟩, hn, ?_⟩
    · rw [hm] at hu
      cases hu
    · exact h.fetcher.setCursor (Address.aligned_eq_iff.1 hn).1 hc

/-- **A look back changes nothing** about a list, whatever its cursor is and whether a word is read
or not. -/
theorem access_previous (s : Slot) (m : Memory) : (s.access m .previous).2 = s := by
  unfold access
  cases hc : s.fetcher.cursor? with
  | none => rfl
  | some c =>
    have hback : (c.advance (-2)).advance 2 = c := by
      rw [Cursor.advance_advance]
      exact Cursor.advance_zero c
    dsimp only
    cases hr : (c.advance (-2)).read m with
    | error f =>
      dsimp only
      rw [hback, Fetcher.setCursor_self hc]
    | ok x =>
      -- The word that was read has moved the cursor by one of the two.
      have hx : x.2.advance 1 = c := by
        rw [Cursor.advance_of_read hr, Cursor.advance_advance]
        exact hback
      dsimp only
      rw [hx, Fetcher.setCursor_self hc]

theorem Follows.previous (h : s.Follows) : (s.access m .previous).2.Follows := by
  rw [access_previous]
  exact h

theorem Follows.access {a : Access} (h : s.Follows) (ha : ∀ n, a ≠ .rewind n) :
    (s.access m a).2.Follows := by
  cases a with
  | next =>
    cases hc : s.fetcher.cursor? with
    | none =>
      unfold Slot.access
      rw [hc]
      exact h
    | some c => exact (h.next hc).2
  | previous => exact h.previous
  | rewind n => exact absurd rfl (ha n)

theorem Follows.tryAccess {a : Access} (h : s.Follows) (ha : ∀ n, a ≠ .rewind n) :
    (s.tryAccess m a).2.Follows := by
  unfold Slot.tryAccess
  split
  · exact h
  · exact h.access ha

theorem Follows.accessWith {a : Access} {address : Address} {c : Cursor} (h : s.Follows)
    (ha : ∀ n, a ≠ .rewind n) (hc : Cursor.openAt address 4 = .ok c) :
    (s.accessWith m address c a).2.Follows := by
  unfold Slot.accessWith
  split
  · exact h
  next fetcher hf =>
    have hs : Follows { s with fetcher } :=
      ⟨h.aligned, (h.fetcher.install h.aligned hc hf).1⟩
    exact hs.access ha

theorem Follows.not_found {f : Memory.Fault} (h : s.Follows)
    (hc : Cursor.openAt s.pc 4 = .error f) : Fetched m s (.error (.memory f)) s := by
  obtain ⟨rfl, hm⟩ := Cursor.openAt_error h.aligned hc
  have hf := fetch_unmapped (m := m) h.aligned hm
  exact ⟨by rw [hf], by rw [hf], fun _ => rfl⟩

theorem Follows.tryAccess_next {r : Except Failure UInt32} {s' : Slot} (h : s.Follows)
    (hr : s.tryAccess m .next = (.inr r, s')) : Fetched m s r s' := by
  unfold Slot.tryAccess at hr
  split at hr
  next => cases hr
  next hw =>
    cases hr
    obtain ⟨c, hc⟩ := Fetcher.cursor_of_wanted hw
    exact (h.next hc).1

theorem Follows.tryAccess_wanted {a : Access} {address : Address} {s' : Slot} (h : s.Follows)
    (hr : s.tryAccess m a = (.inl address, s')) : address = s.pc ∧ s' = s := by
  unfold Slot.tryAccess at hr
  split at hr
  next b hb =>
    cases hr
    exact ⟨h.fetcher.wanted _ hb, rfl⟩
  next => cases hr

theorem Follows.accessWith_next {address : Address} {c : Cursor} {r : Except Failure UInt32}
    {s' : Slot} (h : s.Follows) (hc : Cursor.openAt address 4 = .ok c)
    (hr : s.accessWith m address c .next = (some r, s')) : Fetched m s r s' := by
  unfold Slot.accessWith at hr
  split at hr
  next => cases hr
  next fetcher hf =>
    cases hr
    obtain ⟨hat, c', hc'⟩ := h.fetcher.install h.aligned hc hf
    have hs : Follows { s with fetcher } := ⟨h.aligned, hat⟩
    have hn := (hs.next (m := m) hc').1
    have hb : bare { s with fetcher } = s.bare := rfl
    obtain ⟨hb₁, hb₂⟩ := fetch_bare (m := m) hb
    refine ⟨hn.answer.trans hb₁, hn.slot.trans hb₂, fun hu => ?_⟩
    -- The cursor was not found at an address that is not mapped: there was one before.
    have hsame : fetcher = s.fetcher := by
      unfold Fetcher.install? at hf
      split at hf
      next b hb =>
        split at hf
        next hba =>
          rw [← hba, h.fetcher.wanted b hb] at hc
          rw [(Cursor.openAt_eq h.aligned hc).2] at hu
          cases hu
        next => cases hf
      next =>
        cases hf
        rfl
    subst hsame
    exact hn.unmapped hu

end Slot

end DisplayList

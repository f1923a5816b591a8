import DisplayList.Proofs.Aligned

/-!
# Words in memory

What memory holds after words were written, and which words of two memories are the same.

* `Memory.Holds`: bytes that memory holds in a row; **`holds_pokeAll`**, `peek_pokeAll_of_not`:
  what was written is there, and nothing else has changed; **`Holds.readWord`**: it is read;
* `Memory.AgreesOutside`, `AgreesOutside.readWord`: two memories that differ in one range at most;
* `Spans`: a row of words inside one region, **`spans_of_spot`**; what is written to a part of it
  is written (`Spans.writeWords`).
-/

namespace DisplayList

namespace Memory

variable {m m' : Memory} {n k : Nat} {bs cs : List UInt8}

/-- Memory holds the bytes `bs` from `n` on. -/
def Holds (m : Memory) (n : Nat) (bs : List UInt8) : Prop :=
  ∀ k (h : k < bs.length), m.peek (n + k) = bs[k]

theorem holds_append :
    m.Holds n (bs ++ cs) ↔ m.Holds n bs ∧ m.Holds (n + bs.length) cs := by
  constructor
  · intro h
    refine ⟨fun k hk => ?_, fun k hk => ?_⟩
    · have hk' := h k (by rw [List.length_append]; omega)
      rw [hk', List.getElem_append_left hk]
    · have hk' := h (bs.length + k) (by rw [List.length_append]; omega)
      rw [← Nat.add_assoc] at hk'
      rw [hk', List.getElem_append_right (by omega)]
      simp
  · rintro ⟨h₁, h₂⟩ k hk
    by_cases hb : k < bs.length
    · rw [List.getElem_append_left hb]
      exact h₁ k hb
    · have hc : k - bs.length < cs.length := by
        rw [List.length_append] at hk
        omega
      have hk' := h₂ (k - bs.length) hc
      rw [List.getElem_append_right (by omega), ← hk']
      congr 1
      omega

theorem peek_pokeAll_of_not (h : ¬ (n ≤ k ∧ k < n + bs.length)) :
    (m.pokeAll n bs).peek k = m.peek k := by
  induction bs generalizing m n with
  | nil => rfl
  | cons b bs ih =>
    rw [List.length_cons] at h
    change ((m.poke n b).pokeAll (n + 1) bs).peek k = m.peek k
    rw [ih (by omega), peek_poke_of_ne (by omega)]

/-- **What was written is there.** -/
theorem holds_pokeAll (m : Memory) (h : Inside n bs.length) : (m.pokeAll n bs).Holds n bs := by
  induction bs generalizing m n with
  | nil => exact fun k hk => absurd hk (Nat.not_lt_zero k)
  | cons b bs ih =>
    have hlen : (b :: bs).length = 1 + bs.length := Nat.add_comm ..
    rw [hlen] at h
    intro k hk
    change ((m.poke n b).pokeAll (n + 1) bs).peek (n + k) = _
    cases k with
    | zero =>
      rw [peek_pokeAll_of_not (by omega), Nat.add_zero, peek_poke_self h.left]
      rfl
    | succ k =>
      have hk' := ih (m.poke n b) h.right k (by omega)
      have hn : n + 1 + k = n + (k + 1) := by omega
      rw [hn] at hk'
      rw [hk', List.getElem_cons_succ]

theorem pokeAll_append (m : Memory) (n : Nat) (bs cs : List UInt8) :
    m.pokeAll n (bs ++ cs) = (m.pokeAll n bs).pokeAll (n + bs.length) cs := by
  induction bs generalizing m n with
  | nil => rfl
  | cons b bs ih =>
    have hn : n + (b :: bs).length = n + 1 + bs.length := by
      rw [List.length_cons]
      omega
    rw [hn]
    exact ih (m.poke n b) (n + 1)

theorem Holds.eq (h : m.Holds n bs) (h' : m'.Holds n bs) (hn : n ≤ k) (hk : k < n + bs.length) :
    m.peek k = m'.peek k := by
  have hlt : k - n < bs.length := by omega
  have e := (h (k - n) hlt).trans (h' (k - n) hlt).symm
  rwa [Nat.add_sub_cancel' hn] at e

/-! ## Reading -/

/-- The two memories differ from `lo` up to `hi` at most. -/
def AgreesOutside (lo hi : Nat) (m m' : Memory) : Prop :=
  ∀ n, n < lo ∨ hi ≤ n → m.peek n = m'.peek n

theorem agreesOutside_pokeAll (m : Memory) (n : Nat) (bs : List UInt8) :
    AgreesOutside n (n + bs.length) m (m.pokeAll n bs) := by
  intro k hk
  rw [peek_pokeAll_of_not (by omega)]

theorem ofBytes_bytes (x : UInt32) : Word.ofBytes (Word.bytes x) = x := by
  have hx := x.toNat_lt
  apply UInt32.toNat_inj.1
  simp [Word.ofBytes, Word.bytes, Nat.shiftRight_eq_div_pow]
  omega

theorem Holds.word {ws : List UInt32} (h : m.Holds n (ws.flatMap Word.bytes)) (hk : k < ws.length) :
    m.Holds (n + 4 * k) (Word.bytes ws[k]) := by
  induction ws generalizing n k with
  | nil => exact absurd hk (Nat.not_lt_zero k)
  | cons w ws ih =>
    rw [List.flatMap_cons, holds_append] at h
    cases k with
    | zero => exact h.1
    | succ k =>
      have hn : n + 4 * (k + 1) = n + (Word.bytes w).length + 4 * k := by
        have hlen : (Word.bytes w).length = 4 := rfl
        omega
      rw [hn, List.getElem_cons_succ]
      exact ih h.2 (by simpa using hk)

/-- **A word that memory holds is read.** -/
theorem Holds.readWord {a : Address} {x : UInt32} (h : m.Holds a.toNat (Word.bytes x))
    (ha : Address.aligned a = a) (hm : isMapped a = true) : m.readWord a = .ok x := by
  have hbytes : (List.range 4).map (fun k => m.peek (a.toNat + k)) = Word.bytes x :=
    List.ext_getElem rfl fun k _ hk => by
      rw [List.getElem_map, List.getElem_range, h k hk]
  unfold Memory.readWord read
  rw [readBytes_eq_peek, spot_word ha hm]
  change Except.ok (Word.ofBytes ((List.range 4).map fun k => m.peek (a.toNat + k))) = _
  rw [hbytes, ofBytes_bytes]

theorem readWord_congr {a : Address}
    (h : ∀ n, spot a 4 = .ok n → ∀ k, k < 4 → m.peek (n + k) = m'.peek (n + k)) :
    m.readWord a = m'.readWord a := by
  have hbytes : m.readBytes a 4 = m'.readBytes a 4 := by
    rw [readBytes_eq_peek, readBytes_eq_peek]
    cases hl : spot a 4 with
    | error f => simp only [Except.map]
    | ok n =>
      exact congrArg Except.ok
        (List.map_congr_left fun k hk => h n hl k (List.mem_range.1 hk))
  rw [readWord, readWord, read, read, hbytes]

theorem AgreesOutside.readWord {lo hi : Nat} {a : Address} (h : AgreesOutside lo hi m m')
    (ha : Address.aligned a = a) (hlo : a.toNat + 4 ≤ lo) : m.readWord a = m'.readWord a := by
  refine readWord_congr fun n hn k hk => h _ (.inl ?_)
  cases hm : isMapped a with
  | true =>
    rw [spot_word ha hm] at hn
    cases hn
    omega
  | false =>
    rw [spot_unmapped ha hm] at hn
    cases hn

theorem AgreesOutside.readBack {lo hi : Nat} {a : Address} (h : AgreesOutside lo hi m m')
    (ha : Address.aligned a = a) (hlo : a.toNat ≤ lo) :
    m.readWord (a - 8) = m'.readWord (a - 8) := by
  obtain ⟨hmod, hlt⟩ := Address.aligned_eq_iff.1 ha
  by_cases h8 : 8 ≤ a.toNat
  · have hsub : (a - 8).toNat = a.toNat - 8 := UInt32.toNat_sub_of_le _ _ h8
    refine h.readWord ?_ ?_
    · rw [Address.aligned_eq_iff, hsub]
      omega
    · rw [hsub]
      omega
  · -- There is no memory at the end of the address space.
    have ha' : a = 0 ∨ a = 4 := by
      have h04 : a.toNat = 0 ∨ a.toNat = 4 := by omega
      rcases h04 with h0 | h4
      · exact .inl (UInt32.toNat_inj.1 h0)
      · exact .inr (UInt32.toNat_inj.1 h4)
    refine readWord_congr fun n hn => ?_
    rcases ha' with rfl | rfl
    · cases hn
    · cases hn

end Memory

/-! ## Rows of words -/

theorem length_bytes (words : List UInt32) :
    (words.flatMap Word.bytes).length = 4 * words.length := by
  induction words with
  | nil => rfl
  | cons w words ih =>
    rw [List.flatMap_cons, List.length_append, ih, List.length_cons]
    change 4 + 4 * words.length = _
    omega

/-- The words from `start` up to `stop` lie inside one region. -/
structure Spans (start stop : Address) : Prop where
  aligned_start : Address.aligned start = start
  aligned_stop : Address.aligned stop = stop
  lt : start.toNat < stop.toNat
  spot : ∀ a n, Address.aligned a = a → start.toNat ≤ a.toNat → 0 < n →
    a.toNat + n ≤ stop.toNat → Memory.spot a n = .ok a.toNat

variable {start stop : Address}

theorem toNat_after {a : Address} {n : Nat} (h : a.toNat + 4 * n < 2 ^ 30) :
    (a + 4 * UInt32.ofNat n).toNat = a.toNat + 4 * n := by
  rw [UInt32.toNat_add, UInt32.toNat_mul, UInt32.toNat_ofNat']
  have h4 : (4 : UInt32).toNat = 4 := rfl
  rw [h4]
  omega

theorem Memory.region_of_holds {r : Region} {a : Address} (h : r.holds a = true) :
    Region.of? a = some r := by
  have hc : ∀ r', r'.holds a = true → r' = r := by
    intro r' h'
    unfold Region.holds at h h'
    rw [Bool.and_eq_true, decide_eq_true_iff, decide_eq_true_iff, UInt32.le_iff_toNat_le,
      UInt32.le_iff_toNat_le] at h h'
    cases r <;> cases r' <;>
      simp only [Region.first, Region.last, UInt32.reduceToNat] at h h' ⊢ <;> omega
  cases ho : Region.of? a with
  | none =>
    have hn := List.find?_eq_none.1 ho r (by cases r <;> decide)
    exact absurd h hn
  | some r' => rw [hc r' (Memory.holds_of_region ho)]

/-- **Where so many bytes can be accessed, the words span a part of a region.** -/
theorem spans_of_spot {n k : Nat} (hs : Address.aligned start = start) (hn : 0 < n)
    (h : Memory.spot start (4 * n) = .ok k) : Spans start (start + 4 * UInt32.ofNat n) ∧
      (start + 4 * UInt32.ofNat n).toNat = start.toNat + 4 * n := by
  have hmod := (Address.aligned_eq_iff.1 hs).1
  rw [Memory.spot_eq] at h
  simp only [Address.canonical_of_aligned hs] at h
  cases hr : Region.of? start with
  | none =>
    rw [hr] at h
    cases h
  | some r =>
    rw [hr] at h
    have hin := (Memory.holds_iff hs).1 (Memory.holds_of_region hr)
    have hlast : r.last.toNat < 2 ^ 29 := by
      cases r <;> decide
    have hfit : start.toNat - r.first.toNat + 4 * n ≤ r.size := by
      dsimp only at h
      split at h
      next hle => exact hle
      next => cases h
    have hsize : r.size = r.last.toNat - r.first.toNat + 1 := rfl
    have hafter := toNat_after (a := start) (n := n) (by omega)
    refine ⟨⟨hs, ?_, by omega, fun a l ha hle hl hstop => ?_⟩, hafter⟩
    · rw [Address.aligned_eq_iff, hafter]
      omega
    · rw [hafter] at hstop
      have hold : r.holds a = true := (Memory.holds_iff ha).2 (by omega)
      have hfit' : a.toNat - r.first.toNat + l ≤ r.size := by omega
      rw [Memory.spot_eq]
      simp only [Address.canonical_of_aligned ha, Memory.region_of_holds hold, if_pos hfit']

/-- **Words that were written** span a part of a region. -/
theorem spans_of_writeWords {words : List UInt32} {m m' : Memory}
    (hs : Address.aligned start = start) (hw : words ≠ [])
    (h : m.writeWords start words = .ok m') :
    Spans start (start + 4 * UInt32.ofNat words.length) ∧
      (start + 4 * UInt32.ofNat words.length).toNat = start.toNat + 4 * words.length := by
  unfold Memory.writeWords at h
  rw [Memory.writeBytes_eq_pokeAll, length_bytes] at h
  cases hl : Memory.spot start (4 * words.length) with
  | error f =>
    rw [hl] at h
    cases h
  | ok k => exact spans_of_spot hs (List.length_pos_iff.2 hw) hl

namespace Spans

variable (h : Spans start stop)

include h in
theorem isMapped {a : Address} (ha : Address.aligned a = a) (hlo : start.toNat ≤ a.toNat)
    (hhi : a.toNat < stop.toNat) : Memory.isMapped a = true := by
  have hstop := (Address.aligned_eq_iff.1 h.aligned_stop).1
  have hmod := (Address.aligned_eq_iff.1 ha).1
  have hl := h.spot a 4 ha hlo (by omega) (by omega)
  cases hm : Memory.isMapped a with
  | true => rfl
  | false =>
    rw [Memory.spot_unmapped ha hm] at hl
    cases hl

include h in
theorem inside {a n : Nat} (hlo : start.toNat ≤ a) (hhi : a + n ≤ stop.toNat) :
    Memory.Inside a n := by
  have hlt := h.lt
  have hspot := h.spot start (stop.toNat - start.toNat) h.aligned_start (Nat.le_refl _) (by omega)
    (by omega)
  obtain ⟨r, hfirst, hend⟩ := Memory.inside_of_spot hspot
  exact ⟨r, by omega, by omega⟩

include h in
theorem writeWords (m : Memory) {a : Address} {words : List UInt32} (ha : Address.aligned a = a)
    (hlo : start.toNat ≤ a.toNat) (hw : words ≠ [])
    (hhi : a.toNat + 4 * words.length ≤ stop.toNat) :
    m.writeWords a words = .ok (m.pokeAll a.toNat (words.flatMap Word.bytes)) := by
  have hpos := List.length_pos_iff.2 hw
  unfold Memory.writeWords
  rw [Memory.writeBytes_eq_pokeAll, length_bytes, h.spot a _ ha hlo (by omega) hhi]
  rfl

include h in
theorem after {a : Address} {n : Nat} (ha : Address.aligned a = a)
    (hhi : a.toNat + 4 * n ≤ stop.toNat) :
    Address.aligned (a + 4 * UInt32.ofNat n) = a + 4 * UInt32.ofNat n ∧
      (a + 4 * UInt32.ofNat n).toNat = a.toNat + 4 * n := by
  have hstop := (Address.aligned_eq_iff.1 h.aligned_stop).2
  have hmod := (Address.aligned_eq_iff.1 ha).1
  have hn := toNat_after (a := a) (n := n) (by omega)
  refine ⟨?_, hn⟩
  rw [Address.aligned_eq_iff, hn]
  omega

end Spans

end DisplayList

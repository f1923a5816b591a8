import DisplayList.Proofs.Storing
import Mathlib.Data.Nat.Digits.Defs

/-!
# Guest memory as a flat map

Guest memory sets pages aside as they are written. Seen from outside it is a flat map: at each
canonical address stands the byte last written there, or zero, and words have their lowest byte
first. An access succeeds exactly if it lies inside one region.

* `Memory.Fits`, **`spot_eq_fits`**: the accesses that succeed, and how the others fail;
* `Store`, `Memory.storeAll`: writes carried out one after the other; `lastByte`: the byte last
  written at some place; **`peek_storeAll`**: it is there;
* `toNat_ofBytes`, `littleEndian_eq`: numbers and their bytes;
* `writeEach_eq`: words written at once are words written one by one;
* **`flat_memory`**: after any writes, what every access answers and what it changes.
-/

namespace DisplayList

open Address

namespace Memory

/-! ## Accesses that lie inside one region -/

/-- The `length` bytes at `a` lie inside one region. -/
def Fits (a : Address) (length : Nat) : Prop :=
  ∃ r ∈ Region.all, r.first.toNat ≤ (canonical a).toNat ∧ (canonical a).toNat ≤ r.last.toNat ∧
    (canonical a).toNat + length ≤ r.last.toNat + 1

instance (a : Address) (length : Nat) : Decidable (Fits a length) :=
  inferInstanceAs (Decidable (∃ r ∈ Region.all, _))

/-- How an access fails that does not lie inside one region: it starts outside of all regions, or
it starts inside one and runs past its end. -/
def faultAt (a : Address) (length : Nat) : Fault :=
  if Fits a 0 then .outOfBounds (canonical a) length else .unmapped (canonical a)

variable {a : Address} {n : Nat} {r : Region}

theorem fits_iff : Fits a n ↔
    ∃ r, Region.of? a = some r ∧ (canonical a).toNat - r.first.toNat + n ≤ r.size := by
  constructor
  · rintro ⟨r, -, hfirst, hlast, hend⟩
    refine ⟨r, region_of_holds (holds_iff_canonical.2 ⟨hfirst, hlast⟩), ?_⟩
    unfold Region.size
    omega
  · rintro ⟨r, hr, hend⟩
    obtain ⟨hfirst, hlast⟩ := holds_iff_canonical.1 (holds_of_region hr)
    refine ⟨r, by cases r <;> decide, hfirst, hlast, ?_⟩
    unfold Region.size at hend
    omega

theorem Fits.mono {k : Nat} (h : Fits a n) (hk : k ≤ n) : Fits a k := by
  obtain ⟨r, hr, hfirst, hlast, hend⟩ := h
  exact ⟨r, hr, hfirst, hlast, by omega⟩

theorem fits_zero_iff : Fits a 0 ↔ ∃ r, Region.of? a = some r := by
  rw [fits_iff]
  refine exists_congr fun r => and_iff_left_of_imp fun hr => ?_
  obtain ⟨hfirst, hlast⟩ := holds_iff_canonical.1 (holds_of_region hr)
  unfold Region.size
  omega

theorem fits_canonical : Fits (canonical a) n ↔ Fits a n := by
  simp only [Fits, canonical_canonical]

/-- **An access succeeds exactly if it lies inside one region.** -/
theorem spot_eq_fits (a : Address) (n : Nat) :
    spot a n = if Fits a n then .ok (canonical a).toNat else .error (faultAt a n) := by
  rw [spot_eq, faultAt, if_congr fits_iff rfl rfl]
  cases hr : Region.of? a with
  | none =>
    have hnone : ¬ Fits a 0 := by simp [fits_zero_iff, hr]
    simp [hnone]
  | some r =>
    have hsome : Fits a 0 := fits_zero_iff.2 ⟨r, hr⟩
    simp only [Option.some.injEq, exists_eq_left', hsome, if_true]

theorem Fits.exists_extent (h : Fits a n) :
    ∃ x, locate a n = .ok x ∧ x.start = (canonical a).toNat := by
  have hspot := spot_eq_fits a n
  rw [if_pos h, spot] at hspot
  cases hx : locate a n with
  | error f =>
    rw [hx] at hspot
    cases hspot
  | ok x =>
    rw [hx] at hspot
    exact ⟨x, rfl, Except.ok.inj hspot⟩

theorem Fits.inside (h : Fits a n) : Inside (canonical a).toNat n :=
  inside_of_spot (by rw [spot_eq_fits, if_pos h])

/-! ## Numbers and their bytes -/

/-- The four bytes of a word, lowest first. -/
def littleEndian (w : UInt32) : List UInt8 :=
  (List.range 4).map fun k => UInt8.ofNat (w.toNat / 256 ^ k)

theorem toUInt8_shiftRight (w : UInt32) {s : UInt32} {k : Nat} (hs : s.toNat = 8 * k)
    (hk : k < 4) : (w >>> s).toUInt8 = UInt8.ofNat (w.toNat / 256 ^ k) := by
  apply UInt8.toNat_inj.1
  rw [UInt32.toNat_toUInt8, UInt32.toNat_shiftRight, UInt8.toNat_ofNat',
    Nat.shiftRight_eq_div_pow, hs, Nat.mod_eq_of_lt (show 8 * k < 32 by omega), Nat.pow_mul]

theorem littleEndian_eq (w : UInt32) : littleEndian w = Word.bytes w := by
  have hlow : w.toUInt8 = UInt8.ofNat (w.toNat / 256 ^ 0) := by
    apply UInt8.toNat_inj.1
    rw [UInt32.toNat_toUInt8, UInt8.toNat_ofNat', Nat.pow_zero, Nat.div_one]
  unfold Word.bytes
  rw [hlow, toUInt8_shiftRight w (s := 8) (k := 1) rfl (by omega),
    toUInt8_shiftRight w (s := 16) (k := 2) rfl (by omega),
    toUInt8_shiftRight w (s := 24) (k := 3) rfl (by omega)]
  rfl

theorem toNat_ofBytes {bs : List UInt8} (h : bs.length ≤ 4) :
    (Word.ofBytes bs).toNat = Nat.ofDigits 256 (bs.map UInt8.toNat) := by
  have hmod : ∀ bs : List UInt8,
      (Word.ofBytes bs).toNat = Nat.ofDigits 256 (bs.map UInt8.toNat) % 2 ^ 32 := by
    intro bs
    induction bs with
    | nil => rfl
    | cons b bs ih =>
      have h256 : (256 : UInt32).toNat = 256 := rfl
      simp only [Word.ofBytes, UInt32.toNat_add, UInt32.toNat_mul, UInt8.toNat_toUInt32, h256, ih,
        List.map_cons, Nat.ofDigits_cons]
      omega
  have hlt : Nat.ofDigits 256 (bs.map UInt8.toNat) < 256 ^ (bs.map UInt8.toNat).length :=
    Nat.ofDigits_lt_base_pow_length (by omega) fun d hd => by
      obtain ⟨b, -, rfl⟩ := List.mem_map.1 hd
      exact b.toNat_lt
  have hle : 256 ^ bs.length ≤ 256 ^ 4 := Nat.pow_le_pow_right (by omega) h
  rw [List.length_map] at hlt
  rw [hmod, Nat.mod_eq_of_lt (by omega)]

end Memory

/-! ## Writes -/

/-- Something written to memory. -/
inductive Store where
  | bytes (address : Address) (content : List UInt8)
  | word (address : Address) (w : UInt32)
  | words (address : Address) (ws : List UInt32)
  deriving DecidableEq

namespace Store

/-- Where it is written. -/
def address : Store → Address
  | bytes a _ | word a _ | words a _ => a

/-- The bytes that are written. -/
def content : Store → List UInt8
  | bytes _ bs => bs
  | word _ w => Memory.littleEndian w
  | words _ ws => ws.flatMap Memory.littleEndian

/-- Carries out the write. -/
def perform (m : Memory) : Store → Except Memory.Fault Memory
  | bytes a bs => m.writeBytes a bs
  | word a w => m.writeWord a w
  | words a ws => m.writeWords a ws

/-- What the write puts at place `n`, if it succeeds and comes there. -/
def byteAt? (s : Store) (n : Nat) : Option UInt8 :=
  if Memory.Fits s.address s.content.length ∧ (canonical s.address).toNat ≤ n then
    s.content[n - (canonical s.address).toNat]?
  else none

theorem perform_eq (s : Store) (m : Memory) : s.perform m = m.writeBytes s.address s.content := by
  have hcontent : Memory.littleEndian = Word.bytes := funext Memory.littleEndian_eq
  cases s with
  | bytes a bs => rfl
  | word a w => simp only [perform, address, content, hcontent, Memory.writeWord]
  | words a ws => simp only [perform, address, content, hcontent, Memory.writeWords]

end Store

/-- What a sequence of writes leaves at place `n` of blank memory: the byte that was last written
there, zero if there is none. -/
def lastByte (stores : List Store) (n : Nat) : UInt8 :=
  (stores.reverse.findSome? (·.byteAt? n)).getD 0

namespace Memory

/-- Memory after a write; one that fails changes nothing. -/
def store (m : Memory) (s : Store) : Memory :=
  (s.perform m).toOption.getD m

/-- Memory after writes carried out one after the other. -/
def storeAll (m : Memory) (stores : List Store) : Memory :=
  stores.foldl store m

/-- Words written one by one, each behind the one before. -/
def writeEach (m : Memory) (a : Address) : List UInt32 → Except Fault Memory
  | [] => .ok m
  | w :: ws => do
    let m ← m.writeWord a w
    m.writeEach (a + 4) ws

variable {m : Memory} {a : Address} {n : Nat}

theorem writeBytes_eq (m : Memory) (a : Address) (bs : List UInt8) :
    m.writeBytes a bs = if Fits a bs.length then .ok (m.pokeAll (canonical a).toNat bs)
      else .error (faultAt a bs.length) := by
  rw [writeBytes_eq_pokeAll, spot_eq_fits]
  split <;> rfl

theorem store_of_fits {s : Store} (h : Fits s.address s.content.length) :
    m.store s = m.pokeAll (canonical s.address).toNat s.content := by
  rw [store, s.perform_eq, writeBytes_eq, if_pos h]
  rfl

theorem store_of_not_fits {s : Store} (h : ¬ Fits s.address s.content.length) : m.store s = m := by
  rw [store, s.perform_eq, writeBytes_eq, if_neg h]
  rfl

theorem peek_store (m : Memory) (s : Store) (n : Nat) :
    (m.store s).peek n = (s.byteAt? n).getD (m.peek n) := by
  by_cases hfits : Fits s.address s.content.length
  · rw [store_of_fits hfits]
    by_cases hn : (canonical s.address).toNat ≤ n
    · rw [Store.byteAt?, if_pos ⟨hfits, hn⟩]
      by_cases hlt : n - (canonical s.address).toNat < s.content.length
      · have hpeek := holds_pokeAll m hfits.inside _ hlt
        rw [Nat.add_sub_cancel' hn] at hpeek
        rw [hpeek, List.getElem?_eq_getElem hlt, Option.getD_some]
      · rw [peek_pokeAll_of_not (by omega), List.getElem?_eq_none (by omega), Option.getD_none]
    · rw [peek_pokeAll_of_not (by omega), Store.byteAt?, if_neg fun h => hn h.2, Option.getD_none]
  · rw [store_of_not_fits hfits, Store.byteAt?, if_neg fun h => hfits h.1, Option.getD_none]

/-- **At each place stands the byte last written there.** -/
theorem peek_storeAll (m : Memory) (stores : List Store) (n : Nat) :
    (m.storeAll stores).peek n = (stores.reverse.findSome? (·.byteAt? n)).getD (m.peek n) := by
  induction stores generalizing m with
  | nil => rfl
  | cons s stores ih =>
    have hrest := ih (m.store s)
    change (m.storeAll (s :: stores)).peek n = _ at hrest
    rw [hrest, peek_store, List.reverse_cons, List.findSome?_append]
    cases stores.reverse.findSome? (·.byteAt? n) with
    | none => simp
    | some b => rfl

theorem storeAll_snoc (m : Memory) (stores : List Store) (s : Store) :
    m.storeAll (stores ++ [s]) = (m.storeAll stores).store s := by
  simp [storeAll]

/-! ## Words -/

theorem Fits.skip {k : Nat} (h : Fits a (4 * k + n)) (hn : 0 < n) :
    Fits (a + 4 * UInt32.ofNat k) n ∧
      (canonical (a + 4 * UInt32.ofNat k)).toNat = (canonical a).toNat + 4 * k := by
  obtain ⟨r, hr, hfirst, hlast, hend⟩ := h
  have htop : r.last.toNat < 2 ^ 29 := by cases r <;> decide
  have hnext : (canonical (a + 4 * UInt32.ofNat k)).toNat = (canonical a).toNat + 4 * k := by
    have h4 : (4 : UInt32).toNat = 4 := rfl
    rw [toNat_canonical] at hend ⊢
    rw [toNat_canonical, UInt32.toNat_add, UInt32.toNat_mul, UInt32.toNat_ofNat', h4]
    omega
  exact ⟨⟨r, hr, by omega, by omega, by omega⟩, hnext⟩

theorem Fits.next {k : Nat} (h : Fits a (4 * (k + 1))) (hk : 0 < k) : Fits (a + 4) (4 * k) ∧
    (canonical (a + 4)).toNat = (canonical a).toNat + 4 :=
  Fits.skip (k := 1) (h.mono (by omega)) (by omega)

/-- **Words written one by one are written at once.** -/
theorem writeEach_eq {ws : List UInt32} (h : Fits a (4 * ws.length)) :
    m.writeEach a ws = .ok (m.pokeAll (canonical a).toNat (ws.flatMap Word.bytes)) := by
  induction ws generalizing m a with
  | nil => rfl
  | cons w ws ih =>
    have hlen : (Word.bytes w).length = 4 := rfl
    rw [List.length_cons] at h
    have hword : m.writeWord a w = .ok (m.pokeAll (canonical a).toNat (Word.bytes w)) := by
      rw [writeWord, writeBytes_eq, if_pos (h.mono (by omega))]
    change (m.writeWord a w).bind (fun m => m.writeEach (a + 4) ws) = _
    rw [hword, List.flatMap_cons, pokeAll_append, hlen]
    cases ws with
    | nil => rfl
    | cons w' ws =>
      obtain ⟨hrest, hnext⟩ := h.next (by simp)
      exact (ih hrest).trans (by rw [hnext])

theorem writeWords_eq (m : Memory) (a : Address) (ws : List UInt32) :
    m.writeWords a ws = if Fits a (4 * ws.length) then m.writeEach a ws
      else .error (faultAt a (4 * ws.length)) := by
  rw [writeWords, writeBytes_eq, length_bytes]
  split
  next h => rw [writeEach_eq h]
  next => rfl

/-! ## The flat map -/

/-- What an access answers that reads `n` bytes of a flat map. -/
def readFlat (f : Nat → UInt8) (a : Address) (n : Nat) : Except Fault (List UInt8) :=
  if Fits a n then .ok ((List.range n).map fun k => f ((canonical a).toNat + k))
  else .error (faultAt a n)

theorem readBytes_storeAll (stores : List Store) (a : Address) (n : Nat) :
    (empty.storeAll stores).readBytes a n = readFlat (lastByte stores) a n := by
  have hpeek : (empty.storeAll stores).peek = lastByte stores := by
    funext k
    rw [peek_storeAll, peek_empty, lastByte]
  rw [readBytes_eq_peek, spot_eq_fits, hpeek, readFlat]
  split <;> rfl

theorem read_storeAll (stores : List Store) (a : Address) (width : Width) :
    ((empty.storeAll stores).read a width.bytes).map UInt32.toNat =
      (readFlat (lastByte stores) a width.bytes).map fun bs =>
        Nat.ofDigits 256 (bs.map UInt8.toNat) := by
  have hwidth : width.bytes ≤ 4 := by cases width <;> decide
  rw [read, readBytes_storeAll, readFlat]
  split
  · refine congrArg Except.ok (toNat_ofBytes ?_)
    simpa using hwidth
  · rfl

/-- **Guest memory is a flat map of bytes.** After any writes, whether they succeeded or not:

* reading bytes, at whatever address and however many, gives the byte last written at each place,
  and reading a number gives the number of these bytes, lowest first;
* one more write succeeds exactly if its bytes lie inside one region; and if it fails, memory is
  as it was;
* words are written all or none, and if they fit, as if one by one. -/
theorem flat_memory (stores : List Store) :
    (∀ a n, (empty.storeAll stores).readBytes a n = readFlat (lastByte stores) a n) ∧
    (∀ a (width : Width), ((empty.storeAll stores).read a width.bytes).map UInt32.toNat =
      (readFlat (lastByte stores) a width.bytes).map fun bs =>
        Nat.ofDigits 256 (bs.map UInt8.toNat)) ∧
    (∀ s : Store, if Fits s.address s.content.length
      then s.perform (empty.storeAll stores) = .ok (empty.storeAll (stores ++ [s]))
      else s.perform (empty.storeAll stores) = .error (faultAt s.address s.content.length) ∧
        empty.storeAll (stores ++ [s]) = empty.storeAll stores) ∧
    (∀ a ws, (empty.storeAll stores).writeWords a ws = if Fits a (4 * ws.length)
      then (empty.storeAll stores).writeEach a ws else .error (faultAt a (4 * ws.length))) := by
  refine ⟨readBytes_storeAll stores, read_storeAll stores, fun s => ?_, writeWords_eq _⟩
  rw [s.perform_eq, writeBytes_eq, storeAll_snoc]
  split
  next h => rw [store_of_fits h]
  next h => exact ⟨rfl, store_of_not_fits h⟩

end Memory

end DisplayList

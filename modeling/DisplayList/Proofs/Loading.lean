import DisplayList.Proofs.Flat
import DisplayList.Proofs.Following
import DisplayList.Replay

/-!
# Loading a file

A file is decoded into words, the words are written to guest memory chunk by chunk, and a cursor
fetches them one by one. Nothing is lost on the way.

* **`words?_eq_some_iff`**, **`words?_eq_none_iff`**: a file is the bytes of its words, and has
  words exactly if its length is a multiple of four;
* `Memory.writeChunks`, **`writeChunks_eq`**: words written chunk by chunk are written at once;
* `Cursor.readEach`, **`readEach_of_holds`**: the words under a cursor;
* **`load_lossless`**: what was loaded is read back.
-/

namespace DisplayList

open Address Memory

/-! ## Words of a file -/

namespace Replay

variable {bytes : List UInt8} {read words : List UInt32}

theorem bytes_ofBytes (a b c d : UInt8) :
    Word.bytes (Word.ofBytes [a, b, c, d]) = [a, b, c, d] := by
  have hlength : [a, b, c, d].length ≤ 4 := Nat.le_refl 4
  have hnum := toNat_ofBytes hlength
  simp only [List.map_cons, List.map_nil, Nat.ofDigits_cons, Nat.ofDigits_nil] at hnum
  have ha := a.toNat_lt
  have hb := b.toNat_lt
  have hc := c.toNat_lt
  have hd := d.toNat_lt
  generalize Word.ofBytes [a, b, c, d] = w at hnum ⊢
  have hbyte : ∀ (k : Nat) (x : UInt8), w.toNat / 256 ^ k % 256 = x.toNat →
      UInt8.ofNat (w.toNat / 256 ^ k) = x := by
    intro k x hx
    apply UInt8.toNat_inj.1
    rw [UInt8.toNat_ofNat']
    exact hx
  rw [← littleEndian_eq, ← hbyte 0 a (by omega), ← hbyte 1 b (by omega), ← hbyte 2 c (by omega),
    ← hbyte 3 d (by omega)]
  rfl

theorem wordsFrom?_eq_some_iff : wordsFrom? read bytes = some words ↔
    ∃ rest, words = read.reverse ++ rest ∧ bytes = rest.flatMap Word.bytes := by
  fun_induction wordsFrom? read bytes with
  | case1 read =>
    constructor
    · rintro ⟨⟩
      exact ⟨[], (List.append_nil _).symm, rfl⟩
    · rintro ⟨rest, rfl, hrest⟩
      have hlen := congrArg List.length hrest
      rw [length_bytes, List.length_nil] at hlen
      rw [List.length_eq_zero_iff.1 (show rest.length = 0 by omega), List.append_nil]
  | case2 read a b c d bytes ih =>
    rw [ih]
    constructor
    · rintro ⟨rest, rfl, rfl⟩
      refine ⟨Word.ofBytes [a, b, c, d] :: rest, ?_, ?_⟩
      · rw [List.reverse_cons, List.append_assoc, List.singleton_append]
      · rw [List.flatMap_cons, bytes_ofBytes]
        rfl
    · rintro ⟨rest, rfl, hrest⟩
      cases rest with
      | nil => cases hrest
      | cons w rest =>
        have happend : [a, b, c, d] ++ bytes = Word.bytes w ++ rest.flatMap Word.bytes := hrest
        obtain ⟨hword, htail⟩ := List.append_inj happend rfl
        refine ⟨rest, ?_, htail⟩
        rw [hword, ofBytes_bytes, List.reverse_cons, List.append_assoc, List.singleton_append]
  | case3 bytes read hnil hcons =>
    refine iff_of_false nofun ?_
    rintro ⟨rest, -, hrest⟩
    cases rest with
    | nil => exact hnil hrest
    | cons w rest => exact hcons _ _ _ _ _ hrest

/-- **The words of a file** are those whose bytes it is, lowest first. -/
theorem words?_eq_some_iff : words? bytes = some words ↔ bytes = words.flatMap Word.bytes := by
  unfold words?
  rw [wordsFrom?_eq_some_iff]
  simp

/-- **A file has no words** exactly if its length is no multiple of four. -/
theorem words?_eq_none_iff : words? bytes = none ↔ ¬ 4 ∣ bytes.length := by
  unfold words?
  generalize ([] : List UInt32) = read
  fun_induction wordsFrom? read bytes with
  | case1 read => simp
  | case2 read a b c d bytes ih => simpa [Nat.dvd_add_left] using ih
  | case3 bytes read hnil hcons =>
    refine iff_of_true rfl fun hdvd => ?_
    rcases bytes with _ | ⟨a, _ | ⟨b, _ | ⟨c, _ | ⟨d, rest⟩⟩⟩⟩
    · exact hnil rfl
    · simp at hdvd
    · simp at hdvd
    · simp at hdvd
    · exact hcons a b c d rest rfl

end Replay

/-! ## Writing chunk by chunk -/

namespace Memory

variable {m : Memory} {a : Address} {chunks : List (List UInt32)}

/-- Memory with the chunks written one after the other, the first one at `a` and each of the others
at the address after the one before, as a replay's `Replay.load` gives it. -/
def writeChunks (m : Memory) (a : Address) : List (List UInt32) → Except Fault Memory
  | [] => .ok m
  | chunk :: rest => do
    let m ← m.writeWords a chunk
    m.writeChunks (a + 4 * UInt32.ofNat chunk.length) rest

/-- **Words written chunk by chunk are written at once.** An empty chunk at the end is at the
address after all words, which must still lie in the region. -/
theorem writeChunks_eq (h : Fits a (4 * chunks.flatten.length))
    (hlast : chunks.getLast? = some [] → Fits a (4 * chunks.flatten.length + 1)) :
    m.writeChunks a chunks =
      .ok (m.pokeAll (canonical a).toNat (chunks.flatten.flatMap Word.bytes)) := by
  induction chunks generalizing m a with
  | nil => rfl
  | cons chunk rest ih =>
    rw [List.flatten_cons, List.length_append, Nat.mul_add] at h hlast
    have hchunk : m.writeWords a chunk =
        .ok (m.pokeAll (canonical a).toNat (chunk.flatMap Word.bytes)) := by
      rw [writeWords, writeBytes_eq, length_bytes, if_pos (h.mono (by omega))]
    change (m.writeWords a chunk).bind
      (fun m => m.writeChunks (a + 4 * UInt32.ofNat chunk.length) rest) = _
    rw [hchunk, List.flatten_cons, List.flatMap_append, pokeAll_append, length_bytes]
    change Memory.writeChunks _ _ rest = _
    cases rest with
    | nil => rfl
    | cons next rest =>
      rw [List.getLast?_cons_cons] at hlast
      -- Either some words are left, or the chunks that are left are all empty.
      rcases Nat.eq_zero_or_pos (next :: rest).flatten.length with hnone | hsome
      · have hempty : (next :: rest).getLast? = some [] := by
          rw [List.getLast?_eq_some_getLast (List.cons_ne_nil _ _)]
          have hall := List.flatten_eq_nil_iff.1 (List.length_eq_zero_iff.1 hnone)
          exact congrArg some (hall _ (List.getLast_mem _))
        obtain ⟨hfits, hnext⟩ :=
          Fits.skip (k := chunk.length) ((hlast hempty).mono (by omega)) Nat.one_pos
        rw [ih (hfits.mono (by omega)) fun _ => hfits.mono (by omega), hnext]
      · obtain ⟨hfits, hnext⟩ := h.skip (by omega)
        refine (ih hfits fun he => ?_).trans (by rw [hnext])
        exact (Fits.skip (k := chunk.length) ((hlast he).mono (by omega)) (by omega)).1

/-! ## Reading it back -/

/-- **What memory holds is read.** -/
theorem readBytes_of_holds {bs : List UInt8} (h : Fits a bs.length)
    (hbs : m.Holds (canonical a).toNat bs) : m.readBytes a bs.length = .ok bs := by
  rw [readBytes_eq_peek, spot_eq_fits, if_pos h]
  refine congrArg Except.ok (List.ext_getElem (by simp) fun k _ hk => ?_)
  rw [List.getElem_map, List.getElem_range]
  exact hbs k hk

end Memory

namespace Cursor

variable {m : Memory} {a : Address} {words : List UInt32}

/-- The next `n` elements one by one, and the cursor past them. -/
def readEach (m : Memory) (c : Cursor) : (n : Nat) → Except Fault (List UInt32 × Cursor)
  | 0 => .ok ([], c)
  | n + 1 => do
    let (v, c) ← c.read m
    let (vs, c) ← c.readEach m n
    return (v :: vs, c)

theorem readEach_succ_iff {n : Nat} {ws : List UInt32} {c d : Cursor} :
    c.readEach m (n + 1) = .ok (ws, d) ↔ ∃ x xs, ws = x :: xs ∧
      c.read m = .ok (x, c.advance 1) ∧ (c.advance 1).readEach m n = .ok (xs, d) := by
  change ((c.read m).bind fun y => (y.2.readEach m n).bind fun z => .ok (y.1 :: z.1, z.2)) = _ ↔ _
  constructor
  · intro h
    cases hx : c.read m with
    | error f =>
      rw [hx] at h
      cases h
    | ok y =>
      obtain ⟨x, c'⟩ := y
      obtain rfl := advance_of_read hx
      rw [hx] at h
      change (((c.advance 1).readEach m n).bind fun z => .ok (x :: z.1, z.2)) = _ at h
      cases hxs : (c.advance 1).readEach m n with
      | error f =>
        rw [hxs] at h
        cases h
      | ok z =>
        rw [hxs] at h
        cases h
        exact ⟨x, z.1, rfl, rfl, rfl⟩
  · rintro ⟨x, xs, rfl, hx, hxs⟩
    rw [hx]
    change (((c.advance 1).readEach m n).bind fun z => .ok (x :: z.1, z.2)) = _
    rw [hxs]
    rfl

/-- **The words under a cursor**, one by one. -/
theorem readEach_of_holds (h : Fits a (4 * words.length))
    (hwords : m.Holds (canonical a).toNat (words.flatMap Word.bytes)) :
    (Cursor.mk a .word).readEach m words.length =
      .ok (words, (Cursor.mk a .word).advance words.length) := by
  induction words generalizing a with
  | nil => exact congrArg (fun c => Except.ok ([], c)) (advance_zero _).symm
  | cons w words ih =>
    rw [List.flatMap_cons, holds_append] at hwords
    have hread : (Cursor.mk a .word).read m = .ok (w, ⟨a + 4, .word⟩) := by
      have hfits : Fits a (Word.bytes w).length :=
        h.mono (by rw [List.length_cons]; change 4 ≤ _; omega)
      have hbytes : m.readBytes a 4 = .ok (Word.bytes w) := readBytes_of_holds hfits hwords.1
      change ((m.readBytes a 4).map Word.ofBytes).map _ = _
      rw [hbytes, advance_one]
      exact congrArg (fun v => Except.ok (v, _)) (ofBytes_bytes w)
    have hrest : (Cursor.mk (a + 4) .word).readEach m words.length =
        .ok (words, (Cursor.mk (a + 4) .word).advance words.length) := by
      cases words with
      | nil => exact congrArg (fun c => Except.ok ([], c)) (advance_zero _).symm
      | cons next rest =>
        obtain ⟨hfits, hnext⟩ := h.next (Nat.zero_lt_succ _)
        refine ih hfits ?_
        rw [hnext]
        exact hwords.2
    rw [← advance_one] at hread hrest
    rw [advance_advance, Int.add_comm] at hrest
    exact readEach_succ_iff.2 ⟨w, words, rfl, hread, hrest⟩

theorem openAt_of_fits (h : Fits a 0) : openAt a 4 = .ok ⟨canonical a, .word⟩ := by
  have hwidth : Width.ofStep? 4 = some .word := by decide
  have hmapped : isMapped (canonical a) = true :=
    isMapped_iff.2 (fits_zero_iff.1 (fits_canonical.2 h))
  rw [openAt, hwidth]
  exact if_pos hmapped

end Cursor

/-! ## Loading is lossless -/

/-- **Loading a file is lossless.** A file has no words exactly if its length is no multiple of
four. Otherwise let its words be cut into chunks, some of them perhaps empty, and let the file lie
inside one region, at whatever address, with the place of the last chunk if that is empty. Then
every chunk is written; reading the range gives the file; and a cursor over words that is opened at
the address fetches the words of the file one by one. -/
theorem load_lossless (bytes : List UInt8) :
    (Replay.words? bytes = none ↔ ¬ 4 ∣ bytes.length) ∧
    ∀ words, Replay.words? bytes = some words → ∀ (m : Memory) (a : Address) chunks,
      chunks.flatten = words → Fits a bytes.length →
      (chunks.getLast? = some [] → Fits a (bytes.length + 1)) →
      ∃ m' c, m.writeChunks a chunks = .ok m' ∧ m'.readBytes a bytes.length = .ok bytes ∧
        Cursor.openAt a 4 = .ok c ∧
        c.readEach m' words.length = .ok (words, c.advance words.length) := by
  refine ⟨Replay.words?_eq_none_iff, ?_⟩
  rintro words hwords m a chunks rfl hfits hlast
  obtain rfl := Replay.words?_eq_some_iff.1 hwords
  have hholds := holds_pokeAll m hfits.inside
  have hback := readBytes_of_holds hfits hholds
  rw [length_bytes] at hfits hlast
  refine ⟨_, _, writeChunks_eq hfits hlast, hback, Cursor.openAt_of_fits (hfits.mono (by omega)),
    Cursor.readEach_of_holds (fits_canonical.2 hfits) ?_⟩
  rw [canonical_canonical]
  exact hholds

/-- Twelve bytes up to the last byte of a region, under another name of their address. -/
theorem load_lossless_top :
    let bytes : List UInt8 := [1, 2, 3, 4, 0, 0, 0, 8, 0, 0, 0, 12]
    let chunks : List (List UInt32) := [[0x04030201], [], [0x08000000, 0x0C000000]]
    Replay.words? bytes = some chunks.flatten ∧ Fits 0x89FFFFF4 bytes.length ∧
      (chunks.getLast? = some [] → Fits 0x89FFFFF4 (bytes.length + 1)) ∧
      ∃ m' c, empty.writeChunks 0x89FFFFF4 chunks = .ok m' ∧
        m'.readBytes 0x89FFFFF4 bytes.length = .ok bytes ∧ Cursor.openAt 0x89FFFFF4 4 = .ok c ∧
        c.readEach m' chunks.flatten.length = .ok (chunks.flatten, c.advance 3) := by
  intro bytes chunks
  have hwords : Replay.words? bytes = some chunks.flatten := by decide
  have hfits : Fits 0x89FFFFF4 bytes.length := by decide
  have hlast : chunks.getLast? = some [] → Fits 0x89FFFFF4 (bytes.length + 1) := by decide
  exact ⟨hwords, hfits, hlast, (load_lossless bytes).2 _ hwords empty _ chunks rfl hfits hlast⟩

end DisplayList

import DisplayList.Proofs.Flat
import DisplayList.Proofs.Following

/-!
# Where a cursor is

A cursor is moved by any number of elements either way and reads one element after the other, while
somebody writes to the memory under it. Its address counts all of this modulo 2^32; it is checked
only when something is read.

* `Cursor.Use`, `Cursor.Effect`, `Cursor.course`: what is done with a cursor, what comes of it, and
  where it leads; `Effect.steps`: by how many elements the cursor is moved;
* **`address_course`**: the address of the cursor; `memory_course`: the memory under it;
* **`perform_read`**: what a read gives;
* `advance_add`: two moves whose sum is a move;
* **`position_law`**: all of this, for every course.
-/

namespace DisplayList.Cursor

open Address Memory

/-- Something that is done with a cursor, or to the memory under it. -/
inductive Use where
  | advance (n : Int32)
  | read
  /-- Somebody writes. -/
  | store (s : Store)

/-- What comes of a use. -/
inductive Effect where
  | moved (n : Int32)
  | value (v : UInt32)
  | failed (f : Fault)
  | written

/-- The number of elements by which the cursor was moved on. -/
def Effect.steps : Effect → Int
  | moved n => n.toInt
  | value _ => 1
  | failed _ => 0
  | written => 0

/-- What is written by a use. -/
def Use.store? : Use → Option Store
  | store s => some s
  | _ => none

/-- Carries out a use. A read that fails leaves the cursor where it was. -/
def perform (m : Memory) (c : Cursor) : Use → Effect × Memory × Cursor
  | .advance n => (.moved n, m, c.advance n.toInt)
  | .read =>
    match c.read m with
    | .ok (v, c) => (.value v, m, c)
    | .error f => (.failed f, m, c)
  | .store s => (.written, m.store s, c)

/-- Carries out uses one after the other. -/
def course (m : Memory) (c : Cursor) : List Use → List Effect × Memory × Cursor
  | [] => ([], m, c)
  | u :: us =>
    let first := c.perform m u
    let rest := course first.2.1 first.2.2 us
    (first.1 :: rest.1, rest.2)

variable {m : Memory} {c : Cursor} {us : List Use}

/-! ## Single uses -/

theorem perform_cursor (m : Memory) (c : Cursor) (u : Use) :
    (c.perform m u).2.2 = c.advance (c.perform m u).1.steps := by
  cases u with
  | advance n => rfl
  | store s => exact (advance_zero c).symm
  | read =>
    unfold perform
    dsimp only
    cases h : c.read m with
    | error f => exact (advance_zero c).symm
    | ok x => exact advance_of_read h

theorem perform_memory (m : Memory) (c : Cursor) (u : Use) :
    (c.perform m u).2.1 = m.storeAll u.store?.toList := by
  cases u with
  | advance n => rfl
  | store s => rfl
  | read =>
    unfold perform
    dsimp only
    cases c.read m <;> rfl

/-! ## Courses -/

theorem cursor_course (m : Memory) (c : Cursor) (us : List Use) :
    (c.course m us).2.2 = c.advance ((c.course m us).1.map Effect.steps).sum := by
  induction us generalizing m c with
  | nil => exact (advance_zero c).symm
  | cons u us ih =>
    unfold course
    dsimp only
    rw [ih, perform_cursor, advance_advance, List.map_cons, List.sum_cons]

theorem memory_course (m : Memory) (c : Cursor) (us : List Use) :
    (c.course m us).2.1 = m.storeAll (us.filterMap Use.store?) := by
  induction us generalizing m c with
  | nil => rfl
  | cons u us ih =>
    unfold course
    dsimp only
    rw [ih, perform_memory, List.filterMap_cons]
    cases u.store? <;> rfl

/-- **The address of a cursor**, modulo 2^32. -/
theorem address_course (m : Memory) (c : Cursor) (us : List Use) :
    ((c.course m us).2.2.address.toNat : Int) =
      (c.address.toNat + c.width.bytes * ((c.course m us).1.map Effect.steps).sum) % 2 ^ 32 := by
  rw [cursor_course, toNat_advance, Int.mul_comm]
  rfl

/-! ## Reads and moves -/

/-- **What a read gives** after some writes: the number that was last written there, lowest byte
first, if the element lies inside one region; and otherwise the cursor stays. -/
theorem perform_read (stores : List Store) (c : Cursor) :
    match readFlat (lastByte stores) c.address c.width.bytes with
    | .ok bs => ∃ v, v.toNat = Nat.ofDigits 256 (bs.map UInt8.toNat) ∧
        c.perform (empty.storeAll stores) .read =
          (.value v, empty.storeAll stores, c.advance 1)
    | .error f =>
        c.perform (empty.storeAll stores) .read = (.failed f, empty.storeAll stores, c) := by
  have hread := read_storeAll stores c.address c.width
  unfold perform Cursor.read
  cases hflat : readFlat (lastByte stores) c.address c.width.bytes with
  | error f =>
    rw [hflat] at hread
    cases hv : (empty.storeAll stores).read c.address c.width.bytes with
    | error g =>
      rw [hv] at hread
      cases hread
      rfl
    | ok v =>
      rw [hv] at hread
      cases hread
  | ok bs =>
    rw [hflat] at hread
    cases hv : (empty.storeAll stores).read c.address c.width.bytes with
    | error g =>
      rw [hv] at hread
      cases hread
    | ok v =>
      rw [hv] at hread
      exact ⟨v, Except.ok.inj hread, rfl⟩

theorem advance_add {n k : Int32} (hlow : -2 ^ 31 ≤ n.toInt + k.toInt)
    (hhigh : n.toInt + k.toInt < 2 ^ 31) :
    (c.advance n.toInt).advance k.toInt = c.advance (n + k).toInt := by
  rw [advance_advance, Int32.toInt_add, Int.bmod_eq_of_le (by omega) (by omega)]

/-- **The position law.** A cursor of elements of one, two or four bytes is moved and read in any
order, and other writes come between, in memory to which something may have been written before.
Then wherever it has come to,

* it has elements of the same width, and its address is the first one and as many elements on as
  the moves and the reads that succeeded have made, modulo 2^32;
* a read gives the number that was last written at its address, alias bits apart, lowest byte first,
  and moves it by one element, if the element lies inside one region; otherwise the read fails, and
  the cursor stays;
* two moves whose sum is one are that move. -/
theorem position_law (before : List Store) (c : Cursor) (us : List Use) :
    let (effects, m, d) := c.course (empty.storeAll before) us
    d.width = c.width ∧
    (d.address.toNat : Int) =
      (c.address.toNat + c.width.bytes * (effects.map Effect.steps).sum) % 2 ^ 32 ∧
    (match readFlat (lastByte (before ++ us.filterMap Use.store?)) d.address c.width.bytes with
      | .ok bs => ∃ v, v.toNat = Nat.ofDigits 256 (bs.map UInt8.toNat) ∧
          d.perform m .read = (.value v, m, d.advance 1)
      | .error f => d.perform m .read = (.failed f, m, d)) ∧
    ∀ n k : Int32, -2 ^ 31 ≤ n.toInt + k.toInt → n.toInt + k.toInt < 2 ^ 31 →
      (d.advance n.toInt).advance k.toInt = d.advance (n + k).toInt := by
  have hwidth : (c.course (empty.storeAll before) us).2.2.width = c.width := by
    rw [cursor_course]
    rfl
  have hmemory : (c.course (empty.storeAll before) us).2.1 =
      empty.storeAll (before ++ us.filterMap Use.store?) := by
    rw [memory_course, storeAll, storeAll, storeAll, List.foldl_append]
  have hread := perform_read (before ++ us.filterMap Use.store?)
    (c.course (empty.storeAll before) us).2.2
  rw [hwidth, ← hmemory] at hread
  exact ⟨hwidth, address_course _ _ _, hread, fun n k => advance_add⟩

/-- A read that fails, and three half words on past the last address of all. -/
theorem position_law_wrapping :
    let d := (Cursor.course empty ⟨0xFFFFFFFE, .half⟩ [.read, .advance 3]).2.2
    let n : Int32 := 0x40000000
    let k : Int32 := 0x3FFFFFFF
    (d.address.toNat : Int) = 4 ∧
      -2 ^ 31 ≤ n.toInt + k.toInt ∧ n.toInt + k.toInt < 2 ^ 31 ∧
      (d.advance n.toInt).advance k.toInt = d.advance (n + k).toInt := by
  intro d n k
  obtain ⟨-, haddress, -, hmoves⟩ :=
    position_law [] ⟨0xFFFFFFFE, .half⟩ [.read, .advance 3]
  exact ⟨haddress, by decide, by decide, hmoves n k (by decide) (by decide)⟩

end DisplayList.Cursor

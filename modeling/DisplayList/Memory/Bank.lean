import DisplayList.Memory.Page
import DisplayList.Memory.Region

/-!
# Banks

The pages of one region. A page is set aside when a byte of it is first written, and a page that is
not there reads as zeros. An access goes from page to page: it is split where a page ends, so that
each of its pieces lies in one page.
-/

namespace DisplayList

/-- How many pages the region has. The last of them may be longer than what is left of the
region. -/
def Region.pages (r : Region) : Nat :=
  (r.size + Memory.pageSize - 1) / Memory.pageSize

namespace Memory

/-! ## Where pages end -/

/-- How many of the `length` bytes from `offset` on lie in the page of the first of them. -/
def stretch (offset length : Nat) : Nat :=
  min (pageSize - offset % pageSize) length

variable {offset length : Nat}

theorem stretch_pos (offset : Nat) (h : 0 < length) : 0 < stretch offset length := by
  have hmod := Nat.mod_lt offset pageSize_pos
  unfold stretch
  omega

theorem stretch_le : stretch offset length ≤ length :=
  Nat.min_le_right _ _

theorem mod_add_stretch_le : offset % pageSize + stretch offset length ≤ pageSize := by
  have hmod := Nat.mod_lt offset pageSize_pos
  unfold stretch
  omega

theorem page_lt {r : Region} (h : offset + length ≤ r.size) (hpos : 0 < length) :
    offset / pageSize < r.pages := by
  unfold Region.pages pageSize
  omega

/-! ## The pages of a region -/

/-- The pages of a region, those that were set aside. -/
structure Bank (r : Region) where
  pages : Vector (Option Page) r.pages

namespace Bank

variable {r : Region}

/-- No page was set aside. -/
def empty : Bank r :=
  ⟨Vector.replicate _ none⟩

/-- The `length` bytes from `offset` on. -/
@[semireducible]
def read (bank : Bank r) (offset length : Nat) (h : offset + length ≤ r.size) : List UInt8 :=
  if hlen : length = 0 then []
  else
    have hpage := page_lt h (Nat.pos_of_ne_zero hlen)
    let n := stretch offset length
    have hn : n ≤ length := stretch_le
    let piece :=
      match bank.pages[offset / pageSize] with
      | some p => p.slice (offset % pageSize) n mod_add_stretch_le
      | none => List.replicate n 0
    piece ++ bank.read (offset + n) (length - n) (by omega)
termination_by length
decreasing_by
  have := stretch_pos offset (Nat.pos_of_ne_zero hlen)
  omega

/-- The bank with the bytes `bs` from `offset` on. A page is set aside as soon as a piece of them
comes to lie in it. -/
@[semireducible]
def write (bank : Bank r) (offset : Nat) (bs : List UInt8) (h : offset + bs.length ≤ r.size) :
    Bank r :=
  if hlen : bs.length = 0 then bank
  else
    have hpage := page_lt h (Nat.pos_of_ne_zero hlen)
    let n := stretch offset bs.length
    have hn : n ≤ bs.length := stretch_le
    have htake : (bs.take n).length = n := List.length_take_of_le hn
    have hdrop : (bs.drop n).length = bs.length - n := List.length_drop
    let page := bank.pages[offset / pageSize].getD Page.blank
    let page := page.write (offset % pageSize) (bs.take n) (htake.symm ▸ mod_add_stretch_le)
    (Bank.mk (bank.pages.set (offset / pageSize) (some page) hpage)).write (offset + n)
      (bs.drop n) (by omega)
termination_by bs.length
decreasing_by
  have := stretch_pos offset (Nat.pos_of_ne_zero hlen)
  rw [List.length_drop]
  omega

/-- How many pages were set aside. -/
def count (bank : Bank r) : Nat :=
  bank.pages.countP Option.isSome

end Bank

end Memory

end DisplayList

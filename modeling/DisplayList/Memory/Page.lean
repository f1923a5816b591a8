/-!
# Pages

The unit in which guest memory is set aside: 64 KiB, all zero at first.
-/

namespace DisplayList.Memory

/-- The number of bytes of a page. -/
def pageSize : Nat := 65536

theorem pageSize_pos : 0 < pageSize := by
  decide

/-- One page of bytes. -/
structure Page where
  bytes : ByteArray
  size_bytes : bytes.size = pageSize

namespace Page

/-- A page of zeros. -/
def blank : Page where
  bytes := ⟨Array.replicate pageSize 0⟩
  size_bytes := Array.size_replicate

/-- The byte at place `i`. -/
def get (p : Page) (i : Fin pageSize) : UInt8 :=
  p.bytes.get i.val (p.size_bytes.symm ▸ i.isLt)

/-- The page with `b` at place `i`. -/
def set (p : Page) (i : Fin pageSize) (b : UInt8) : Page where
  bytes := p.bytes.set i.val b (p.size_bytes.symm ▸ i.isLt)
  size_bytes := (Array.size_set ..).trans p.size_bytes

/-- The `n` bytes from place `i` on. -/
def slice (p : Page) (i n : Nat) (h : i + n ≤ pageSize) : List UInt8 :=
  List.ofFn fun k : Fin n => p.get ⟨i + k, by omega⟩

/-- The page with the bytes `bs` from place `i` on. -/
def write (p : Page) (i : Nat) : (bs : List UInt8) → i + bs.length ≤ pageSize → Page
  | [], _ => p
  | b :: bs, h =>
    have hlen : (b :: bs).length = bs.length + 1 := List.length_cons
    (p.set ⟨i, by omega⟩ b).write (i + 1) bs (by omega)

theorem get_blank (i : Fin pageSize) : blank.get i = 0 :=
  Array.getElem_replicate ..

theorem get_set (p : Page) (i j : Fin pageSize) (b : UInt8) :
    (p.set i b).get j = if j = i then b else p.get j := by
  obtain ⟨⟨data⟩, h⟩ := p
  have hi : i.val < data.size := Nat.lt_of_lt_of_eq i.isLt h.symm
  have hj : j.val < (data.set i.val b hi).size :=
    Nat.lt_of_lt_of_eq j.isLt ((Array.size_set ..).trans h).symm
  refine (Array.getElem_set hi hj).trans ?_
  simp only [Fin.ext_iff, eq_comm (a := i.val)]
  rfl

end Page

end DisplayList.Memory

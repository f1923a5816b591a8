import DisplayList.Memory.Basic
import Mathlib.Data.List.Range

/-!
# Memory byte by byte

An access goes from page to page. Seen from outside, memory is a map from canonical addresses to
bytes, and an access reads or writes one byte after the other: where pages end makes no difference,
and neither does it matter which of them are there.

* `Bank.get`, `Bank.setAll`: single bytes of a bank, and bytes set one by one; **`Bank.read_eq`**,
  **`Bank.write_eq`**: what is read and written page by page is read and written byte by byte;
* `peek`, `poke`, `pokeAll`: the same for the whole of memory; `peek_poke_self`,
  `peek_poke_of_ne`: the byte written is there, and no other one changes;
* `spot`: where an access begins; **`readBytes_eq_peek`**, **`writeBytes_eq_pokeAll`**: accesses to
  memory.
-/

namespace DisplayList

namespace Memory

/-- The place of byte `n` in its page. -/
def place (n : Nat) : Fin pageSize :=
  ⟨n % pageSize, Nat.mod_lt _ pageSize_pos⟩

theorem place_inj {i j : Nat} (h : i / pageSize = j / pageSize) : place i = place j ↔ i = j := by
  simp only [place, Fin.ext_iff]
  constructor
  · intro hp
    rw [← Nat.div_add_mod i pageSize, h, hp, Nat.div_add_mod]
  · rintro rfl
    rfl

theorem place_add {i k : Nat} (h : i % pageSize + k < pageSize) :
    (i + k) / pageSize = i / pageSize ∧ place (i + k) = ⟨i % pageSize + k, h⟩ := by
  have hdiv : (i + k) / pageSize = i / pageSize := by
    unfold pageSize at *
    omega
  refine ⟨hdiv, Fin.ext ?_⟩
  change (i + k) % pageSize = i % pageSize + k
  unfold pageSize at *
  omega

namespace Bank

variable {r : Region} {bank : Bank r} {offset i j : Nat} {bs : List UInt8} {p : Page}

/-! ## Single bytes of a bank -/

/-- Page `i` of the region, which is blank if it is not there. -/
def page (bank : Bank r) (i : Nat) : Page :=
  bank.pages[i]?.join.getD Page.blank

/-- Byte `k` of the region. -/
def get (bank : Bank r) (k : Nat) : UInt8 :=
  (bank.page (k / pageSize)).get (place k)

/-- The bank with byte `k` set to `b`. -/
def set (bank : Bank r) (k : Nat) (b : UInt8) : Bank r :=
  ⟨bank.pages.setIfInBounds (k / pageSize) (some ((bank.page (k / pageSize)).set (place k) b))⟩

/-- The bank with the bytes `bs` from `k` on, set one by one. -/
def setAll (bank : Bank r) (k : Nat) : List UInt8 → Bank r
  | [] => bank
  | b :: bs => (bank.set k b).setAll (k + 1) bs

theorem page_eq (h : i < r.pages) : bank.page i = bank.pages[i].getD Page.blank := by
  rw [page, Vector.getElem?_eq_getElem h]
  rfl

theorem get_empty (k : Nat) : (empty : Bank r).get k = 0 := by
  have hpage : (empty : Bank r).page (k / pageSize) = Page.blank := by
    simp only [page, empty, Vector.getElem?_replicate]
    split <;> rfl
  rw [get, hpage, Page.get_blank]

theorem get_set (hi : i / pageSize < r.pages) (b : UInt8) :
    (bank.set i b).get j = if j = i then b else bank.get j := by
  have hpage : (bank.set i b).page (j / pageSize) = if i / pageSize = j / pageSize
      then (bank.page (i / pageSize)).set (place i) b else bank.page (j / pageSize) := by
    rw [page, set, Vector.getElem?_setIfInBounds, if_pos hi]
    split
    · rfl
    · rfl
  unfold get
  rw [hpage]
  by_cases h : i / pageSize = j / pageSize
  · rw [if_pos h, Page.get_set, h]
    exact if_congr (place_inj h.symm) rfl rfl
  · have hne : j ≠ i := by
      rintro rfl
      exact h rfl
    rw [if_neg h, if_neg hne]

theorem setAll_append (bank : Bank r) (k : Nat) (bs cs : List UInt8) :
    bank.setAll k (bs ++ cs) = (bank.setAll k bs).setAll (k + bs.length) cs := by
  induction bs generalizing bank k with
  | nil => rfl
  | cons b bs ih =>
    rw [List.length_cons, Nat.add_comm bs.length 1, ← Nat.add_assoc]
    exact ih (bank.set k b) (k + 1)

/-! ## Reading -/

theorem piece_eq {n : Nat} (hpage : offset / pageSize < r.pages)
    (hn : offset % pageSize + n ≤ pageSize) :
    (match bank.pages[offset / pageSize] with
      | some p => p.slice (offset % pageSize) n hn
      | none => List.replicate n 0) = (List.range n).map fun k => bank.get (offset + k) := by
  have hget : ∀ k, (hk : k < n) → bank.get (offset + k) =
      (bank.pages[offset / pageSize].getD Page.blank).get ⟨offset % pageSize + k, by omega⟩ := by
    intro k hk
    obtain ⟨hdiv, hplace⟩ := place_add (i := offset) (k := k) (by omega)
    rw [get, hdiv, hplace, page_eq hpage]
  cases hp : bank.pages[offset / pageSize] with
  | some p =>
    refine List.ext_getElem (by simp [Page.slice]) fun k hk hk' => ?_
    rw [List.getElem_map, List.getElem_range, hget k (by simpa using hk')]
    simp [Page.slice, hp]
  | none =>
    refine List.ext_getElem (by simp) fun k hk hk' => ?_
    rw [List.getElem_map, List.getElem_range, hget k (by simpa using hk')]
    simp [hp, Page.get_blank]

/-- **What is read page by page is read byte by byte.** -/
theorem read_eq (bank : Bank r) (offset length : Nat) (h : offset + length ≤ r.size) :
    bank.read offset length h = (List.range length).map fun k => bank.get (offset + k) := by
  fun_induction bank.read offset length h with
  | case1 => rfl
  | case2 offset length h hlen hpage n hn piece ih =>
    have hsplit : List.range length =
        List.range n ++ (List.range (length - n)).map (n + ·) := by
      rw [← List.range_add, Nat.add_sub_cancel' hn]
    have hpiece : piece = _ := piece_eq hpage mod_add_stretch_le
    rw [ih, hpiece, hsplit, List.map_append, List.map_map]
    simp only [Function.comp_def, Nat.add_assoc, n]

/-! ## Writing -/

theorem set_eq (bank : Bank r) {t : Nat} (hi : i < r.pages) (ht : t < pageSize) (b : UInt8) :
    bank.set (pageSize * i + t) b =
      ⟨bank.pages.set i (some ((bank.pages[i].getD Page.blank).set ⟨t, ht⟩ b))⟩ := by
  have hdiv : (pageSize * i + t) / pageSize = i := by
    rw [Nat.mul_add_div pageSize_pos, Nat.div_eq_of_lt ht, Nat.add_zero]
  have hplace : place (pageSize * i + t) = ⟨t, ht⟩ := by
    refine Fin.ext ?_
    change (pageSize * i + t) % pageSize = t
    rw [Nat.mul_add_mod, Nat.mod_eq_of_lt ht]
  rw [set, hdiv, hplace, page_eq hi]
  refine congrArg Bank.mk (Vector.ext fun j hj => ?_)
  rw [Vector.getElem_setIfInBounds, Vector.getElem_set]

theorem setAll_piece (bank : Bank r) {t : Nat} (hi : i < r.pages)
    (hnil : bs = [] → bank.pages[i].isSome = true) (ht : t + bs.length ≤ pageSize) :
    bank.setAll (pageSize * i + t) bs =
      ⟨bank.pages.set i (some ((bank.pages[i].getD Page.blank).write t bs ht))⟩ := by
  induction bs generalizing bank t with
  | nil =>
    obtain ⟨p, hp⟩ := Option.isSome_iff_exists.1 (hnil rfl)
    refine congrArg Bank.mk ?_
    rw [Page.write, hp, Option.getD_some, ← hp, Vector.set_getElem_self]
  | cons b bs ih =>
    have hlen : (b :: bs).length = bs.length + 1 := List.length_cons
    have hset := set_eq bank hi (t := t) (by omega) b
    have hpage : (bank.set (pageSize * i + t) b).pages[i] =
        some ((bank.pages[i].getD Page.blank).set ⟨t, by omega⟩ b) := by
      rw [hset]
      exact Vector.getElem_set_self hi
    have hrest := ih (bank.set (pageSize * i + t) b) (t := t + 1) (fun _ => by rw [hpage]; rfl)
      (by omega)
    rw [hpage, Option.getD_some, hset, Vector.set_set] at hrest
    rw [setAll, hset, Nat.add_assoc, hrest, Page.write]

/-- **What is written page by page is written byte by byte.** -/
theorem write_eq (bank : Bank r) (offset : Nat) (bs : List UInt8)
    (h : offset + bs.length ≤ r.size) : bank.write offset bs h = bank.setAll offset bs := by
  fun_induction bank.write offset bs h with
  | case1 bank offset bs h hlen => rw [List.length_eq_zero_iff.1 hlen, setAll]
  | case2 bank offset bs h hlen hpage n hn htake hdrop page page' ih =>
    have hpos : 0 < n := stretch_pos offset (Nat.pos_of_ne_zero hlen)
    have hne : bs.take n ≠ [] := List.length_pos_iff.1 (hpos.trans_eq htake.symm)
    have hpiece := setAll_piece bank (t := offset % pageSize) hpage (fun h => absurd h hne)
      (htake.symm ▸ mod_add_stretch_le)
    have hsplit := setAll_append bank offset (bs.take n) (bs.drop n)
    rw [Nat.div_add_mod] at hpiece
    rw [htake, List.take_append_drop] at hsplit
    rw [ih, hsplit, hpiece]

end Bank

end Memory

/-! ## The whole of memory -/

namespace Region

/-- The region of the byte at the canonical address `n`. -/
def at? (n : Nat) : Option Region :=
  all.find? fun r => decide (r.first.toNat ≤ n ∧ n ≤ r.last.toNat)

variable {n : Nat} {r : Region}

theorem at?_eq_some_iff : at? n = some r ↔ r.first.toNat ≤ n ∧ n ≤ r.last.toNat := by
  constructor
  · intro h
    simpa using List.find?_some h
  · rintro ⟨hfirst, hlast⟩
    cases r <;>
      simp only [first, last, UInt32.reduceToNat] at hfirst hlast <;>
      simp [at?, all, List.find?_cons, first, last] <;> grind

end Region

namespace Memory

variable {m : Memory} {i j n : Nat} {r : Region}

/-- Byte `n` of memory. -/
def peek (m : Memory) (n : Nat) : UInt8 :=
  match Region.at? n with
  | none => 0
  | some r => (m.bank r).get (n - r.first.toNat)

/-- Memory with byte `n` set to `b`, if a region has it. -/
def poke (m : Memory) (n : Nat) (b : UInt8) : Memory :=
  match Region.at? n with
  | none => m
  | some r => m.setBank ((m.bank r).set (n - r.first.toNat) b)

/-- Memory with the bytes `bs` from `n` on. -/
def pokeAll (m : Memory) (n : Nat) : List UInt8 → Memory
  | [] => m
  | b :: bs => (m.poke n b).pokeAll (n + 1) bs

/-- The `length` bytes from `n` on lie inside one region. -/
def Inside (n length : Nat) : Prop :=
  ∃ r : Region, r.first.toNat ≤ n ∧ n + length ≤ r.last.toNat + 1

theorem Inside.left {k : Nat} (h : Inside n (i + k)) : Inside n i := by
  obtain ⟨r, hfirst, hend⟩ := h
  exact ⟨r, hfirst, by omega⟩

theorem Inside.right {k : Nat} (h : Inside n (i + k)) : Inside (n + i) k := by
  obtain ⟨r, hfirst, hend⟩ := h
  exact ⟨r, by omega, by omega⟩

theorem peek_eq (hfirst : r.first.toNat ≤ n) (hlast : n ≤ r.last.toNat) :
    m.peek n = (m.bank r).get (n - r.first.toNat) := by
  rw [peek, Region.at?_eq_some_iff.2 ⟨hfirst, hlast⟩]

theorem poke_eq (hfirst : r.first.toNat ≤ n) (hlast : n ≤ r.last.toNat) (b : UInt8) :
    m.poke n b = m.setBank ((m.bank r).set (n - r.first.toNat) b) := by
  rw [poke, Region.at?_eq_some_iff.2 ⟨hfirst, hlast⟩]

theorem peek_empty (n : Nat) : empty.peek n = 0 := by
  unfold peek
  split
  · rfl
  next r _ =>
    cases r <;> exact Bank.get_empty _

theorem peek_poke_self (h : Inside i 1) (b : UInt8) : (m.poke i b).peek i = b := by
  obtain ⟨r, hfirst, hend⟩ := h
  have hlast : i ≤ r.last.toNat := by omega
  have hsize := r.first_add_size
  have hfits : i - r.first.toNat + 1 ≤ r.size := by omega
  rw [poke_eq hfirst hlast, peek_eq hfirst hlast, bank_setBank,
    Bank.get_set (page_lt hfits Nat.one_pos), if_pos rfl]

theorem peek_poke_of_ne (h : j ≠ i) (b : UInt8) : (m.poke i b).peek j = m.peek j := by
  cases hi : Region.at? i with
  | none => rw [poke, hi]
  | some r =>
    obtain ⟨hfirst, hlast⟩ := Region.at?_eq_some_iff.1 hi
    rw [poke_eq hfirst hlast]
    unfold peek
    split
    · rfl
    next r' hj =>
      obtain ⟨hfirst', -⟩ := Region.at?_eq_some_iff.1 hj
      by_cases hr : r' = r
      · subst hr
        have hsize := r'.first_add_size
        have hfits : i - r'.first.toNat + 1 ≤ r'.size := by omega
        rw [bank_setBank, Bank.get_set (page_lt hfits Nat.one_pos), if_neg (by omega)]
      · rw [bank_setBank_of_ne m hr]

theorem pokeAll_eq (m : Memory) {k : Nat} {bs : List UInt8} (h : k + bs.length ≤ r.size) :
    m.pokeAll (r.first.toNat + k) bs = m.setBank ((m.bank r).setAll k bs) := by
  induction bs generalizing m k with
  | nil => exact (setBank_bank m).symm
  | cons b bs ih =>
    rw [List.length_cons] at h
    have hsize := r.first_add_size
    have hlast : r.first.toNat + k ≤ r.last.toNat := by omega
    have hpoke := poke_eq (m := m) (Nat.le_add_right _ k) hlast b
    rw [Nat.add_sub_cancel_left] at hpoke
    rw [pokeAll, Nat.add_assoc, ih (m.poke (r.first.toNat + k) b) (by omega), hpoke, bank_setBank,
      setBank_setBank, Bank.setAll]

/-! ## Accesses -/

/-- The canonical address of the first byte of a run. -/
def Extent.start (x : Extent n) : Nat :=
  x.region.first.toNat + x.offset

/-- Where the `length` bytes at `a` begin, if they lie inside one region. -/
def spot (a : Address) (length : Nat) : Except Fault Nat :=
  (locate a length).map Extent.start

theorem inside_of_spot {a : Address} (h : spot a n = .ok i) : Inside i n := by
  unfold spot at h
  cases hx : locate a n with
  | error f =>
    rw [hx] at h
    cases h
  | ok x =>
    rw [hx] at h
    obtain rfl : x.start = i := Except.ok.inj h
    have hfits := x.fits
    have hsize := x.region.first_add_size
    exact ⟨x.region, Nat.le_add_right _ _, by unfold Extent.start; omega⟩

/-- **An access reads byte by byte.** -/
theorem readBytes_eq_peek (m : Memory) (a : Address) (length : Nat) :
    m.readBytes a length =
      (spot a length).map fun i => (List.range length).map fun k => m.peek (i + k) := by
  have hread : ∀ x : Extent length, (m.bank x.region).read x.offset length x.fits =
      (List.range length).map fun k => m.peek (x.start + k) := by
    intro x
    have hfits := x.fits
    have hsize := x.region.first_add_size
    rw [Bank.read_eq]
    refine List.map_congr_left fun k hk => ?_
    have hlt := List.mem_range.1 hk
    have hlast : x.region.first.toNat + (x.offset + k) ≤ x.region.last.toNat := by omega
    rw [Extent.start, Nat.add_assoc, peek_eq (Nat.le_add_right _ _) hlast, Nat.add_sub_cancel_left]
  unfold readBytes spot
  cases locate a length with
  | error f => rfl
  | ok x => exact congrArg Except.ok (hread x)

/-- **An access writes byte by byte.** -/
theorem writeBytes_eq_pokeAll (m : Memory) (a : Address) (bs : List UInt8) :
    m.writeBytes a bs = (spot a bs.length).map fun i => m.pokeAll i bs := by
  have hwrite : ∀ x : Extent bs.length,
      m.setBank ((m.bank x.region).write x.offset bs x.fits) = m.pokeAll x.start bs := by
    intro x
    rw [Bank.write_eq, Extent.start, pokeAll_eq m x.fits]
  unfold writeBytes spot
  cases locate a bs.length with
  | error f => rfl
  | ok x => exact congrArg Except.ok (hwrite x)

end Memory

end DisplayList

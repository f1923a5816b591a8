import DisplayList.Proofs.Flat
import Mathlib.Data.Nat.Count
import Mathlib.Data.Set.Card

/-!
# Pages set aside

A write goes from page to page and sets each of them aside as it comes to it; nothing else ever sets
a page aside. The pages are the blocks of the regions: 64 KiB each, or what the region has.

* `Block`, `Block.Holds`: the blocks of a region;
* `Bank.allotted`, **`Bank.mem_allotted_write`**: the pages of a bank that are set aside, and those
  that a write adds; `Bank.card_allotted`: how many there are;
* `Memory.allotted`, **`mem_allotted_store`**: the same for the whole of memory;
* `Memory.Access`, `Memory.afterAll`: reads and writes one after the other; `Touched`: the blocks
  that they wrote to; **`allotted_afterAll`**: these are set aside, and no others;
* **`pages_counted`**: how many pages are set aside, and by which accesses.
-/

namespace DisplayList

open Address

/-! ## Blocks -/

/-- A block of a region. -/
structure Block where
  region : Region
  index : Nat
  deriving DecidableEq

namespace Block

/-- The byte at place `n` lies in the block: in the region, from the first byte of the block on and
before that of the next. -/
def Holds (b : Block) (n : Nat) : Prop :=
  b.region.first.toNat + Memory.pageSize * b.index ≤ n ∧
    n < b.region.first.toNat + Memory.pageSize * (b.index + 1) ∧ n ≤ b.region.last.toNat

variable {b : Block} {n : Nat}

theorem holds_iff : b.Holds n ↔ Region.at? n = some b.region ∧
    (n - b.region.first.toNat) / Memory.pageSize = b.index := by
  rw [Region.at?_eq_some_iff, Nat.div_eq_iff Memory.pageSize_pos]
  unfold Holds Memory.pageSize
  omega

theorem Holds.region_eq {r : Region} (h : b.Holds n) (hfirst : r.first.toNat ≤ n)
    (hlast : n ≤ r.last.toNat) : b.region = r :=
  Option.some.inj ((holds_iff.1 h).1.symm.trans (Region.at?_eq_some_iff.2 ⟨hfirst, hlast⟩))

end Block

/-- A byte that is written lies in the block. -/
def Store.Covers (s : Store) (b : Block) : Prop :=
  ∃ k < s.content.length, b.Holds ((canonical s.address).toNat + k)

namespace Memory

/-! ## The pages of a bank -/

namespace Bank

variable {r : Region} {i j : Nat}

/-- The numbers of the pages that are set aside. -/
def allotted (bank : Bank r) : Finset Nat :=
  {i ∈ Finset.range r.pages | bank.pages[i]?.join.isSome}

theorem mem_allotted {bank : Bank r} :
    i ∈ bank.allotted ↔ bank.pages[i]?.join.isSome = true := by
  rw [allotted, Finset.mem_filter, Finset.mem_range, and_iff_right_iff_imp]
  intro h
  by_contra hi
  rw [Vector.getElem?_eq_none (Nat.le_of_not_lt hi)] at h
  cases h

theorem card_allotted (bank : Bank r) : bank.allotted.card = bank.count := by
  have hpages : bank.pages.toList = (List.range r.pages).map fun i => bank.pages[i]?.join := by
    refine List.ext_getElem (by simp) fun i hi _ => ?_
    have hi' : i < r.pages := by simpa using hi
    rw [List.getElem_map, List.getElem_range, Vector.getElem?_eq_getElem hi',
      Vector.getElem_toList]
    rfl
  rw [count, ← Vector.countP_toList, hpages, List.countP_map, allotted,
    ← Nat.count_eq_card_filter_range, Nat.count]
  simp only [Function.comp_def, Bool.decide_eq_true]

theorem allotted_empty : (empty : Bank r).allotted = ∅ := by
  refine Finset.eq_empty_of_forall_notMem fun i hi => ?_
  rw [mem_allotted, empty, Vector.getElem?_replicate] at hi
  split at hi <;> cases hi

theorem mem_allotted_set {bank : Bank r} {p : Page} (hj : j < r.pages) :
    i ∈ (Bank.mk (bank.pages.set j (some p))).allotted ↔ i ∈ bank.allotted ∨ j = i := by
  rw [mem_allotted, mem_allotted, Vector.getElem?_set]
  split
  next h => simp [h]
  next h => simp [h]

/-- **A write sets aside the pages that its bytes lie in**, and no others. -/
theorem mem_allotted_write (bank : Bank r) (offset : Nat) (bs : List UInt8)
    (h : offset + bs.length ≤ r.size) : i ∈ (bank.write offset bs h).allotted ↔
      i ∈ bank.allotted ∨ ∃ k < bs.length, (offset + k) / pageSize = i := by
  fun_induction bank.write offset bs h with
  | case1 bank offset bs h hlen => simp [hlen]
  | case2 bank offset bs h hlen hpage n hn htake hdrop page page' ih =>
    have hpos : 0 < n := stretch_pos offset (Nat.pos_of_ne_zero hlen)
    -- All bytes of the piece lie in the page of its first one.
    have hpiece : ∀ k < n, (offset + k) / pageSize = offset / pageSize := fun k hk =>
      (place_add (Nat.lt_of_lt_of_le (Nat.add_lt_add_left hk _) mod_add_stretch_le)).1
    rw [ih, mem_allotted_set hpage, hdrop, or_assoc]
    refine or_congr_right ⟨?_, ?_⟩
    · rintro (rfl | ⟨k, hk, rfl⟩)
      · exact ⟨0, by omega, rfl⟩
      · exact ⟨n + k, by omega, by rw [Nat.add_assoc]⟩
    · rintro ⟨k, hk, rfl⟩
      by_cases hkn : k < n
      · exact .inl (hpiece k hkn).symm
      · exact .inr ⟨k - n, by omega, by rw [Nat.add_assoc, Nat.add_sub_cancel' (by omega)]⟩

end Bank

/-! ## The pages of memory -/

variable {m : Memory} {b : Block} {s : Store}

/-- The blocks of all regions that are set aside. -/
def allotted (m : Memory) : Finset Block :=
  Region.all.toFinset.biUnion fun r => (m.bank r).allotted.image (Block.mk r)

theorem mem_allotted : b ∈ m.allotted ↔ b.index ∈ (m.bank b.region).allotted := by
  obtain ⟨r, i⟩ := b
  have hr : r ∈ Region.all := by cases r <;> decide
  simp [allotted, hr]

theorem card_allotted (m : Memory) : m.allotted.card = m.pageCount := by
  have hdisjoint : ∀ r ∈ Region.all.toFinset, ∀ r' ∈ Region.all.toFinset, r ≠ r' →
      Disjoint ((m.bank r).allotted.image (Block.mk r))
        ((m.bank r').allotted.image (Block.mk r')) := by
    intro r _ r' _ hr
    rw [Finset.disjoint_left]
    intro b hb hb'
    obtain ⟨i, -, rfl⟩ := Finset.mem_image.1 hb
    obtain ⟨i', -, h⟩ := Finset.mem_image.1 hb'
    exact hr (Block.mk.inj h).1.symm
  have hcard : ∀ r, ((m.bank r).allotted.image (Block.mk r)).card = (m.bank r).count := by
    intro r
    rw [Finset.card_image_of_injective _ fun i j h => (Block.mk.inj h).2, Bank.card_allotted]
  rw [allotted, Finset.card_biUnion hdisjoint, Finset.sum_congr rfl fun r _ => hcard r,
    List.sum_toFinset _ (by decide)]
  simp [Region.all, bank, pageCount, Nat.add_assoc]

theorem allotted_empty : empty.allotted = ∅ := by
  refine Finset.eq_empty_of_forall_notMem fun b hb => ?_
  rw [mem_allotted] at hb
  have hbank : empty.bank b.region = .empty := by cases b.region <;> rfl
  rw [hbank, Bank.allotted_empty] at hb
  cases hb

theorem covers_iff_offset {x : Extent s.content.length}
    (hx : x.start = (canonical s.address).toNat) : s.Covers b ↔ b.region = x.region ∧
      ∃ k < s.content.length, (x.offset + k) / pageSize = b.index := by
  have hholds : ∀ k < s.content.length, b.Holds ((canonical s.address).toNat + k) ↔
      b.region = x.region ∧ (x.offset + k) / pageSize = b.index := by
    intro k hk
    have hfits := x.fits
    have hsize := x.region.first_add_size
    have hregion : Region.at? (x.region.first.toNat + (x.offset + k)) = some x.region :=
      Region.at?_eq_some_iff.2 ⟨Nat.le_add_right _ _, by omega⟩
    rw [← hx, Extent.start, Nat.add_assoc, Block.holds_iff, hregion, Option.some.injEq,
      eq_comm (a := x.region)]
    refine and_congr_right fun hr => ?_
    rw [hr, Nat.add_sub_cancel_left]
  constructor
  · rintro ⟨k, hk, hb⟩
    obtain ⟨hr, hi⟩ := (hholds k hk).1 hb
    exact ⟨hr, k, hk, hi⟩
  · rintro ⟨hr, k, hk, hi⟩
    exact ⟨k, hk, (hholds k hk).2 ⟨hr, hi⟩⟩

/-- **The blocks that a write adds** are those that it covers. -/
theorem mem_allotted_store (m : Memory) (s : Store) : b ∈ (m.store s).allotted ↔
    b ∈ m.allotted ∨ Fits s.address s.content.length ∧ s.Covers b := by
  by_cases hfits : Fits s.address s.content.length
  · obtain ⟨x, hlocate, hx⟩ := hfits.exists_extent
    have hstore : m.store s =
        m.setBank ((m.bank x.region).write x.offset s.content x.fits) := by
      rw [store, s.perform_eq, writeBytes, hlocate]
      rfl
    rw [hstore, and_iff_right hfits, covers_iff_offset hx, mem_allotted, mem_allotted]
    obtain ⟨r, i⟩ := b
    by_cases hr : r = x.region
    · subst hr
      rw [bank_setBank, Bank.mem_allotted_write, eq_self, true_and]
    · rw [bank_setBank_of_ne m hr]
      simp [hr]
  · rw [store_of_not_fits hfits]
    simp [hfits]

/-! ## Reads and writes -/

/-- An access to memory. -/
inductive Access where
  | bytes (address : Address) (length : Nat)
  | number (address : Address) (width : Width)
  | store (s : Store)

/-- Memory after the access, if that succeeds. -/
def Access.perform (m : Memory) : Access → Except Fault Memory
  | bytes a n => (m.readBytes a n).map fun _ => m
  | number a width => (m.read a width.bytes).map fun _ => m
  | store s => s.perform m

/-- Memory after an access. -/
def after (m : Memory) (x : Access) : Memory :=
  (x.perform m).toOption.getD m

/-- Memory after accesses made one after the other. -/
def afterAll (m : Memory) (xs : List Access) : Memory :=
  xs.foldl after m

/-- A write among the accesses has succeeded, with a byte in the block. -/
def Touched (xs : List Access) (b : Block) : Prop :=
  ∃ before s behind m, xs = before ++ .store s :: behind ∧
    s.perform (empty.afterAll before) = .ok m ∧ s.Covers b

variable {xs : List Access} {x : Access} {s : Store} {b : Block}

theorem perform_eq_ok_iff : (∃ m', s.perform m = .ok m') ↔ Fits s.address s.content.length := by
  rw [s.perform_eq, writeBytes_eq]
  split <;> simp_all

theorem touched_iff : Touched xs b ↔
    ∃ s, .store s ∈ xs ∧ Fits s.address s.content.length ∧ s.Covers b := by
  constructor
  · rintro ⟨before, s, behind, m, rfl, hs, hb⟩
    exact ⟨s, by simp, perform_eq_ok_iff.1 ⟨m, hs⟩, hb⟩
  · rintro ⟨s, hs, hfits, hb⟩
    obtain ⟨before, behind, rfl⟩ := List.append_of_mem hs
    obtain ⟨m, hm⟩ := perform_eq_ok_iff.2 hfits
    exact ⟨before, s, behind, m, rfl, hm, hb⟩

theorem after_of_ne (h : ∀ s, x ≠ .store s) : m.after x = m := by
  have hread : ∀ {α : Type} (r : Except Fault α),
      ((r.map fun _ => m).toOption.getD m) = m := by
    intro α r
    cases r <;> rfl
  cases x with
  | bytes a n => exact hread _
  | number a width => exact hread _
  | store s => exact absurd rfl (h s)

/-- **The blocks set aside after some accesses** are those written to. -/
theorem allotted_afterAll (xs : List Access) :
    ((empty.afterAll xs).allotted : Set Block) = {b | Touched xs b} := by
  have hmem : ∀ (m : Memory) b, b ∈ (m.afterAll xs).allotted ↔ b ∈ m.allotted ∨
      ∃ s, .store s ∈ xs ∧ Fits s.address s.content.length ∧ s.Covers b := by
    induction xs with
    | nil => simp [afterAll]
    | cons x xs ih =>
      intro m b
      refine (ih (m.after x) b).trans ?_
      cases x with
      | store s =>
        change b ∈ (m.store s).allotted ∨ _ ↔ _
        rw [mem_allotted_store]
        simp [or_assoc, or_and_right, exists_or]
      | bytes a n | number a width =>
        rw [after_of_ne (fun s => Access.noConfusion)]
        simp
  ext b
  rw [Finset.mem_coe, hmem, allotted_empty, Set.mem_ofPred_eq, touched_iff]
  simp

theorem pageCount_afterAll (xs : List Access) :
    ((empty.afterAll xs).pageCount : ℕ∞) = {b | Touched xs b}.encard := by
  rw [← allotted_afterAll, Set.encard_coe_eq_coe_finsetCard, card_allotted]

theorem covers_iff {r : Region} (hr : Region.of? s.address = some r)
    (hfits : Fits s.address s.content.length) (hne : s.content ≠ []) :
    s.Covers b ↔ b.region = r ∧
      ((canonical s.address).toNat - r.first.toNat) / pageSize ≤ b.index ∧
      b.index ≤
        ((canonical s.address).toNat - r.first.toNat + s.content.length - 1) / pageSize := by
  obtain ⟨r', hr', hend⟩ := fits_iff.1 hfits
  obtain rfl := Option.some.inj (hr.symm.trans hr')
  obtain ⟨hfirst, hlast⟩ := holds_iff_canonical.1 (holds_of_region hr)
  have hpos := List.length_pos_iff.2 hne
  unfold Region.size at hend
  constructor
  · rintro ⟨k, hk, hb⟩
    obtain rfl := hb.region_eq (by omega) (by omega : _ ≤ r.last.toNat)
    obtain ⟨hlow, hhigh, -⟩ := hb
    unfold pageSize at *
    exact ⟨rfl, by omega, by omega⟩
  · rintro ⟨rfl, hlow, hhigh⟩
    -- The first byte written that the block can have.
    refine ⟨max (pageSize * b.index) ((canonical s.address).toNat - b.region.first.toNat) -
      ((canonical s.address).toNat - b.region.first.toNat), ?_, ?_⟩
    · unfold pageSize at *
      omega
    · unfold Block.Holds pageSize at *
      omega

theorem touched_snoc_store : Touched (xs ++ [.store s]) b ↔
    Touched xs b ∨ Fits s.address s.content.length ∧ s.Covers b := by
  simp only [touched_iff, List.mem_append, List.mem_singleton, Access.store.injEq, or_and_right,
    exists_or, exists_eq_left]

theorem pageCount_perm {ys : List Access} (h : ys.Perm xs) :
    (empty.afterAll ys).pageCount = (empty.afterAll xs).pageCount := by
  have htouched : {b | Touched ys b} = {b | Touched xs b} := by
    ext b
    simp only [Set.mem_ofPred_eq, touched_iff, h.mem_iff]
  rw [← Nat.cast_inj (R := ℕ∞), pageCount_afterAll, pageCount_afterAll, htouched]

theorem after_of_idle (h : ∀ s, x = .store s → s.content = [] ∨ ∃ f, s.perform m = .error f) :
    m.after x = m := by
  cases x with
  | bytes a n | number a width => exact after_of_ne fun s => Access.noConfusion
  | store s =>
    change m.store s = m
    rcases h s rfl with hnil | ⟨f, hf⟩
    · by_cases hfits : Fits s.address s.content.length
      · rw [store_of_fits hfits, hnil]
        rfl
      · exact store_of_not_fits hfits
    · rw [store, hf]
      rfl

theorem pageCount_of_perform (h : s.perform (empty.afterAll xs) = .ok m) :
    (m.pageCount : ℕ∞) =
      (empty.afterAll xs).pageCount + {b | s.Covers b ∧ ¬ Touched xs b}.encard := by
  have hsnoc : m = empty.afterAll (xs ++ [.store s]) := by
    rw [afterAll, List.foldl_append]
    change m = (s.perform (empty.afterAll xs)).toOption.getD _
    rw [h]
    rfl
  have hfits := perform_eq_ok_iff.1 ⟨m, h⟩
  have hunion : {b | Touched (xs ++ [.store s]) b} =
      {b | Touched xs b} ∪ {b | s.Covers b ∧ ¬ Touched xs b} := by
    ext b
    simp only [Set.mem_ofPred_eq, Set.mem_union, touched_snoc_store, and_iff_right hfits]
    tauto
  rw [hsnoc, pageCount_afterAll, hunion, Set.encard_union_eq, pageCount_afterAll]
  exact Set.disjoint_left.2 fun b hb hb' => hb'.2 hb

/-- **How many pages are set aside.** After reads and writes made one after the other, whether they
succeeded or not:

* there are as many pages as there are blocks in which a byte of some write that succeeded lies;
* in another order, the accesses set as many pages aside;
* an access that is no write, that fails or that writes no byte leaves memory as it was;
* a write that succeeds sets aside one page for each block that it covers and that was not written
  to, and it covers the blocks of its region from that of its first byte to that of its last. -/
theorem pages_counted (xs : List Access) :
    ((empty.afterAll xs).pageCount : ℕ∞) = {b | Touched xs b}.encard ∧
    (∀ ys, ys.Perm xs → (empty.afterAll ys).pageCount = (empty.afterAll xs).pageCount) ∧
    (∀ x, (∀ s, x = .store s →
        s.content = [] ∨ ∃ f, s.perform (empty.afterAll xs) = .error f) →
      (empty.afterAll xs).after x = empty.afterAll xs) ∧
    (∀ (s : Store) m, s.perform (empty.afterAll xs) = .ok m →
      (m.pageCount : ℕ∞) =
        (empty.afterAll xs).pageCount + {b | s.Covers b ∧ ¬ Touched xs b}.encard ∧
      (s.content ≠ [] → ∃ r, Region.of? s.address = some r ∧ ∀ b, s.Covers b ↔ b.region = r ∧
        ((canonical s.address).toNat - r.first.toNat) / pageSize ≤ b.index ∧
        b.index ≤
          ((canonical s.address).toNat - r.first.toNat + s.content.length - 1) / pageSize)) := by
  refine ⟨pageCount_afterAll xs, fun ys => pageCount_perm, fun x => after_of_idle,
    fun s m hm => ⟨pageCount_of_perform hm, fun hne => ?_⟩⟩
  have hfits := perform_eq_ok_iff.1 ⟨m, hm⟩
  obtain ⟨r, hr⟩ := fits_zero_iff.1 (hfits.mono (Nat.zero_le _))
  exact ⟨r, hr, fun b => covers_iff hr hfits hne⟩

/-- A read, a write that runs past the end of main memory, and a write of nothing. -/
def idleAccesses : List Access :=
  [.bytes 0x08800000 16, .store (.bytes 0x09FFFFFE [1, 2, 3]), .store (.bytes 0x08800000 [])]

/-- A word that lies in two blocks, at another name of its address. -/
def straddling : Store :=
  .word 0x4880FFFE 7

theorem pages_counted_straddling :
    idleAccesses.reverse.Perm idleAccesses ∧
      (empty.afterAll idleAccesses.reverse).pageCount = 0 ∧
      (empty.afterAll idleAccesses).after (.store (.bytes 0x08800000 [])) =
        empty.afterAll idleAccesses ∧
      ∃ m, straddling.perform (empty.afterAll idleAccesses) = .ok m ∧ m.pageCount = 2 := by
  obtain ⟨hcount, hperm, hidle, hwrite⟩ := pages_counted idleAccesses
  have hnone : ∀ b, ¬ Touched idleAccesses b := by
    rintro b hb
    obtain ⟨s, hs, hfits, hcovers⟩ := touched_iff.1 hb
    simp only [idleAccesses, List.mem_cons, List.not_mem_nil, reduceCtorEq, Access.store.injEq,
      false_or, or_false] at hs
    rcases hs with rfl | rfl
    · exact absurd hfits (by decide)
    · obtain ⟨k, hk, -⟩ := hcovers
      exact absurd hk (Nat.not_lt_zero k)
  have hzero : (empty.afterAll idleAccesses).pageCount = 0 := by
    rw [Set.eq_empty_of_forall_notMem (s := {b | Touched idleAccesses b}) hnone,
      Set.encard_empty] at hcount
    exact_mod_cast hcount
  have hreverse := List.reverse_perm idleAccesses
  obtain ⟨m, hm⟩ := perform_eq_ok_iff (s := straddling) (m := empty.afterAll idleAccesses).2
    (by decide)
  obtain ⟨hadds, hcovers⟩ := hwrite _ _ hm
  obtain ⟨r, hr, hblocks⟩ := hcovers (by decide)
  obtain rfl : .ram = r := Option.some.inj hr
  have hpair : {b | straddling.Covers b ∧ ¬ Touched idleAccesses b} =
      {(⟨.ram, 128⟩ : Block), ⟨.ram, 129⟩} := by
    have hfirst :
        ((canonical straddling.address).toNat - Region.ram.first.toNat) / pageSize = 128 := by
      decide
    have hlast : ((canonical straddling.address).toNat - Region.ram.first.toNat +
        straddling.content.length - 1) / pageSize = 129 := by
      decide
    ext ⟨r, i⟩
    simp only [Set.mem_ofPred_eq, Set.mem_insert_iff, Set.mem_singleton_iff, hblocks, hnone, hfirst,
      hlast, not_false_eq_true, and_true, Block.mk.injEq, ← and_or_left]
    exact and_congr_right fun _ => by omega
  refine ⟨hreverse, (hperm _ hreverse).trans hzero, hidle _ ?_, m, hm, ?_⟩
  · rintro s ⟨⟩
    exact .inl rfl
  · rw [hpair, hzero, Set.encard_pair (by decide)] at hadds
    exact_mod_cast hadds

end Memory

end DisplayList

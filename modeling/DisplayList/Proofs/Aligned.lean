import DisplayList.Memory.Cursor
import DisplayList.Proofs.Bytewise
import Mathlib.Algebra.Group.Nat.Defs

/-!
# Instruction addresses

An instruction address is a multiple of four below 2^30. At such an address a word is either mapped
as a whole or not at all: no region begins or ends inside a word.

* **`aligned_eq_iff`**: the addresses that `Address.aligned` leaves as they are;
* `spot_eq`: where an access begins, and how it fails; **`spot_word`**, `spot_unmapped`: a mapped
  word can be accessed, and an unmapped one is reported under its own address;
* `aligned_next`: the address after a mapped word.
-/

namespace DisplayList

namespace Address

theorem nat_and_mask (n : Nat) : n &&& 0x3FFFFFFC = 4 * (n / 4 % 2 ^ 28) := by
  have hm : (0x3FFFFFFC : Nat) = (2 ^ 28 - 1) <<< 2 := by decide
  have hr : 4 * (n / 4 % 2 ^ 28) = ((n >>> 2) &&& (2 ^ 28 - 1)) <<< 2 := by
    rw [Nat.and_two_pow_sub_one_eq_mod, Nat.shiftRight_eq_div_pow, Nat.shiftLeft_eq]
    omega
  rw [hm, hr]
  apply Nat.eq_of_testBit_eq
  intro j
  simp only [Nat.testBit_and, Nat.testBit_shiftLeft, Nat.testBit_shiftRight]
  by_cases hj : 2 ≤ j
  · simp [hj, Nat.add_sub_cancel' hj]
  · simp [hj]

theorem toNat_aligned (a : Address) : (aligned a).toNat = 4 * (a.toNat / 4 % 2 ^ 28) := by
  have h : (aligned a).toNat = a.toNat &&& 0x3FFFFFFC := UInt32.toNat_and ..
  rw [h, nat_and_mask]

theorem toNat_canonical (a : Address) : (canonical a).toNat = a.toNat % 2 ^ 30 := by
  have h : (canonical a).toNat = a.toNat &&& (2 ^ 30 - 1) := UInt32.toNat_and ..
  rw [h, Nat.and_two_pow_sub_one_eq_mod]

theorem canonical_canonical (a : Address) : canonical (canonical a) = canonical a := by
  rw [← UInt32.toNat_inj, toNat_canonical, toNat_canonical, Nat.mod_mod]

/-- **The instruction addresses** are the multiples of four below 2^30. -/
theorem aligned_eq_iff {a : Address} : aligned a = a ↔ a.toNat % 4 = 0 ∧ a.toNat < 2 ^ 30 := by
  rw [← UInt32.toNat_inj, toNat_aligned]
  omega

@[simp] theorem aligned_aligned (a : Address) : aligned (aligned a) = aligned a := by
  rw [aligned_eq_iff, toNat_aligned]
  omega

theorem canonical_of_aligned {a : Address} (h : aligned a = a) : canonical a = a := by
  have ha := (aligned_eq_iff.1 h).2
  rw [← UInt32.toNat_inj, toNat_canonical]
  omega

end Address

namespace Memory

variable {a : Address}

theorem holds_iff_canonical {r : Region} : r.holds a = true ↔
    r.first.toNat ≤ (Address.canonical a).toNat ∧
      (Address.canonical a).toNat ≤ r.last.toNat := by
  simp only [Region.holds, Bool.and_eq_true, decide_eq_true_iff, UInt32.le_iff_toNat_le]

theorem holds_iff {r : Region} (h : Address.aligned a = a) :
    r.holds a = true ↔ r.first.toNat ≤ a.toNat ∧ a.toNat ≤ r.last.toNat := by
  rw [holds_iff_canonical, Address.canonical_of_aligned h]

theorem isMapped_iff : isMapped a = true ↔ ∃ r, Region.of? a = some r := by
  unfold isMapped
  exact Option.isSome_iff_exists

theorem holds_of_region {r : Region} (h : Region.of? a = some r) : r.holds a = true := by
  have hr := List.find?_some h
  exact hr

theorem spot_eq (a : Address) (n : Nat) : spot a n =
    match Region.of? a with
    | none => .error (.unmapped (Address.canonical a))
    | some r => if (Address.canonical a).toNat - r.first.toNat + n ≤ r.size
        then .ok (Address.canonical a).toNat else .error (.outOfBounds (Address.canonical a) n) := by
  have hof : Region.of? (Address.canonical a) = Region.of? a := by
    simp only [Region.of?, Region.holds, Address.canonical_canonical]
  unfold spot locate
  dsimp only
  rw [hof]
  cases hr : Region.of? a with
  | none => rfl
  | some r =>
    have hfirst := (holds_iff_canonical.1 (holds_of_region hr)).1
    dsimp only
    split
    · exact congrArg Except.ok (Nat.add_sub_cancel' hfirst)
    · rfl

/-- **A mapped word can be accessed.** -/
theorem spot_word (h : Address.aligned a = a) (hm : isMapped a = true) : spot a 4 = .ok a.toNat := by
  obtain ⟨r, hr⟩ := isMapped_iff.1 hm
  have hin := (holds_iff h).1 (holds_of_region hr)
  have hmod := (Address.aligned_eq_iff.1 h).1
  -- Every region has whole words only.
  have hfit : a.toNat - r.first.toNat + 4 ≤ r.size := by
    cases r <;> simp only [Region.first, Region.last, Region.size, UInt32.reduceToNat] at hin ⊢ <;>
      omega
  rw [spot_eq]
  simp only [Address.canonical_of_aligned h, hr, if_pos hfit]

theorem spot_unmapped {n : Nat} (h : Address.aligned a = a) (hm : isMapped a = false) :
    spot a n = .error (.unmapped a) := by
  have hr : Region.of? a = none := by
    unfold isMapped at hm
    exact Option.isNone_iff_eq_none.1 (Option.isSome_eq_false_iff.1 hm)
  rw [spot_eq]
  simp only [Address.canonical_of_aligned h, hr]

theorem readWord_unmapped (m : Memory) (h : Address.aligned a = a) (hm : isMapped a = false) :
    m.readWord a = .error (.unmapped a) := by
  unfold readWord read
  rw [readBytes_eq_peek, spot_unmapped h hm]
  rfl

theorem isMapped_of_readWord {m : Memory} {x : UInt32} (h : Address.aligned a = a)
    (hx : m.readWord a = .ok x) : isMapped a = true := by
  cases hm : isMapped a with
  | true => rfl
  | false =>
    rw [readWord_unmapped m h hm] at hx
    cases hx

theorem aligned_next (h : Address.aligned a = a) (hm : isMapped a = true) :
    Address.aligned (a + 4) = a + 4 ∧ (a + 4).toNat = a.toNat + 4 := by
  obtain ⟨r, hr⟩ := isMapped_iff.1 hm
  have hin := (holds_iff h).1 (holds_of_region hr)
  have hmod := (Address.aligned_eq_iff.1 h).1
  have hlast : r.last.toNat < 2 ^ 29 := by
    cases r <;> decide
  have hadd : (a + 4).toNat = a.toNat + 4 := by
    rw [UInt32.toNat_add]
    have : (4 : UInt32).toNat = 4 := rfl
    omega
  refine ⟨?_, hadd⟩
  rw [Address.aligned_eq_iff, hadd]
  omega

end Memory

end DisplayList

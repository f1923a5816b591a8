import DisplayList.CommandLine
import DisplayList.Proofs.Numerals

/-!
# Numbers on the command line

A number of 32 bits is given in decimal, or in hexadecimal behind `0x` or `0X`, with underscores
anywhere in its numeral and with blanks around it. Nothing else is accepted.

* `Scored`: numerals with underscores in them; `Writes`: what a number may look like;
* **`readWord?_trim`**: what is read from a text without the blanks around it;
* **`words_accepted`**: what is accepted, what is too large, and every way to write a number.
-/

namespace DisplayList.CommandLine

open Text

variable {base n : Nat} {c : Char} {cs : List Char} {s : String} {v : UInt32}

/-! ## Numerals with underscores -/

/-- Without its underscores `cs` is a numeral of `n`, perhaps behind a plus sign. -/
def Scored (base : Nat) (cs : List Char) (n : Nat) : Prop :=
  Signed base (cs.filter (· != '_')) n

theorem Scored.of_mem (h : Scored base cs n) (hc : c ∈ cs) :
    c = '_' ∨ c = '+' ∨ ∃ d, IsDigit base d c := by
  by_cases hscore : c = '_'
  · exact .inl hscore
  have hkept : c ∈ cs.filter (· != '_') := List.mem_filter.2 ⟨hc, by simpa using hscore⟩
  rcases h with h | ⟨digits, heq, h⟩
  · exact .inr (.inr (h.exists_isDigit hkept))
  · rw [heq] at hkept
    rcases List.mem_cons.1 hkept with rfl | hdigit
    · exact .inr (.inl rfl)
    · exact .inr (.inr (h.exists_isDigit hdigit))

theorem Scored.not_mem (hbase : base ≤ 16) (h : Scored base cs n) (hscore : c ≠ '_')
    (hplus : c ≠ '+') (hdigit : digit? base c = none) : c ∉ cs := by
  intro hc
  rcases h.of_mem hc with rfl | rfl | ⟨d, hd⟩
  · exact hscore rfl
  · exact hplus rfl
  · rw [← digit?_eq_some_iff hbase, hdigit] at hd
    cases hd

theorem Scored.isBlank (hbase : base ≤ 16) (h : Scored base cs n) (hc : c ∈ cs) :
    isBlank c = false := by
  rcases h.of_mem hc with rfl | rfl | ⟨d, hd⟩
  · decide
  · decide
  · exact isBlank_of_isDigit hbase hd

theorem read_eq_some_iff (hbase : base ≤ 16) :
    (readNat? base 4294967296 (cs.filter (· != '_'))).map UInt32.ofNat = some v ↔
      Scored base cs v.toNat := by
  rw [Option.map_eq_some_iff]
  constructor
  · rintro ⟨n, hn, rfl⟩
    obtain ⟨hscored, hlt⟩ := (readNat?_eq_some_iff hbase).1 hn
    rwa [UInt32.toNat_ofNat', Nat.mod_eq_of_lt hlt]
  · intro h
    exact ⟨v.toNat, (readNat?_eq_some_iff hbase).2 ⟨h, v.toNat_lt⟩, UInt32.ofNat_toNat⟩

/-! ## Numbers of 32 bits -/

/-- `cs` writes the number `n`. -/
inductive Writes : List Char → Nat → Prop
  | decimal {cs : List Char} {n : Nat} : Scored 10 cs n → Writes cs n
  | hexadecimal {x : Char} {cs : List Char} {n : Nat} :
    x = 'x' ∨ x = 'X' → Scored 16 cs n → Writes ('0' :: x :: cs) n

theorem Writes.isBlank (h : Writes cs n) (hc : c ∈ cs) : isBlank c = false := by
  cases h with
  | decimal h => exact h.isBlank (by omega) hc
  | hexadecimal hx h =>
    rcases List.mem_cons.1 hc with rfl | hc
    · decide
    · rcases List.mem_cons.1 hc with rfl | hc
      · rcases hx with rfl | rfl <;> decide
      · exact h.isBlank (by omega) hc

theorem writes_prefixed {x : Char} (hx : x = 'x' ∨ x = 'X') :
    Writes ('0' :: x :: cs) n ↔ Scored 16 cs n := by
  constructor
  · intro h
    cases h with
    | decimal h =>
      have hx' : x ∉ '0' :: x :: cs := by
        rcases hx with rfl | rfl <;>
          exact h.not_mem (by omega) (by decide) (by decide) (by decide)
      exact absurd (by simp) hx'
    | hexadecimal _ h => exact h
  · exact .hexadecimal hx

theorem writes_bare (hlower : ∀ digits, cs ≠ '0' :: 'x' :: digits)
    (hupper : ∀ digits, cs ≠ '0' :: 'X' :: digits) : Writes cs n ↔ Scored 10 cs n := by
  constructor
  · intro h
    cases h with
    | decimal h => exact h
    | hexadecimal hx h =>
      rcases hx with rfl | rfl
      · exact absurd rfl (hlower _)
      · exact absurd rfl (hupper _)
  · exact .decimal

/-- **What is read from a text** without the blanks around it. -/
theorem readWord?_trim : readWord? s = some v ↔ Writes (trim s.toList) v.toNat := by
  unfold readWord?
  dsimp only
  split
  next cs heq => rw [heq, read_eq_some_iff (by omega), writes_prefixed (.inl rfl)]
  next cs heq => rw [heq, read_eq_some_iff (by omega), writes_prefixed (.inr rfl)]
  next hlower hupper => rw [read_eq_some_iff (by omega), writes_bare hlower hupper]

theorem Writes.unique {m : Nat} (hm : Writes cs m) (hn : Writes cs n) : m = n := by
  cases hn with
  | hexadecimal hx hn => exact Signed.unique (by omega) ((writes_prefixed hx).1 hm) hn
  | decimal hn =>
    cases hm with
    | hexadecimal hx hm => exact Signed.unique (by omega) hm ((writes_prefixed hx).1 (.decimal hn))
    | decimal hm => exact Signed.unique (by omega) hm hn

/-- A way to write `n`: its digits behind zeros, in lower or upper case, with underscores anywhere
among them. -/
inductive Renders : List Char → Nat → Prop
  | decimal {digits : List Char} {n : Nat} (k : Nat) :
    digits.filter (· != '_') = List.replicate k '0' ++ Nat.toDigits 10 n → Renders digits n
  | hexadecimal {x : Char} {digits : List Char} {n : Nat} (k : Nat) : x = 'x' ∨ x = 'X' →
    (digits.filter (· != '_')).map Char.toLower = List.replicate k '0' ++ Nat.toDigits 16 n →
    Renders ('0' :: x :: digits) n

theorem Renders.writes (h : Renders cs n) : Writes cs n := by
  cases h with
  | decimal k h =>
    refine .decimal (.inl ?_)
    rw [h]
    exact (numeral_toDigits (by omega) n).zeros (by omega) k
  | hexadecimal k hx h =>
    refine .hexadecimal hx (.inl (Numeral.of_toLower (by omega) ?_))
    rw [h]
    exact (numeral_toDigits (by omega) n).zeros (by omega) k

/-- **Numbers on the command line.** A text is accepted as the number `v` exactly if it writes `v`,
blanks around it apart. If it writes a number of more than 32 bits it is refused, and every way to
write a number of 32 bits is accepted. -/
theorem words_accepted (s : String) :
    (∀ v, readWord? s = some v ↔ ∃ cs, Padded cs s.toList ∧ Writes cs v.toNat) ∧
    (∀ cs n, Padded cs s.toList → Writes cs n →
      readWord? s = if n < 2 ^ 32 then some (UInt32.ofNat n) else none) ∧
    (∀ cs v, Padded cs s.toList → Renders cs (UInt32.toNat v) → readWord? s = some v) := by
  have haccepted : ∀ v, readWord? s = some v ↔ ∃ cs, Padded cs s.toList ∧ Writes cs v.toNat := by
    intro v
    rw [readWord?_trim]
    constructor
    · exact fun h => ⟨_, padded_trim _, h⟩
    · rintro ⟨cs, hpadded, h⟩
      rwa [(trim_eq_iff fun c hc => h.isBlank hc).2 hpadded]
  refine ⟨haccepted, fun cs n hpadded h => ?_, fun cs v hpadded h => ?_⟩
  · split
    next hlt =>
      refine (haccepted _).2 ⟨cs, hpadded, ?_⟩
      rwa [UInt32.toNat_ofNat', Nat.mod_eq_of_lt hlt]
    next hge =>
      rw [Option.eq_none_iff_forall_ne_some]
      intro v hv
      rw [readWord?_trim, (trim_eq_iff fun c hc => h.isBlank hc).2 hpadded] at hv
      have hlt := v.toNat_lt
      rw [h.unique hv] at hge
      exact hge hlt
  · exact (haccepted v).2 ⟨cs, hpadded, h.writes⟩

/-- Zeros, underscores, both cases and blanks at once; and the first number that is too large. -/
theorem words_accepted_scored :
    Padded "0X_0Cafe_f00D_".toList "\t 0X_0Cafe_f00D_\n".toList ∧
      Renders "0X_0Cafe_f00D_".toList (0xCAFEF00D : UInt32).toNat ∧
      readWord? "\t 0X_0Cafe_f00D_\n" = some 0xCAFEF00D ∧
      Padded "4_294_967_296".toList "4_294_967_296".toList ∧
      Writes "4_294_967_296".toList 4294967296 ∧ readWord? "4_294_967_296" = none := by
  have hpadded : Padded "0X_0Cafe_f00D_".toList "\t 0X_0Cafe_f00D_\n".toList :=
    ⟨['\t', ' '], ['\n'], by decide, by decide, by decide⟩
  have hrenders : Renders "0X_0Cafe_f00D_".toList (0xCAFEF00D : UInt32).toNat :=
    .hexadecimal 1 (.inr rfl) (by decide)
  have hbare : Padded "4_294_967_296".toList "4_294_967_296".toList :=
    ⟨[], [], by decide, by decide, by decide⟩
  have hlarge : Writes "4_294_967_296".toList 4294967296 :=
    (Renders.decimal 0 (by decide)).writes
  exact ⟨hpadded, hrenders, (words_accepted _).2.2 _ _ hpadded hrenders, hbare, hlarge,
    (words_accepted _).2.1 _ _ hbare hlarge⟩

end DisplayList.CommandLine

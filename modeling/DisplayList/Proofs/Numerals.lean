import DisplayList.Text.Blank
import DisplayList.Text.Number
import Mathlib.Data.List.Forall2
import Mathlib.Data.List.TakeWhile
import Mathlib.Data.Nat.Digits.Defs
import Mathlib.Tactic.IntervalCases
import Mathlib.Tactic.Ring

/-!
# Numbers and blanks in a text

What a text has to be to be read as a number, and what may stand around it.

* `IsDigit`, `Numeral`: the numerals of a base; **`digits?_eq_some_iff`**: they are what is read;
* **`numeral_toDigits`**: each number has one; `Numeral.zeros`, `Numeral.of_toLower`: zeros in
  front of it and the case of its letters do not matter; `Numeral.unique`: it is one of one number;
* `Signed`, **`readNat?_eq_some_iff`**: numerals with a plus sign, below a limit;
* `Blank`, `Padded`, **`trim_eq_iff`**: blanks around a text.
-/

namespace DisplayList.Text

variable {base d n : Nat} {c : Char} {cs : List Char}

/-! ## Digits -/

/-- `c` is a digit of base `base` that stands for `d`: a figure, or a letter of either case. -/
def IsDigit (base d : Nat) (c : Char) : Prop :=
  d < base ∧ (c = d.digitChar ∨ c = d.digitChar.toUpper)

/-- The value of the figure or letter with code `n`. -/
def digitOfCode? (n : Nat) : Option Nat :=
  if 48 ≤ n ∧ n ≤ 57 then some (n - 48)
  else if 97 ≤ n ∧ n ≤ 122 then some (n - 87)
  else if 65 ≤ n ∧ n ≤ 90 then some (n - 55)
  else none

theorem char_le_iff (a b : Char) : a ≤ b ↔ a.toNat ≤ b.toNat := by
  rw [Char.le_def, UInt32.le_iff_toNat_le]
  rfl

theorem digit?_eq (base : Nat) (c : Char) :
    digit? base c = (digitOfCode? c.toNat).filter (· < base) := by
  unfold digit? digitOfCode?
  simp only [char_le_iff, Char.reduceToNat, Bool.and_eq_true, decide_eq_true_eq]
  have hlower : 97 ≤ c.toNat → c.toNat - 97 + 10 = c.toNat - 87 := by omega
  have hupper : 65 ≤ c.toNat → c.toNat - 65 + 10 = c.toNat - 55 := by omega
  grind

theorem digit?_toLower (base : Nat) (c : Char) : digit? base c.toLower = digit? base c := by
  unfold Char.toLower
  split
  next hupper =>
    have hcode : 65 ≤ c.toNat ∧ c.toNat ≤ 90 := by
      simpa [UInt32.le_iff_toNat_le] using hupper
    have hlower : (c.val + ('a'.val - 'A'.val)).toNat = c.toNat + 32 := by
      change (c.toNat + 32) % 2 ^ 32 = c.toNat + 32
      omega
    rw [digit?_eq, digit?_eq]
    unfold digitOfCode?
    rw [Char.toNat, hlower]
    grind
  next => rfl

theorem digit?_of_isDigit (hbase : base ≤ 16) (h : IsDigit base d c) : digit? base c = some d := by
  obtain ⟨hd, hc⟩ := h
  have hd16 : d < 16 := by omega
  interval_cases d <;> rcases hc with rfl | rfl <;> simp [digit?, Nat.digitChar, hd]

theorem isDigit_of_digit? (hbase : base ≤ 16) (h : digit? base c = some d) : IsDigit base d c := by
  rw [digit?_eq] at h
  obtain ⟨hvalue, hd⟩ := Option.filter_eq_some_iff.1 h
  rw [decide_eq_true_eq] at hd
  have hd16 : d < 16 := by omega
  have hcode : (c.toNat = 48 + d ∧ d < 10) ∨ (c.toNat = 87 + d ∧ 10 ≤ d) ∨
      (c.toNat = 55 + d ∧ 10 ≤ d) := by
    unfold digitOfCode? at hvalue
    grind
  have hc : c = Char.ofNat c.toNat := (Char.ofNat_toNat c).symm
  refine ⟨hd, ?_⟩
  rcases hcode with ⟨hcode, hfigure⟩ | ⟨hcode, hletter⟩ | ⟨hcode, hletter⟩
  · rw [hcode] at hc
    interval_cases d <;> exact .inl hc
  · rw [hcode] at hc
    interval_cases d <;> exact .inl hc
  · rw [hcode] at hc
    interval_cases d <;> exact .inr hc

/-- **The digits** of a base. -/
theorem digit?_eq_some_iff (hbase : base ≤ 16) : digit? base c = some d ↔ IsDigit base d c :=
  ⟨isDigit_of_digit? hbase, digit?_of_isDigit hbase⟩

theorem isDigit_digitChar (hd : d < base) : IsDigit base d d.digitChar :=
  ⟨hd, .inl rfl⟩

theorem IsDigit.of_toLower (hbase : base ≤ 16) (h : IsDigit base d c.toLower) :
    IsDigit base d c := by
  rw [← digit?_eq_some_iff hbase] at h ⊢
  rwa [digit?_toLower] at h

theorem not_isDigit (hbase : base ≤ 16) (h : digitOfCode? c.toNat = none) :
    ¬ IsDigit base d c := by
  rw [← digit?_eq_some_iff hbase, digit?_eq, h]
  simp

theorem isBlank_of_isDigit (hbase : base ≤ 16) (h : IsDigit base d c) : isBlank c = false := by
  obtain ⟨hd, hc⟩ := h
  have hd16 : d < 16 := by omega
  interval_cases d <;> rcases hc with rfl | rfl <;> decide

/-! ## Numerals -/

/-- `cs` is a numeral of `n` in base `base`: one digit or more, the most significant one first. -/
def Numeral (base : Nat) (cs : List Char) (n : Nat) : Prop :=
  cs ≠ [] ∧ ∃ ds, List.Forall₂ (IsDigit base) ds cs ∧ n = Nat.ofDigits base ds.reverse

theorem ofDigits_reverse_cons (base d : Nat) (ds : List Nat) :
    Nat.ofDigits base (d :: ds).reverse =
      d * base ^ ds.length + Nat.ofDigits base ds.reverse := by
  rw [List.reverse_cons, Nat.ofDigits_append, Nat.ofDigits_singleton, List.length_reverse]
  ring

theorem digitsFrom?_eq_some_iff (hbase : base ≤ 16) {acc : Nat} :
    digitsFrom? base acc cs = some n ↔ ∃ ds, List.Forall₂ (IsDigit base) ds cs ∧
      n = acc * base ^ ds.length + Nat.ofDigits base ds.reverse := by
  induction cs generalizing acc with
  | nil => simp [digitsFrom?, eq_comm]
  | cons c cs ih =>
    simp only [digitsFrom?, Option.bind_eq_some_iff, digit?_eq_some_iff hbase, ih]
    constructor
    · rintro ⟨d, hd, ds, hds, rfl⟩
      refine ⟨d :: ds, .cons hd hds, ?_⟩
      rw [ofDigits_reverse_cons, List.length_cons]
      ring
    · rintro ⟨_, hds, rfl⟩
      cases hds with
      | @cons d _ ds _ hd hds =>
        refine ⟨d, hd, ds, hds, ?_⟩
        rw [ofDigits_reverse_cons, List.length_cons]
        ring

/-- **What is read as a number** is a numeral. -/
theorem digits?_eq_some_iff (hbase : base ≤ 16) : digits? base cs = some n ↔ Numeral base cs n := by
  cases cs with
  | nil => simp [digits?, Numeral]
  | cons c cs =>
    rw [digits?, digitsFrom?_eq_some_iff hbase]
    · simp [Numeral]
    · simp

theorem Numeral.unique (hbase : base ≤ 16) {m : Nat} (hm : Numeral base cs m)
    (hn : Numeral base cs n) : m = n := by
  rw [← digits?_eq_some_iff hbase] at hm hn
  exact Option.some.inj (hm.symm.trans hn)

theorem Numeral.exists_isDigit (h : Numeral base cs n) (hc : c ∈ cs) : ∃ d, IsDigit base d c := by
  obtain ⟨-, ds, hds, -⟩ := h
  induction hds with
  | nil => cases hc
  | cons hd _ ih =>
    rcases List.mem_cons.1 hc with rfl | hc
    · exact ⟨_, hd⟩
    · exact ih hc

theorem numeral_singleton (h : IsDigit base d c) : Numeral base [c] d :=
  ⟨List.cons_ne_nil _ _, [d], .cons h .nil, by simp⟩

theorem Numeral.concat (h : Numeral base cs n) (hc : IsDigit base d c) :
    Numeral base (cs ++ [c]) (base * n + d) := by
  obtain ⟨-, ds, hds, rfl⟩ := h
  refine ⟨by simp, ds ++ [d], List.rel_append hds (.cons hc .nil), ?_⟩
  rw [List.reverse_append, List.reverse_singleton, List.singleton_append, Nat.ofDigits_cons]
  ring

/-- **Each number has a numeral.** -/
theorem numeral_toDigits (hbase : 1 < base) (n : Nat) : Numeral base (Nat.toDigits base n) n := by
  induction n using Nat.strong_induction_on with
  | _ n ih =>
    rw [Nat.toDigits_eq_if hbase]
    split
    next hlt => exact numeral_singleton (isDigit_digitChar hlt)
    next hge =>
      have hless : n / base < n := Nat.div_lt_self (by omega) hbase
      have hlast : IsDigit base (n % base) (n % base).digitChar :=
        isDigit_digitChar (Nat.mod_lt n (by omega))
      have hconcat := (ih _ hless).concat hlast
      rwa [Nat.div_add_mod] at hconcat

theorem Numeral.zeros (hbase : 0 < base) (h : Numeral base cs n) (k : Nat) :
    Numeral base (List.replicate k '0' ++ cs) n := by
  induction k with
  | zero => exact h
  | succ k ih =>
    obtain ⟨-, ds, hds, hn⟩ := ih
    refine ⟨by simp [List.replicate_succ], 0 :: ds, .cons ⟨hbase, .inl rfl⟩ hds, ?_⟩
    rw [ofDigits_reverse_cons, Nat.zero_mul, Nat.zero_add, hn]

theorem Numeral.of_toLower (hbase : base ≤ 16) (h : Numeral base (cs.map Char.toLower) n) :
    Numeral base cs n := by
  obtain ⟨hne, ds, hds, hn⟩ := h
  refine ⟨by simpa using hne, ds, ?_, hn⟩
  rw [List.forall₂_map_right_iff] at hds
  exact hds.imp fun _ _ hd => hd.of_toLower hbase

/-! ## Signs and limits -/

/-- `cs` is a numeral of `n`, perhaps behind a plus sign. -/
def Signed (base : Nat) (cs : List Char) (n : Nat) : Prop :=
  Numeral base cs n ∨ ∃ digits, cs = '+' :: digits ∧ Numeral base digits n

theorem not_numeral_plus (hbase : base ≤ 16) : ¬ Numeral base ('+' :: cs) n := by
  intro h
  obtain ⟨d, hd⟩ := h.exists_isDigit List.mem_cons_self
  exact not_isDigit hbase rfl hd

/-- **What is read as a number below a limit.** -/
theorem readNat?_eq_some_iff (hbase : base ≤ 16) {limit : Nat} :
    readNat? base limit cs = some n ↔ Signed base cs n ∧ n < limit := by
  unfold readNat?
  rw [Option.filter_eq_some_iff, decide_eq_true_eq]
  refine and_congr_left fun _ => ?_
  split
  next digits =>
    rw [digits?_eq_some_iff hbase]
    constructor
    · exact fun h => .inr ⟨digits, rfl, h⟩
    · rintro (h | ⟨_, heq, h⟩)
      · exact absurd h (not_numeral_plus hbase)
      · cases heq
        exact h
  next hplus =>
    rw [digits?_eq_some_iff hbase]
    exact (or_iff_left fun ⟨digits, heq, _⟩ => hplus digits heq).symm

theorem Signed.unique (hbase : base ≤ 16) {m : Nat} (hm : Signed base cs m)
    (hn : Signed base cs n) : m = n := by
  rcases hm with hm | ⟨digits, rfl, hm⟩
  · rcases hn with hn | ⟨digits, rfl, -⟩
    · exact hm.unique hbase hn
    · exact absurd hm (not_numeral_plus hbase)
  · rcases hn with hn | ⟨_, heq, hn⟩
    · exact absurd hn (not_numeral_plus hbase)
    · cases heq
      exact hm.unique hbase hn

/-! ## Blanks -/

/-- The text is made of blanks alone. -/
def Blank (cs : List Char) : Prop :=
  ∀ c ∈ cs, isBlank c = true

instance (cs : List Char) : Decidable (Blank cs) :=
  List.decidableBAll _ cs

/-- `cs` is `text` with blanks around it. -/
def Padded (text cs : List Char) : Prop :=
  ∃ before after, Blank before ∧ Blank after ∧ cs = before ++ text ++ after

theorem padded_trim (cs : List Char) : Padded (trim cs) cs := by
  have hfront : cs.takeWhile isBlank ++ cs.dropWhile isBlank = cs :=
    List.takeWhile_append_dropWhile
  have hback : (cs.dropWhile isBlank).reverse.takeWhile isBlank ++
      (cs.dropWhile isBlank).reverse.dropWhile isBlank = (cs.dropWhile isBlank).reverse :=
    List.takeWhile_append_dropWhile
  refine ⟨cs.takeWhile isBlank, ((cs.dropWhile isBlank).reverse.takeWhile isBlank).reverse,
    fun c hc => List.mem_takeWhile_imp hc,
    fun c hc => List.mem_takeWhile_imp (List.mem_reverse.1 hc), ?_⟩
  rw [trim, List.append_assoc, ← List.reverse_append, hback, List.reverse_reverse, hfront]

theorem dropWhile_blank_append {before rest : List Char} (hbefore : Blank before)
    (hrest : ∀ c ∈ rest.head?, isBlank c = false) :
    (before ++ rest).dropWhile isBlank = rest := by
  rw [List.dropWhile_append_of_pos hbefore]
  cases rest with
  | nil => rfl
  | cons c rest => exact List.dropWhile_cons_of_neg (by simp [hrest c rfl])

/-- **What is left of a text without the blanks around it**, if there are none in it. -/
theorem trim_eq_iff {text : List Char} (htext : ∀ c ∈ text, isBlank c = false) :
    trim cs = text ↔ Padded text cs := by
  constructor
  · rintro rfl
    exact padded_trim cs
  · rintro ⟨before, after, hbefore, hafter, rfl⟩
    have hhead : ∀ c ∈ text.reverse.head?, isBlank c = false := fun c hc =>
      htext c (List.mem_reverse.1 (List.mem_of_mem_head? hc))
    have hblank : Blank after.reverse := fun c hc => hafter c (List.mem_reverse.1 hc)
    cases text with
    | nil =>
      have hall : Blank (before ++ [] ++ after) := by
        intro c hc
        rcases List.mem_append.1 hc with hc | hc
        · exact hbefore c (by simpa using hc)
        · exact hafter c hc
      rw [trim, List.dropWhile_eq_nil_iff.2 hall]
      rfl
    | cons c text =>
      have hfirst : ∀ c' ∈ (c :: text ++ after).head?, isBlank c' = false := fun c' hc' => by
        cases hc'
        exact htext c List.mem_cons_self
      rw [trim, List.append_assoc, dropWhile_blank_append hbefore hfirst, List.reverse_append,
        dropWhile_blank_append hblank hhead, List.reverse_reverse]

end DisplayList.Text

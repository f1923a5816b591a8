import DisplayList.Proofs.Numerals
import DisplayList.Text.Json
import Mathlib.Data.List.DropRight

/-!
# Texts of JSON objects

What the text of a JSON object may look like whose values are whole numbers and truth values, and
that it is read as the members it shows.

* `Gap`: what may stand between the parts of a text; `Spells`: how a name is written, with escapes
  or without; `Shows`: how a value is; `ShowsMember`, `ShowsMembers`, `ShowsObject`: how members
  and objects are; `exists_showsObject`: every object of such members has a text;
* **`scanString_of_spells`**, **`scanNumber_toDigits`**, **`scanMembers_of_shows`**: how the parts
  are read;
* **`parse?_of_shows`**: the object is read.
-/

namespace DisplayList.Json

open Text

variable {c : Char} {cs rest name : List Char} {v : Json} {members : List (List Char × Json)}
  {member : List Char × Json} {n : Nat}

/-! ## Gaps -/

/-- The text is made of blanks of the language alone. -/
def Gap (cs : List Char) : Prop :=
  ∀ c ∈ cs, (c == ' ' || c == '\t' || c == '\n' || c == '\r') = true

instance (cs : List Char) : Decidable (Gap cs) :=
  List.decidableBAll _ cs

/-- **A gap is skipped** up to what is no blank. -/
theorem skipBlanks_append (hgap : Gap cs)
    (hc : (c == ' ' || c == '\t' || c == '\n' || c == '\r') = false) :
    skipBlanks (cs ++ c :: rest) = c :: rest := by
  rw [skipBlanks, List.dropWhile_append_of_pos hgap]
  exact List.dropWhile_cons_of_neg (by simpa using hc)

/-! ## Names -/

/-- `cs` spells `name` between quotes: each character as it is, or its code behind `\u`. -/
inductive Spells : List Char → List Char → Prop
  | nil : Spells [] []
  | plain {c : Char} {name cs : List Char} : 0x20 ≤ c.toNat → c ≠ '"' → c ≠ '\\' →
    Spells name cs → Spells (c :: name) (c :: cs)
  | escaped {c p q r s : Char} {name cs : List Char} : Numeral 16 [p, q, r, s] c.toNat →
    Spells name cs → Spells (c :: name) ('\\' :: 'u' :: p :: q :: r :: s :: cs)

theorem spells_self
    (h : (name.all fun c => decide (0x20 ≤ c.toNat) && c != '"' && c != '\\') = true) :
    Spells name name := by
  induction name with
  | nil => exact .nil
  | cons c name ih =>
    rw [List.all_cons, Bool.and_eq_true] at h
    obtain ⟨hc, hname⟩ := h
    simp only [Bool.and_eq_true, decide_eq_true_eq, bne_iff_ne] at hc
    exact .plain hc.1.1 hc.1.2 hc.2 (ih hname)

theorem hexDigit?_eq (c : Char) : hexDigit? c = digit? 16 c := by
  rw [digit?_eq]
  unfold hexDigit? digitOfCode?
  simp only [char_le_iff, Char.reduceToNat, Bool.and_eq_true, decide_eq_true_eq]
  grind

theorem hexUnit?_of_numeral {p q r s : Char} (h : Numeral 16 [p, q, r, s] n) :
    hexUnit? p q r s = some n := by
  rw [← digits?_eq_some_iff (by omega)] at h
  simp only [digits?, digitsFrom?, Option.bind_eq_some_iff] at h
  obtain ⟨a, ha, b, hb, c, hc, d, hd, hn⟩ := h
  simp only [hexUnit?, hexDigit?_eq, ha, hb, hc, hd]
  rw [← hn, Nat.zero_mul, Nat.zero_add]
  rfl

/-- **A name is read** as it is spelled. -/
theorem scanString_of_spells (h : Spells name cs) :
    scanString (cs ++ '"' :: rest) = some (name.map Char.toNat, rest) := by
  induction h with
  | nil => rfl
  | @plain c name cs hlow hquote hslash hcs ih =>
    have hplain : (decide (c.toNat < 0x20) || c == '\\') = false := by
      simpa using ⟨hlow, hslash⟩
    rw [List.cons_append, scanString, hplain, ih]
    · rfl
    · exact hquote
    · exact fun _ _ _ _ _ h _ => hslash h
    · exact fun _ _ h _ => hslash h
  | escaped hcode hcs ih =>
    simp only [List.cons_append, scanString, hexUnit?_of_numeral hcode, ih]
    rfl

/-- **Characters are whole code points**: none is half of a surrogate pair. -/
theorem scalars?_map_toNat (cs : List Char) :
    scalars? (cs.map Char.toNat) = some (cs.map Char.toNat) := by
  induction cs with
  | nil => rfl
  | cons c cs ih =>
    have hvalid : c.toNat < 0xD800 ∨ 0xDFFF < c.toNat := by
      rcases c.valid with h | h
      · exact .inl h
      · exact .inr h.1
    have hhigh : (decide (0xD800 ≤ c.toNat) && decide (c.toNat < 0xDC00)) = false := by
      simp only [Bool.and_eq_false_iff, decide_eq_false_iff_not]
      omega
    have hlow : (decide (0xDC00 ≤ c.toNat) && decide (c.toNat < 0xE000)) = false := by
      simp only [Bool.and_eq_false_iff, decide_eq_false_iff_not]
      omega
    rw [List.map_cons, scalars?.eq_def]
    dsimp only
    rw [hhigh, hlow, ih]
    rfl

/-! ## Values -/

/-- `cs` shows the value `v`: a whole number in decimal, without needless zeros, or a truth
value. -/
inductive Shows : Json → List Char → Prop
  | number (n : Nat) : Shows (.number (Nat.toDigits 10 n)) (Nat.toDigits 10 n)
  | bool (b : Bool) : Shows (.bool b) (toString b).toList

theorem toDigits_eq_cons (n : Nat) :
    ∃ c cs, Nat.toDigits 10 n = c :: cs ∧ c.isDigit = true := by
  obtain ⟨c, cs, heq⟩ := List.exists_cons_of_ne_nil (Nat.toDigits_ne_nil (n := n) (b := 10))
  exact ⟨c, cs, heq, Nat.isDigit_of_mem_toDigits (by omega) (by omega) (heq ▸ List.mem_cons_self)⟩

theorem ne_of_isDigit {d : Char} (hc : c.isDigit = true) (hd : d.isDigit = false)
    (heq : c :: cs = d :: rest) : False := by
  rw [(List.cons.inj heq).1, hd] at hc
  cases hc

/-- A number ends before such a text. -/
def Ends (rest : List Char) : Prop :=
  ∀ c ∈ rest.head?, c.isDigit = false ∧ c ≠ '.' ∧ (c == 'e' || c == 'E') = false

theorem toDigits_eq_zero_or (n : Nat) :
    Nat.toDigits 10 n = ['0'] ∨ ∃ c cs, Nat.toDigits 10 n = c :: cs ∧ c ≠ '0' := by
  induction n using Nat.strong_induction_on with
  | _ n ih =>
    rw [Nat.toDigits_eq_if (by omega)]
    split
    next hlt => interval_cases n <;> simp [Nat.digitChar]
    next hge =>
      obtain hzero | ⟨c, cs, heq, hne⟩ := ih (n / 10) (by omega)
      · have hvalue : Numeral 10 ['0'] (n / 10) := hzero ▸ numeral_toDigits (by omega) (n / 10)
        have hfigure : Numeral 10 ['0'] 0 := numeral_singleton ⟨by omega, .inl rfl⟩
        have hnone := hvalue.unique (by omega) hfigure
        omega
      · exact .inr ⟨c, cs ++ [(n % 10).digitChar], by rw [heq]; rfl, hne⟩

theorem spanDigits_append {digits : List Char} (hdigits : ∀ c ∈ digits, c.isDigit = true)
    (hrest : Ends rest) : spanDigits (digits ++ rest) = (digits, rest) := by
  have hstop : rest.takeWhile Char.isDigit = [] ∧ rest.dropWhile Char.isDigit = rest := by
    cases rest with
    | nil => exact ⟨rfl, rfl⟩
    | cons c rest =>
      have hc := (hrest c rfl).1
      exact ⟨List.takeWhile_cons_of_neg (by simp [hc]), List.dropWhile_cons_of_neg (by simp [hc])⟩
  rw [spanDigits, List.takeWhile_append_of_pos hdigits, List.dropWhile_append_of_pos hdigits,
    hstop.1, hstop.2, List.append_nil]

theorem scanWhole_toDigits (n : Nat) (hrest : Ends rest) :
    scanWhole (Nat.toDigits 10 n ++ rest) = some (Nat.toDigits 10 n, rest) := by
  have hspan : spanDigits (Nat.toDigits 10 n ++ rest) = (Nat.toDigits 10 n, rest) :=
    spanDigits_append (fun c hc => Nat.isDigit_of_mem_toDigits (by omega) (by omega) hc) hrest
  rcases toDigits_eq_zero_or n with hzero | ⟨c, cs, heq, hne⟩
  · rw [hzero]
    have hhead : rest.head?.any Char.isDigit = false := by
      cases rest with
      | nil => rfl
      | cons c rest => exact (hrest c rfl).1
    change (if rest.head?.any Char.isDigit then none else some (['0'], rest)) = _
    rw [hhead]
    rfl
  · rw [heq] at hspan ⊢
    rw [List.cons_append, scanWhole]
    · rw [scanDigits, ← List.cons_append, hspan]
    · exact fun _ h => hne (List.cons.inj h).1

/-- **A whole number is read.** -/
theorem scanNumber_toDigits (n : Nat) (hrest : Ends rest) :
    scanNumber (Nat.toDigits 10 n ++ rest) = some (Nat.toDigits 10 n, rest) := by
  have hfraction : scanFraction rest = some ([], rest) := by
    cases rest with
    | nil => rfl
    | cons c rest => exact scanFraction.eq_2 _ fun _ h => (hrest c rfl).2.1 (List.cons.inj h).1
  have hexponent : scanExponent rest = some ([], rest) := by
    cases rest with
    | nil => rfl
    | cons c rest =>
      rw [scanExponent.eq_def]
      dsimp only
      rw [(hrest c rfl).2.2]
      rfl
  have hunsigned : scanUnsigned (Nat.toDigits 10 n ++ rest) = some (Nat.toDigits 10 n, rest) := by
    rw [scanUnsigned, scanWhole_toDigits n hrest]
    change ((scanFraction rest).bind _) = _
    rw [hfraction]
    change ((scanExponent rest).bind _) = _
    rw [hexponent]
    change some (Nat.toDigits 10 n ++ [] ++ [], rest) = _
    rw [List.append_nil, List.append_nil]
  obtain ⟨c, digits, heq, hdigit⟩ := toDigits_eq_cons n
  rw [scanNumber.eq_2, hunsigned]
  intro tail hminus
  rw [heq] at hminus
  exact ne_of_isDigit hdigit rfl hminus

/-- **A value is read.** -/
theorem scanValue_of_shows {gap : List Char} (hgap : Gap gap) (h : Shows v cs)
    (hrest : Ends rest) : scanValue (n + 1) (gap ++ (cs ++ rest)) = some (v, rest) := by
  rw [scanValue.eq_def]
  dsimp only
  cases h with
  | bool b =>
    cases b with
    | false =>
      have hshown : (toString false).toList = ['f', 'a', 'l', 's', 'e'] := by decide
      rw [hshown, List.cons_append, skipBlanks_append hgap rfl]
      rfl
    | true =>
      have hshown : (toString true).toList = ['t', 'r', 'u', 'e'] := by decide
      rw [hshown, List.cons_append, skipBlanks_append hgap rfl]
      rfl
  | number k =>
    have hnumber := scanNumber_toDigits k hrest
    obtain ⟨c, digits, heq, hdigit⟩ := toDigits_eq_cons k
    have hblank : (c == ' ' || c == '\t' || c == '\n' || c == '\r') = false := by
      simp only [Bool.or_eq_false_iff, beq_eq_false_iff_ne]
      refine ⟨⟨⟨?_, ?_⟩, ?_⟩, ?_⟩ <;> (rintro rfl; revert hdigit; decide)
    rw [heq, List.cons_append] at hnumber ⊢
    rw [skipBlanks_append hgap hblank]
    -- No other value begins with a digit.
    split
    next heq => exact (ne_of_isDigit hdigit rfl heq).elim
    next heq => exact (ne_of_isDigit hdigit rfl heq).elim
    next heq => exact (ne_of_isDigit hdigit rfl heq).elim
    next heq => exact (ne_of_isDigit hdigit rfl heq).elim
    next heq => exact (ne_of_isDigit hdigit rfl heq).elim
    next heq => exact (ne_of_isDigit hdigit rfl heq).elim
    next => rw [hnumber]; rfl

/-! ## Members and objects -/

/-- `cs` shows one member: its name between quotes, a colon and its value. -/
def ShowsMember (member : List Char × Json) (cs : List Char) : Prop :=
  ∃ gap₁ spelled gap₂ gap₃ shown gap₄, Gap gap₁ ∧ Spells member.1 spelled ∧ Gap gap₂ ∧ Gap gap₃ ∧
    Shows member.2 shown ∧ Gap gap₄ ∧
    cs = gap₁ ++ '"' :: spelled ++ '"' :: gap₂ ++ ':' :: gap₃ ++ shown ++ gap₄

/-- `cs` shows members one after the other, commas between them, and the end of their object. -/
inductive ShowsMembers : List (List Char × Json) → List Char → Prop
  | last {member : List Char × Json} {cs : List Char} : ShowsMember member cs →
    ShowsMembers [member] (cs ++ ['\x7d'])
  | more {member : List Char × Json} {members : List (List Char × Json)} {cs rest : List Char} :
    ShowsMember member cs → ShowsMembers members rest →
    ShowsMembers (member :: members) (cs ++ ',' :: rest)

/-- `cs` shows an object and nothing else. -/
def ShowsObject (members : List (List Char × Json)) (cs : List Char) : Prop :=
  ∃ gap₁ body gap₂, Gap gap₁ ∧ Gap gap₂ ∧ cs = gap₁ ++ '\x7b' :: body ++ gap₂ ∧
    ((members = [] ∧ ∃ gap, Gap gap ∧ body = gap ++ ['\x7d']) ∨ ShowsMembers members body)

theorem exists_showsMembers (hne : members ≠ []) (h : ∀ member ∈ members,
    (∃ spelled, Spells member.1 spelled) ∧ ∃ shown, Shows member.2 shown) :
    ∃ cs, ShowsMembers members cs := by
  induction members with
  | nil => exact absurd rfl hne
  | cons member members ih =>
    obtain ⟨⟨spelled, hname⟩, shown, hvalue⟩ := h member List.mem_cons_self
    have hgap : Gap [] := by decide
    have hmember : ShowsMember member _ :=
      ⟨[], spelled, [], [], shown, [], hgap, hname, hgap, hgap, hvalue, hgap, rfl⟩
    by_cases hlast : members = []
    · rw [hlast]
      exact ⟨_, .last hmember⟩
    · obtain ⟨rest, hrest⟩ := ih hlast fun m hm => h m (List.mem_cons_of_mem _ hm)
      exact ⟨_, .more hmember hrest⟩

/-- **Every object of such members has a text.** -/
theorem exists_showsObject (h : ∀ member ∈ members,
    (∃ spelled, Spells member.1 spelled) ∧ ∃ shown, Shows member.2 shown) :
    ∃ cs, ShowsObject members cs := by
  have hgap : Gap [] := by decide
  by_cases hne : members = []
  · exact ⟨_, [], _, [], hgap, hgap, rfl, .inl ⟨hne, [], hgap, rfl⟩⟩
  · obtain ⟨body, hbody⟩ := exists_showsMembers hne h
    exact ⟨_, [], body, [], hgap, hgap, rfl, .inr hbody⟩

/-- What a member is read as. -/
def read (member : List Char × Json) : List Nat × Json :=
  (member.1.map Char.toNat, member.2)

theorem ends_gap {d : Char} (hgap : Gap cs) (hd : d = ',' ∨ d = '\x7d') :
    Ends (cs ++ d :: rest) := by
  intro c hc
  cases cs with
  | nil =>
    cases hc
    rcases hd with rfl | rfl <;> decide
  | cons c' cs =>
    cases hc
    have hblank := hgap c List.mem_cons_self
    simp only [Bool.or_eq_true, beq_iff_eq] at hblank
    rcases hblank with ((rfl | rfl) | rfl) | rfl <;> decide

theorem scanMembers_of_showsMember (h : ShowsMember member cs) :
    scanMembers (n + 2) (cs ++ '\x7d' :: rest) = some ([read member], rest) ∧
      scanMembers (n + 2) (cs ++ ',' :: rest) =
        (scanMembers (n + 1) rest).map fun (ms, rest) => (read member :: ms, rest) := by
  obtain ⟨gap₁, spelled, gap₂, gap₃, shown, gap₄, h₁, hname, h₂, h₃, hvalue, h₄, rfl⟩ := h
  have hread : ∀ d, d = ',' ∨ d = '\x7d' →
      scanValue (n + 1) (gap₃ ++ (shown ++ (gap₄ ++ d :: rest))) =
        some (member.2, gap₄ ++ d :: rest) := fun d hd =>
    scanValue_of_shows h₃ hvalue (ends_gap h₄ hd)
  constructor
  · rw [scanMembers.eq_def]
    simp only [List.append_assoc, List.cons_append]
    rw [skipBlanks_append h₁ rfl]
    simp only [scanString_of_spells hname, Option.bind_eq_bind, Option.bind_some]
    rw [skipBlanks_append h₂ rfl]
    simp only [hread _ (.inr rfl), Option.bind_some]
    rw [skipBlanks_append h₄ rfl]
    rfl
  · rw [scanMembers.eq_def]
    simp only [List.append_assoc, List.cons_append]
    rw [skipBlanks_append h₁ rfl]
    simp only [scanString_of_spells hname, Option.bind_eq_bind, Option.bind_some]
    rw [skipBlanks_append h₂ rfl]
    simp only [hread _ (.inl rfl), Option.bind_some]
    rw [skipBlanks_append h₄ rfl]
    exact Option.map_eq_bind.symm

/-- **Members are read**, within a budget that each of them takes one of. -/
theorem scanMembers_of_shows (h : ShowsMembers members cs) (hn : members.length < n) :
    scanMembers n (cs ++ rest) = some (members.map read, rest) := by
  induction h generalizing n with
  | @last member cs h =>
    obtain ⟨n, rfl⟩ : ∃ k, n = k + 2 := ⟨n - 2, by rw [List.length_singleton] at hn; omega⟩
    rw [List.append_assoc]
    exact (scanMembers_of_showsMember h).1
  | @more member members cs tail h hmembers ih =>
    have hpos : 0 < members.length := by cases hmembers <;> exact Nat.zero_lt_succ _
    rw [List.length_cons] at hn
    obtain ⟨n, rfl⟩ : ∃ k, n = k + 2 := ⟨n - 2, by omega⟩
    rw [List.append_assoc, List.cons_append, (scanMembers_of_showsMember h).2, ih (by omega)]
    rfl

theorem ShowsMembers.length_le (h : ShowsMembers members cs) : members.length ≤ cs.length := by
  induction h with
  | last h => simp
  | more h hmembers ih =>
    rw [List.length_cons, List.length_append, List.length_cons]
    omega

theorem ShowsMembers.skipBlanks (h : ShowsMembers members cs) (rest : List Char) :
    ∃ tail, skipBlanks (cs ++ rest) = '"' :: tail := by
  have hmember : ∀ {member cs}, ShowsMember member cs → ∀ rest,
      ∃ tail, Json.skipBlanks (cs ++ rest) = '"' :: tail := by
    rintro member cs ⟨gap₁, spelled, gap₂, gap₃, shown, gap₄, h₁, -, -, -, -, -, rfl⟩ rest
    simp only [List.append_assoc, List.cons_append]
    exact ⟨_, skipBlanks_append h₁ rfl⟩
  cases h with
  | last h =>
    rw [List.append_assoc]
    exact hmember h _
  | more h _ =>
    rw [List.append_assoc]
    exact hmember h _

theorem scanMembers_skipBlanks (n : Nat) (cs : List Char) :
    scanMembers n (skipBlanks cs) = scanMembers n cs := by
  have hskip : skipBlanks (skipBlanks cs) = skipBlanks cs := List.dropWhile_idempotent _ _
  cases n with
  | zero => rfl
  | succ n =>
    rw [scanMembers.eq_def, scanMembers.eq_def (n + 1) cs]
    dsimp only
    rw [hskip]

theorem scanValue_brace {gap : List Char} (hgap : Gap gap) :
    scanValue (n + 1) (gap ++ '\x7b' :: rest) =
      match skipBlanks rest with
      | '\x7d' :: rest => some (.object [], rest)
      | rest => (scanMembers n rest).map fun (ms, rest) => (.object ms, rest) := by
  rw [scanValue.eq_def]
  dsimp only
  rw [skipBlanks_append hgap rfl]
  rfl

/-- **The text of an object is read** as the members it shows. -/
theorem parse?_of_shows (h : ShowsObject members cs) :
    parse? cs = some (.object (members.map read)) := by
  obtain ⟨gap₁, body, gap₂, h₁, h₂, rfl, hbody⟩ := h
  have hend : skipBlanks gap₂ = [] := List.dropWhile_eq_nil_iff.2 h₂
  have hvalue : scanValue (2 * (gap₁ ++ '\x7b' :: body ++ gap₂).length + 2)
      (gap₁ ++ '\x7b' :: (body ++ gap₂)) = some (.object (members.map read), gap₂) := by
    rw [scanValue_brace h₁]
    rcases hbody with ⟨rfl, gap, hgap, rfl⟩ | hbody
    · rw [List.append_assoc, List.cons_append, skipBlanks_append hgap rfl]
      rfl
    · have hlen := hbody.length_le
      obtain ⟨tail, htail⟩ := hbody.skipBlanks gap₂
      have hmembers : scanMembers (2 * (gap₁ ++ '\x7b' :: body ++ gap₂).length + 1) ('"' :: tail) =
          some (members.map read, gap₂) := by
        rw [← htail, scanMembers_skipBlanks]
        refine scanMembers_of_shows hbody ?_
        simp only [List.length_append, List.length_cons]
        omega
      rw [htail]
      change (scanMembers _ ('"' :: tail)).map _ = _
      rw [hmembers]
      rfl
  rw [← List.cons_append, ← List.append_assoc] at hvalue
  rw [parse?, hvalue]
  exact if_pos hend

end DisplayList.Json

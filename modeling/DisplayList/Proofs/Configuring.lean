import DisplayList.Proofs.Members
import DisplayList.Settings.Reader
import Mathlib.Data.List.Perm.Basic

/-!
# The environment and the file configure alike

Settings are given by variables of the environment, as texts with blanks around them, or by the
members of a JSON object in a file. What was given decides what comes of it, not the way in which
it was given. Of the reader of the file it is only assumed that it takes such an object for what it
says.

* `Given.InRange`, `Given.outcome`: what may be given, and what comes of it;
* `Given.SetBy`, `Given.exists_setBy`, **`ofLookup_of_setBy`**: settings given by variables;
* `Given.entries`, `Given.WrittenIn`, `Given.exists_writtenIn`: settings given by a file, in any
  order; `Reader.Obeys`: what is assumed of a reader;
* **`obeys_ofText?`**: the reader of this library is one;
* **`pos_of_loadWith`**, **`configured_alike`**: both come to the same, and never to settings
  without list slots.
-/

namespace DisplayList.Settings

open Text

variable {g : Given} {lookup : String → Option String} {text : String}

/-- Every number that was given is one of 64 bits. -/
structure Given.InRange (g : Given) : Prop where
  listCount : ∀ n ∈ g.listCount, n < 2 ^ 64
  timeoutMs : ∀ n ∈ g.timeoutMs, n < 2 ^ 64

/-- What comes of the settings that were given: they override the defaults, and no list slots are
refused. -/
def Given.outcome (g : Given) : Except Error Settings :=
  if g.listCount = some 0 then
    .error (.invalidValue "list_count" "0" "at least one list slot is required")
  else
    .ok ⟨g.listCount.getD 64, g.timeoutMs.getD 100, g.external.getD false⟩

theorem check_eq_ok_iff {s : Settings} : s.check = .ok () ↔ 0 < s.listCount := by
  unfold check
  split
  next h => simp [h]
  next h => exact iff_of_true rfl (Nat.pos_of_ne_zero h)

theorem Given.checked_eq (g : Given) : g.checked = g.outcome := by
  by_cases hzero : g.listCount = some 0
  · have hcount : g.settings.listCount = 0 := by simp [settings, hzero]
    have hshown : toString 0 = "0" := by decide
    rw [checked, check, if_pos hcount, hcount, hshown, outcome, if_pos hzero]
    rfl
  · have hcount : g.settings.listCount ≠ 0 := by
      unfold settings
      cases hc : g.listCount with
      | none => simp
      | some n => simpa [hc] using hzero
    rw [checked, check, if_neg hcount, outcome, if_neg hzero]
    rfl

theorem Given.pos_of_checked {s : Settings} (h : g.checked = .ok s) : 0 < s.listCount := by
  unfold checked at h
  cases hcheck : g.settings.check with
  | error e =>
    rw [hcheck] at h
    cases h
  | ok u =>
    rw [hcheck] at h
    cases h
    exact check_eq_ok_iff.1 hcheck

/-! ## The environment -/

/-- The variables hold what was given, blanks around it apart: numbers in decimal, truth values as
`true` and `false`. The others are not set. -/
structure Given.SetBy (g : Given) (lookup : String → Option String) : Prop where
  listCount : Option.Rel (fun n raw => ∃ numeral, Numeral 10 numeral n ∧ Padded numeral raw.toList)
    g.listCount (lookup "PSPGE_LIST_COUNT")
  timeoutMs : Option.Rel (fun n raw => ∃ numeral, Numeral 10 numeral n ∧ Padded numeral raw.toList)
    g.timeoutMs (lookup "PSPGE_SYNC_TIMEOUT_MS")
  external : Option.Rel (fun b raw => Padded (toString b).toList raw.toList)
    g.external (lookup "PSPGE_EXTERNAL_BACKEND")

theorem Given.exists_setBy (g : Given) : ∃ lookup, g.SetBy lookup := by
  have hpadded : ∀ cs, Padded cs (String.ofList cs).toList := fun cs =>
    ⟨[], [], by decide, by decide, by simp⟩
  have hnumber : ∀ v : Option Nat,
      Option.Rel (fun n raw => ∃ numeral, Numeral 10 numeral n ∧ Padded numeral raw.toList) v
        (v.map fun n => String.ofList (Nat.toDigits 10 n)) := fun v => by
    cases v with
    | none => exact .none
    | some n => exact .some ⟨_, numeral_toDigits (by omega) n, hpadded _⟩
  refine ⟨fun name =>
    if name = "PSPGE_LIST_COUNT" then g.listCount.map fun n => String.ofList (Nat.toDigits 10 n)
    else if name = "PSPGE_SYNC_TIMEOUT_MS" then
      g.timeoutMs.map fun n => String.ofList (Nat.toDigits 10 n)
    else g.external.map fun b => String.ofList (toString b).toList,
    hnumber g.listCount, hnumber g.timeoutMs, ?_⟩
  cases g.external with
  | none => exact .none
  | some b => exact .some (hpadded _)

theorem isYes_of_padded {b : Bool} {raw : String} (h : Padded (toString b).toList raw.toList) :
    isYes raw = b := by
  have hsolid : ((toString b).toList.all fun c => !isBlank c) = true := by cases b <;> decide
  have hblank : ∀ c ∈ (toString b).toList, isBlank c = false := fun c hc => by
    simpa using List.all_eq_true.1 hsolid c hc
  unfold isYes
  rw [(trim_eq_iff hblank).2 h]
  cases b <;> decide

theorem readVariable_of_rel {name reason : String} {v : Option Nat}
    (h : Option.Rel (fun n raw => ∃ numeral, Numeral 10 numeral n ∧ Padded numeral raw.toList) v
      (lookup name)) (hv : ∀ n ∈ v, n < 2 ^ 64) :
    readVariable lookup name reason = .ok v := by
  unfold readVariable
  generalize lookup name = held at h
  cases h with
  | none => rfl
  | @some n raw h =>
    obtain ⟨numeral, hnumeral, hpadded⟩ := h
    have hblank : ∀ c ∈ numeral, isBlank c = false := fun c hc => by
      obtain ⟨d, hd⟩ := hnumeral.exists_isDigit hc
      exact isBlank_of_isDigit (by omega) hd
    have hread : readNat? 10 limit numeral = some n :=
      (readNat?_eq_some_iff (by omega)).2 ⟨.inl hnumeral, hv n rfl⟩
    dsimp only
    rw [(trim_eq_iff hblank).2 hpadded, hread]

/-- **Settings given by variables.** -/
theorem ofLookup_of_setBy (hg : g.InRange) (h : g.SetBy lookup) : ofLookup lookup = g.outcome := by
  have hexternal : (lookup externalVariable).map isYes = g.external := by
    have hrel := h.external
    change Option.Rel _ _ (lookup externalVariable) at hrel
    generalize lookup externalVariable = held at hrel
    generalize g.external = external at hrel
    cases hrel with
    | none => rfl
    | some hb => exact congrArg some (isYes_of_padded hb)
  have hcount : readVariable lookup listCountVariable "expected an unsigned integer" =
      .ok g.listCount := readVariable_of_rel h.listCount hg.listCount
  have htimeout : readVariable lookup timeoutVariable "expected milliseconds" = .ok g.timeoutMs :=
    readVariable_of_rel h.timeoutMs hg.timeoutMs
  unfold ofLookup
  rw [hcount, htimeout, hexternal, ← g.checked_eq]
  rfl

/-! ## The file -/

/-- What was given, by member: numbers in decimal and truth values. -/
def Given.entries (g : Given) : List (Member × Json) :=
  (g.listCount.map fun n => (Member.listCount, Json.number (Nat.toDigits 10 n))).toList ++
  (g.timeoutMs.map fun n => (Member.timeoutMs, Json.number (Nat.toDigits 10 n))).toList ++
  (g.external.map fun b => (Member.external, Json.bool b)).toList

/-- The text is a JSON object whose members are what was given, in any order. -/
def Given.WrittenIn (g : Given) (text : String) : Prop :=
  ∃ entries : List (Member × Json), entries.Perm g.entries ∧
    Json.ShowsObject (entries.map fun e => (e.1.name.toList, e.2)) text.toList

theorem Given.exists_writtenIn (g : Given) : ∃ text, g.WrittenIn text := by
  have hspelled : ∀ m : Member, Json.Spells m.name.toList m.name.toList := fun m =>
    Json.spells_self (by cases m <;> decide)
  have hshown : ∀ e ∈ g.entries, ∃ shown, Json.Shows e.2 shown := by
    intro e he
    simp only [entries, List.mem_append, Option.mem_toList,
      Option.map_eq_some_iff] at he
    rcases he with (⟨n, -, rfl⟩ | ⟨n, -, rfl⟩) | ⟨b, -, rfl⟩
    · exact ⟨_, .number n⟩
    · exact ⟨_, .number n⟩
    · exact ⟨_, .bool b⟩
  have hmembers : ∀ member ∈ g.entries.map fun e => (e.1.name.toList, e.2),
      (∃ spelled, Json.Spells member.1 spelled) ∧ ∃ shown, Json.Shows member.2 shown := by
    intro member hm
    obtain ⟨e, he, rfl⟩ := List.mem_map.1 hm
    exact ⟨⟨_, hspelled e.1⟩, hshown e he⟩
  obtain ⟨cs, hcs⟩ := Json.exists_showsObject hmembers
  exact ⟨String.ofList cs, g.entries, .refl _, by simpa using hcs⟩

/-- **What is assumed of a reader**: an object of settings, each given once or not at all, in
whatever order, is read as these. -/
def Reader.Obeys (read : Reader) : Prop :=
  ∀ (g : Given) (text : String), g.InRange → g.WrittenIn text → read text = some g

/-! ## The reader of this library -/

/-- Gives settings one after the other. -/
def Given.setAll? (g : Option Given) (entries : List (Member × Json)) : Option Given :=
  entries.foldl (fun g e => g.bind (·.set? e.1 e.2)) g

theorem Given.setAll?_none (entries : List (Member × Json)) :
    Given.setAll? none entries = none := by
  induction entries with
  | nil => rfl
  | cons e entries ih => exact ih

theorem Given.set?_again (g : Given) (m : Member) (v v' : Json) :
    (g.set? m v).bind (·.set? m v') = none := by
  rw [Option.bind_eq_none_iff]
  intro g' hg'
  cases m <;> simp only [set?] at hg' ⊢ <;> split at hg'
  all_goals first
    | cases hg'
    | (obtain ⟨_, -, rfl⟩ := Option.map_eq_some_iff.1 hg'; rfl)

theorem Given.set?_comm (g : Given) (m m' : Member) (v v' : Json) :
    (g.set? m v).bind (·.set? m' v') = (g.set? m' v').bind (·.set? m v) := by
  rcases eq_or_ne m m' with rfl | hne
  · rw [set?_again, set?_again]
  obtain ⟨count, timeoutMs, external⟩ := g
  cases m <;> cases m' <;> simp only [set?]
  case listCount.timeoutMs | timeoutMs.listCount =>
    cases count <;> cases timeoutMs <;> cases number? v <;> cases number? v' <;> rfl
  case listCount.external | timeoutMs.external =>
    cases count <;> cases timeoutMs <;> cases external <;> cases number? v <;>
      cases bool? v' <;> rfl
  case external.listCount | external.timeoutMs =>
    cases count <;> cases timeoutMs <;> cases external <;> cases bool? v <;>
      cases number? v' <;> rfl
  all_goals exact absurd rfl hne

theorem Given.setAll?_perm {entries entries' : List (Member × Json)} (h : entries.Perm entries') :
    Given.setAll? (some g) entries = Given.setAll? (some g) entries' := by
  have hcomm : RightCommutative fun (g : Option Given) (e : Member × Json) =>
      g.bind (·.set? e.1 e.2) := by
    refine ⟨fun g e e' => ?_⟩
    cases g with
    | none => rfl
    | some g => exact g.set?_comm _ _ _ _
  exact h.foldl_eq _

theorem Member.named?_name (m : Member) :
    Member.named? (m.name.toList.map Char.toNat) = some m := by
  cases m <;> decide

theorem Given.ofMembers?_eq (g : Given) (entries : List (Member × Json)) :
    g.ofMembers? (entries.map fun e => Json.read (e.1.name.toList, e.2)) =
      Given.setAll? (some g) entries := by
  induction entries generalizing g with
  | nil => rfl
  | cons e entries ih =>
    have hstep : g.ofMembers? (Json.read (e.1.name.toList, e.2) ::
        entries.map fun e => Json.read (e.1.name.toList, e.2)) = (g.set? e.1 e.2).bind
          (·.ofMembers? (entries.map fun e => Json.read (e.1.name.toList, e.2))) := by
      rw [Json.read, ofMembers?, Json.scalars?_map_toNat]
      dsimp only
      rw [Member.named?_name]
    rw [List.map_cons, hstep, setAll?, List.foldl_cons]
    change _ = Given.setAll? (g.set? e.1 e.2) entries
    cases g.set? e.1 e.2 with
    | none => exact (Given.setAll?_none _).symm
    | some g => exact ih g

theorem number?_toDigits {n : Nat} (h : n < 2 ^ 64) :
    number? (.number (Nat.toDigits 10 n)) = some n := by
  have hread : digits? 10 (Nat.toDigits 10 n) = some n :=
    (digits?_eq_some_iff (by omega)).2 (numeral_toDigits (by omega) n)
  rw [number?, hread]
  exact Option.filter_eq_some_iff.2 ⟨rfl, decide_eq_true h⟩

theorem Given.setAll?_entries (hg : g.InRange) : Given.setAll? (some {}) g.entries = some g := by
  obtain ⟨count, timeoutMs, external⟩ := g
  have hcount : ∀ n ∈ count, number? (.number (Nat.toDigits 10 n)) = some n := fun n hn =>
    number?_toDigits (hg.listCount n hn)
  have htimeout : ∀ n ∈ timeoutMs, number? (.number (Nat.toDigits 10 n)) = some n := fun n hn =>
    number?_toDigits (hg.timeoutMs n hn)
  cases count <;> cases timeoutMs <;> cases external <;>
    simp_all [setAll?, entries, set?, bool?]

/-- **The reader takes an object for what it says.** -/
theorem obeys_ofText? : Reader.Obeys Given.ofText? := by
  rintro g text hg ⟨entries, hperm, hshows⟩
  have hgiven : Given.ofMembers? {} ((entries.map fun e => (e.1.name.toList, e.2)).map Json.read) =
      some g := by
    rw [List.map_map]
    exact (Given.ofMembers?_eq _ _).trans
      ((Given.setAll?_perm hperm).trans (Given.setAll?_entries hg))
  rw [Given.ofText?, Json.parse?_of_shows hshows, Option.bind_some, Given.ofJson?, hgiven]

/-! ## Both alike -/

/-- **No settings are without list slots**, however they come about. -/
theorem pos_of_loadWith {read : Reader} {file : Option (Option String)} {s : Settings}
    (h : loadWith read file lookup = .ok s) : 0 < s.listCount := by
  rcases file with _ | _ | text
  · unfold loadWith ofLookup at h
    dsimp only at h
    cases hcount : readVariable lookup listCountVariable "expected an unsigned integer" with
    | error e =>
      rw [hcount] at h
      cases h
    | ok count =>
      cases htimeout : readVariable lookup timeoutVariable "expected milliseconds" with
      | error e =>
        rw [hcount, htimeout] at h
        cases h
      | ok timeoutMs =>
        rw [hcount, htimeout] at h
        exact Given.pos_of_checked h
  · cases h
  · unfold loadWith ofText at h
    dsimp only at h
    split at h
    next g _ => exact g.pos_of_checked h
    next => cases h

/-- **The environment and the file configure alike.** Whatever part of the settings is given, it can
be held by variables and by a file, and all variables and files that hold it come to the same: the
defaults, overridden by what was given, or the error about the number of list slots if that was
given as zero. And whatever the file and the variables hold, and however the file is read, no
settings are without list slots. -/
theorem configured_alike (read : Reader) :
    (∀ g : Given, (∃ lookup, g.SetBy lookup) ∧ (∃ text, g.WrittenIn text) ∧ (g.InRange →
      (∀ lookup, g.SetBy lookup → loadWith read none lookup = g.outcome) ∧
      (read.Obeys → ∀ text, g.WrittenIn text → ∀ lookup,
        loadWith read (some (some text)) lookup = g.outcome))) ∧
    ∀ file lookup s, loadWith read file lookup = .ok s → 0 < s.listCount := by
  refine ⟨fun g => ⟨g.exists_setBy, g.exists_writtenIn, fun hg =>
    ⟨fun _ h => ofLookup_of_setBy hg h, fun hread text htext lookup => ?_⟩⟩,
    fun _ _ _ h => pos_of_loadWith h⟩
  change ofText read text = g.outcome
  rw [ofText, hread g text hg htext]
  exact g.checked_eq

/-- The largest number of list slots and the external renderer, with blanks around them and in
another order. -/
theorem configured_alike_largest :
    let g : Given := { listCount := some 18446744073709551615, external := some true }
    let lookup : String → Option String := fun name =>
      if name = "PSPGE_LIST_COUNT" then some "\t18446744073709551615 "
      else if name = "PSPGE_EXTERNAL_BACKEND" then some "true\n" else none
    let text := "\x7b\"external_backend\":true , \"list_count\": 18446744073709551615\x7d\n"
    Reader.Obeys Given.ofText? ∧ g.InRange ∧ g.SetBy lookup ∧ g.WrittenIn text ∧
      load none lookup = .ok ⟨18446744073709551615, 100, true⟩ ∧
      load (some (some text)) lookup = .ok ⟨18446744073709551615, 100, true⟩ ∧
      0 < (⟨18446744073709551615, 100, true⟩ : Settings).listCount := by
  intro g lookup text
  have hdigits : Nat.toDigits 10 18446744073709551615 = "18446744073709551615".toList := by decide
  have hnumeral : Numeral 10 "18446744073709551615".toList 18446744073709551615 := by
    rw [← hdigits]
    exact numeral_toDigits (by omega) _
  have hg : g.InRange := ⟨by rintro n ⟨⟩; omega, by rintro n ⟨⟩⟩
  have hset : g.SetBy lookup := by
    refine ⟨.some ⟨_, hnumeral, ['\t'], [' '], by decide, by decide, by decide⟩, .none,
      .some ⟨[], ['\n'], by decide, by decide, by decide⟩⟩
  have hwritten : g.WrittenIn text := by
    refine ⟨[(.external, .bool true), (.listCount, .number (Nat.toDigits 10 18446744073709551615))],
      .swap .., [], _, ['\n'], by decide, by decide, ?_, .inr (.more
        ⟨[], _, [], [], _, [' '], by decide, Json.spells_self (by decide), by decide, by decide,
          .bool true, by decide, rfl⟩ (.last
        ⟨[' '], _, [], [' '], _, [], by decide, Json.spells_self (by decide), by decide, by decide,
          .number _, by decide, rfl⟩))⟩
    rw [hdigits]
    decide
  obtain ⟨halike, hpos⟩ := configured_alike Given.ofText?
  obtain ⟨hlookup, hfile⟩ := (halike g).2.2 hg
  have hload := hlookup lookup hset
  exact ⟨obeys_ofText?, hg, hset, hwritten, hload, hfile obeys_ofText? text hwritten lookup,
    hpos none lookup _ hload⟩

end DisplayList.Settings

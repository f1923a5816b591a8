import DisplayList.Proofs.Access
import DisplayList.Proofs.Following
import DisplayList.Replay

/-!
# Cursors found in time

A cursor is looked for with the list unlocked. Until it is found the list may be submitted anew or
reset, it may branch, a producer may hand over a window or take one away, and another access may
have been faster. Whatever the list has come to by then, an access goes through a cursor that is
good for it, or starts over.

* `Fetcher.install?_eq_some_iff`, `Fetcher.install?_eq_none_iff`: what becomes of a cursor found;
* `Slot.wanted`; **`access_ne_noCursor`**: an access with a cursor at hand does not
  fail for want of one;
* `Operation.accessThrough`: an access that looks for its cursors in any way whatever;
* `Operation.Equipped`, `keeps_found`, **`keeps_equipped`**: an access, round by round;
* **`never_without_cursor`**: no access does without a cursor.
-/

namespace DisplayList

open Process

/-! ## The fetcher -/

namespace Fetcher

variable {f g : Fetcher} {pc a : Address} {c : Cursor}

theorem install?_eq_some_iff : f.install? pc a c = some g ↔
    (f.wanted pc = some a ∧ g = { f with source := .own c, found := f.found + 1 }) ∨
      (f.wanted pc = none ∧ g = f) := by
  unfold install?
  cases f.wanted pc with
  | none => simp [eq_comm]
  | some b =>
    by_cases hb : b = a
    · simp [hb, eq_comm]
    · simp [hb]

theorem install?_eq_none_iff :
    f.install? pc a c = none ↔ ∃ b, f.wanted pc = some b ∧ b ≠ a := by
  unfold install?
  cases f.wanted pc with
  | none => simp
  | some b => simp

end Fetcher

/-! ## The slot -/

namespace Slot

/-- The address at which the list wants a cursor to be found, if it does. -/
def wanted (s : Slot) : Option Address :=
  s.fetcher.wanted s.pc

variable {s s' : Slot} {m : Memory} {a : Access} {address : Address} {c : Cursor}

/-- **With a cursor at hand, no access fails for want of one.** -/
theorem access_ne_noCursor {r : Except Failure a.Answer} (h : s.fetcher.cursor? = some c)
    (hr : s.access m a = (r, s')) : r ≠ .error .noCursor := by
  have hne : (s.access m a).1 ≠ .error .noCursor := by
    cases a with
    | next =>
      unfold access
      rw [h]
      dsimp only
      split <;> simp
    | previous =>
      unfold access
      rw [h]
      dsimp only
      split <;> simp
    | rewind n =>
      unfold access
      rw [h]
      simp
  rwa [hr] at hne

theorem access_of_tryAccess {r : Except Failure a.Answer} (h : s.tryAccess m a = (.inr r, s')) :
    (∃ c, s.fetcher.cursor? = some c) ∧ s.access m a = (r, s') := by
  unfold tryAccess at h
  split at h
  next => cases h
  next hwanted =>
    cases h
    exact ⟨Fetcher.cursor_of_wanted hwanted, rfl⟩

/-- An access that goes ahead once a cursor was found goes through that cursor, if it is still
wanted there, and otherwise through one that the list has got meanwhile. -/
theorem access_of_accessWith {r : Except Failure a.Answer}
    (h : s.accessWith m address c a = (some r, s')) :
    (s.wanted = some address ∧ (s.equip c).access m a = (r, s')) ∨
      ((∃ c', s.fetcher.cursor? = some c') ∧ s.access m a = (r, s')) := by
  unfold accessWith at h
  split at h
  next => cases h
  next fetcher hf =>
    cases h
    rcases Fetcher.install?_eq_some_iff.1 hf with ⟨hwanted, rfl⟩ | ⟨hwanted, rfl⟩
    · exact .inl ⟨hwanted, rfl⟩
    · exact .inr ⟨Fetcher.cursor_of_wanted hwanted, rfl⟩

theorem wanted_of_accessWith (h : s.accessWith m address c a = (none, s')) :
    ∃ b, s.wanted = some b ∧ b ≠ address := by
  unfold accessWith at h
  split at h
  next hf => exact Fetcher.install?_eq_none_iff.1 hf
  next => cases h

end Slot

/-! ## Accesses -/

namespace Operation

/-- Accesses the words of a list, with cursors looked for by `find`. That may be any process: it may
act on the list itself, answer now this and now that, and find a cursor anywhere. -/
def accessThrough (find : Address → Process (Except Memory.Fault Cursor)) (i : Nat)
    (a : Slot.Access) : Process (Except Failure a.Answer) :=
  iterate () fun _ => do
    match ← perform (.access i a) with
    | .inr r => return .inr r
    | .inl address => found i a address (← find address)

/-- Looks for a cursor in guest memory, and tells the host. -/
def findInMemory (address : Address) : Process (Except Memory.Fault Cursor) := do
  tell (.cursor address 4)
  return Cursor.openAt address 4

theorem access_eq_accessThrough (i : Nat) (a : Slot.Access) :
    access i a = accessThrough findInMemory i a :=
  rfl

variable (others : FrontEnd → FrontEnd → Prop)
  (find : Address → Process (Except Memory.Fault Cursor)) (i : Nat) (a : Slot.Access)

/-- The moves `t` of a round up to the state `v`: a cursor was wanted at `address`, and `x` was
found there. -/
def Seeks (address : Address) (x : Except Memory.Fault Cursor) (t : List Move) (v : FrontEnd) :
    Prop :=
  ∃ w t', t = .act (.access i a) w :: t' ∧ (w.slot i).wanted = some address ∧
    Goes others (find address) w t' (.done x) v

/-- The moves of an access that is answered, and its answer. Each time the list is accessed, a
cursor is at hand. -/
inductive Equipped : List Move → Except Failure a.Answer → Prop
  /-- The list has a cursor. -/
  | atHand {v : FrontEnd} {c : Cursor} {r : Except Failure a.Answer} {s : Slot} :
    (v.slot i).fetcher.cursor? = some c → (v.slot i).access v.memory a = (r, s) →
    (Action.access i a).perform v = (.inr r, v.setSlot i s) →
    Equipped [.act (.access i a) v] r
  /-- There is no cursor to be found. -/
  | unmapped {v : FrontEnd} {address : Address} {f : Memory.Fault} {t : List Move} :
    Seeks others find i a address (.error f) t v → Equipped t (.error (.memory f))
  /-- The cursor is wanted still where it was found, and is installed. -/
  | installed {v : FrontEnd} {address : Address} {c : Cursor} {t : List Move}
    {r : Except Failure a.Answer} {s : Slot} :
    Seeks others find i a address (.ok c) t v → (v.slot i).wanted = some address →
    ((v.slot i).equip c).access v.memory a = (r, s) →
    (Action.accessWith i address c a).perform v = (some r, v.setSlot i s) →
    Equipped (t ++ [.act (.accessWith i address c a) v]) r
  /-- The list has a cursor by now, and the one found is dropped. -/
  | dropped {v : FrontEnd} {address : Address} {c c' : Cursor} {t : List Move}
    {r : Except Failure a.Answer} {s : Slot} :
    Seeks others find i a address (.ok c) t v → (v.slot i).fetcher.cursor? = some c' →
    (v.slot i).access v.memory a = (r, s) →
    (Action.accessWith i address c a).perform v = (some r, v.setSlot i s) →
    Equipped (t ++ [.act (.accessWith i address c a) v]) r
  /-- Another address is wanted by now: nothing happens to the list, and the access starts over. -/
  | late {v : FrontEnd} {address b : Address} {c : Cursor} {t t' : List Move}
    {r : Except Failure a.Answer} :
    Seeks others find i a address (.ok c) t v → (v.slot i).wanted = some b → b ≠ address →
    (Action.accessWith i address c a).perform v = (none, v) → Equipped t' r →
    Equipped (t ++ .act (.accessWith i address c a) v :: t') r

variable {others find i a} {address : Address} {x : Except Memory.Fault Cursor}
  {r : Except Failure a.Answer} {t : List Move}

theorem Seeks.other {v u : FrontEnd} (h : Seeks others find i a address x t v) (hu : others v u) :
    Seeks others find i a address x t u := by
  obtain ⟨w, t', rfl, hwanted, hg⟩ := h
  have hg' := hg.trans (.other hu (.stay ..))
  rw [List.append_nil] at hg'
  exact ⟨w, t', rfl, hwanted, hg'⟩

/-- **An access through a cursor does not fail for want of one.** -/
theorem Equipped.ne_noCursor (h : Equipped others find i a t r) : r ≠ .error .noCursor := by
  induction h with
  | atHand hc hr => exact Slot.access_ne_noCursor hc hr
  | unmapped => simp
  | installed _ _ hr => exact Slot.access_ne_noCursor (Slot.cursor?_equip ..) hr
  | dropped _ hc hr => exact Slot.access_ne_noCursor hc hr
  | late _ _ _ _ _ ih => exact ih

theorem keeps_find (t : List Move) (w : FrontEnd) (address : Address) :
    Keeps others (Now t w) (find address) (fun _ => True) fun x t' v =>
      ∃ u, t' = t ++ u ∧ Goes others (find address) w u (.done x) v := by
  rintro t₀ w' t' q v ⟨rfl, rfl⟩ hg
  refine ⟨trivial, fun x hx => ⟨t', rfl, ?_⟩⟩
  rwa [← hx]

variable (others find i a) in
/-- The moves `t` make up the rounds before some round of an access: whatever moves the access is
answered with after them, it is answered with all of them. -/
def Begun (t : List Move) : Prop :=
  ∀ t' r, Equipped others find i a t' r → Equipped others find i a (t ++ t') r

/-- **What becomes of what was found.** -/
theorem keeps_found (ht : Begun others find i a t) :
    Keeps others (fun t₁ v => ∃ u, t₁ = t ++ u ∧ Seeks others find i a address x u v)
      (found i a address x) (fun _ => True)
      (Sum.elim (fun _ t₁ _ => Begun others find i a t₁)
        fun r t₁ _ => Equipped others find i a t₁ r) := by
  cases x with
  | error f =>
    refine keeps_done (fun _ _ _ => trivial) fun t₁ v _ ⟨u, hu, hv⟩ _ => ?_
    rw [hu]
    exact ht _ _ (.unmapped hv)
  | ok c =>
    have hstable : Stable others fun t₁ v =>
        ∃ u, t₁ = t ++ u ∧ Seeks others find i a address (.ok c) u v :=
      fun t₁ v v' ho ⟨u, hu, hv⟩ => ⟨u, hu, hv.other ho⟩
    refine keeps_perform hstable (fun _ _ _ => trivial) fun t₁ v ⟨u, hu, hv⟩ => ?_
    subst hu
    cases hr : (v.slot i).accessWith v.memory address c a with
    | mk r s =>
    have hperform := perform_accessWith hr
    rw [hperform]
    cases r with
    | some r =>
      refine keeps_done (fun _ _ _ => trivial) fun _ _ _ hnow _ => ?_
      rw [hnow.1, List.append_assoc]
      rcases Slot.access_of_accessWith hr with ⟨hwanted, hs⟩ | ⟨⟨c', hc'⟩, hs⟩
      · exact ht _ _ (.installed hv hwanted hs hperform)
      · exact ht _ _ (.dropped hv hc' hs hperform)
    | none =>
      obtain ⟨b, hb, hne⟩ := Slot.wanted_of_accessWith hr
      obtain rfl := accessWith_none hr
      rw [FrontEnd.setSlot_slot] at hperform
      refine keeps_done (fun _ _ _ => trivial) fun _ _ _ hnow _ t' r hrest => ?_
      rw [hnow.1, List.append_assoc, List.append_assoc]
      exact ht _ _ (.late hv hb hne hperform hrest)

/-- **The course of an access**, whoever acts beside it. -/
theorem keeps_equipped : Keeps others (fun t _ => t = []) (accessThrough find i a) (fun _ => True)
    fun r t _ => Equipped others find i a t r := by
  -- The others make no moves of the access, so that they cannot spoil the rounds so far.
  have hstable : Stable others fun t _ => Begun others find i a t := fun _ _ _ _ h => h
  refine keeps_iterate (I := fun _ t _ => Begun others find i a t)
    (fun t w ht t' r h => by rwa [ht]) (fun _ _ _ => trivial) hstable fun _ => ?_
  refine keeps_perform hstable (fun _ _ _ => trivial) fun t w ht => ?_
  cases hr : (w.slot i).tryAccess w.memory a with
  | mk r s =>
  have hperform := perform_access hr
  rw [hperform]
  cases r with
  | inr r =>
    obtain ⟨⟨c, hc⟩, hs⟩ := Slot.access_of_tryAccess hr
    refine keeps_done (fun _ _ _ => trivial) fun _ _ _ hnow _ => ?_
    rw [hnow.1]
    exact ht _ _ (.atHand hc hs hperform)
  | inl address =>
    obtain ⟨rfl, hwanted⟩ := tryAccess_inl hr
    rw [FrontEnd.setSlot_slot]
    refine keeps_bind (keeps_find ..) fun x => (keeps_found ht).pre ?_
    rintro t₁ v ⟨u, rfl, hg⟩
    exact ⟨.act (.access i a) w :: u, by rw [← List.append_cons], w, u, rfl, hwanted, hg⟩

/-- **No access does without a cursor.** A list may have come to any state; an access fetches, peeks
or rewinds, with cursors looked for in whatever way; and meanwhile anything at all may be done to
the list. The access is not answered that there is no cursor: whenever it goes ahead, one is at
hand. And what was found at one address is installed only while it is wanted there; if by then
another address is wanted, the list is left as it is. -/
theorem never_without_cursor {w v : FrontEnd}
    (hg : Goes others (accessThrough find i a) w t (.done r) v) :
    r ≠ .error .noCursor ∧ Equipped others find i a t r := by
  have hequipped := (keeps_equipped.ends rfl hg).2
  exact ⟨hequipped.ne_noCursor, hequipped⟩

/-- A list over the words 5 and 7, with three words between them. While a cursor is looked for the
host has it jump from the first to the second. -/
def jumping : FrontEnd :=
  let w := { Replay.frontEnd {} with host := { onCursor := [[("jump", .moveTo 0 0x08800010)]] } }
  let w := ((Action.write 0x08800000 [5, 0, 0, 0, 7]).perform w).2
  ((Action.change 0 (.init ⟨0x08800000, 0, 0, none⟩)).perform w).2

/-- The cursor found for the word 5 comes too late, and the list fetches the word 7 through another,
the only one that was installed. -/
theorem never_without_cursor_jumping : ∃ t v,
    Goes Anybody (accessThrough findInMemory 0 .next) jumping t (.done (.ok 7)) v ∧
    (v.slot 0).fetcher = ⟨.own ⟨0x08800014, .word⟩, none, 1⟩ ∧
    (.ok 7 : Except Failure (Slot.Access.Answer .next)) ≠ .error .noCursor ∧
    Equipped Anybody findInMemory 0 .next t (.ok 7) := by
  have hrun : ((access 0 .next).run 20 jumping).map
      (fun x => (x.1.toOption, (x.2.slot 0).fetcher)) =
        some (some 7, ⟨.own ⟨0x08800014, .word⟩, none, 1⟩) := by decide +kernel
  obtain ⟨⟨r, v⟩, hr, hv⟩ := Option.map_eq_some_iff.1 hrun
  obtain ⟨hword, hfetcher⟩ := Prod.mk.inj hv
  obtain ⟨t, hg⟩ := goes_of_run hr
  cases r with
  | error e => cases hword
  | ok word =>
    cases hword
    exact ⟨t, v, hg, hfetcher, never_without_cursor hg⟩

end Operation

end DisplayList

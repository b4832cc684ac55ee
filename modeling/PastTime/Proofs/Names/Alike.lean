import PastTime.Proofs.Names.Freshness

/-!
# Sources that issue the same names

Every name that is issued has an underscore, so a reserved name without one makes no difference to
what is issued. Sources that differ in such names only issue the same names, and still differ in
such names only afterwards.
-/

namespace PastTime

theorem underscore_mem_joinName (stem tag ending : String) :
    '_' ∈ (joinName stem tag ending).toList := by
  simp [toList_joinName]

/-- The sets agree on the names that can be issued. -/
def NameSet.Agree (left right : NameSet) : Prop :=
  ∀ name : String, '_' ∈ name.toList → (name ∈ left ↔ name ∈ right)

namespace NameSet.Agree

variable {left right : NameSet}

theorem insert (h : Agree left right) (name : String) :
    Agree (left.insert name) (right.insert name) := by
  intro other hother
  rw [mem_insert, mem_insert, h other hother]

theorem insert_plain (h : Agree left right) {name other : String} (hname : '_' ∉ name.toList)
    (hother : '_' ∉ other.toList) : Agree (left.insert name) (right.insert other) := by
  intro found hfound
  have hne : found ≠ name := fun heq => hname (heq ▸ hfound)
  have hneOther : found ≠ other := fun heq => hother (heq ▸ hfound)
  simp only [mem_insert, hne, hneOther, false_or]
  exact h found hfound

theorem joinName_mem_iff (h : Agree left right) (stem tag ending : String) :
    joinName stem tag ending ∈ left ↔ joinName stem tag ending ∈ right :=
  h _ (underscore_mem_joinName stem tag ending)

end NameSet.Agree

/-! ## Numbered names -/

namespace SequentialNames

/-- The next number is the least one that is free. -/
theorem nextFree_le {names : SequentialNames} {tag : String} {index : Nat}
    (hindex : names.next ≤ index) (hfree : names.nameAt tag index ∉ names.reserved) :
    names.nextFree tag ≤ index := by
  obtain ⟨found, hfound⟩ := names.exists_find?_eq_some tag
  have hnextFree : names.nextFree tag = found := by
    simp only [nextFree, hfound, Option.getD_some]
  rw [hnextFree]
  obtain ⟨-, -, hbefore⟩ := List.find?_range'_eq_some.mp hfound
  by_contra hlt
  simpa [hfree] using hbefore index hindex (by omega)

/-- The sources differ at most in reserved names without an underscore. -/
structure Alike (left right : SequentialNames) : Prop where
  stem : left.stem = right.stem
  next : left.next = right.next
  reserved : left.reserved.Agree right.reserved

namespace Alike

variable {left right : SequentialNames}

theorem nextFree (h : Alike left right) (tag : String) :
    left.nextFree tag = right.nextFree tag := by
  obtain ⟨hleft, hleftFree⟩ := left.nextFree_spec tag
  obtain ⟨hright, hrightFree⟩ := right.nextFree_spec tag
  apply Nat.le_antisymm
  · apply nextFree_le (h.next ▸ hright)
    rw [nameAt, h.reserved.joinName_mem_iff, h.stem]
    exact hrightFree
  · apply nextFree_le (h.next ▸ hleft)
    rw [nameAt, ← h.reserved.joinName_mem_iff, ← h.stem]
    exact hleftFree

theorem fresh_eq (h : Alike left right) (tag : String) :
    (left.fresh tag).1 = (right.fresh tag).1 := by
  simp only [SequentialNames.fresh, nameAt, h.stem, h.nextFree tag]

theorem fresh (h : Alike left right) (tag : String) :
    Alike (left.fresh tag).2 (right.fresh tag).2 :=
  { h with next := congrArg (· + 1) (h.nextFree tag) }

theorem reserve (h : Alike left right) (name : String) :
    Alike (left.reserve name) (right.reserve name) :=
  { h with reserved := h.reserved.insert name }

theorem reserve_plain (h : Alike left right) {name other : String} (hname : '_' ∉ name.toList)
    (hother : '_' ∉ other.toList) : Alike (left.reserve name) (right.reserve other) :=
  { h with reserved := h.reserved.insert_plain hname hother }

end Alike

end SequentialNames

/-! ## Random names -/

namespace RandomNames

/-- The sources differ at most in taken names without an underscore. -/
structure Alike (left right : RandomNames) : Prop where
  naming : left.naming = right.naming
  words : left.words = right.words
  position : left.position = right.position
  length : left.length = right.length
  taken : left.taken.Agree right.taken

namespace Alike

variable {left right : RandomNames}

theorem draw_eq (h : Alike left right) (tag : String) :
    (left.draw tag).1 = (right.draw tag).1 := by
  simp only [RandomNames.draw, h.naming, h.words, h.position, h.length]

theorem draw (h : Alike left right) (tag : String) :
    Alike (left.draw tag).2 (right.draw tag).2 where
  naming := h.naming
  words := h.words
  position := by simp only [RandomNames.draw, h.words, h.position, h.length]
  length := h.length
  taken := h.taken

theorem lengthen (h : Alike left right) : Alike left.lengthen right.lengthen :=
  { h with length := congrArg (· + 1) h.length }

theorem reserve (h : Alike left right) (name : String) :
    Alike (left.reserve name) (right.reserve name) :=
  { h with taken := h.taken.insert name }

theorem reserve_plain (h : Alike left right) {name other : String} (hname : '_' ∉ name.toList)
    (hother : '_' ∉ other.toList) : Alike (left.reserve name) (right.reserve other) :=
  { h with taken := h.taken.insert_plain hname hother }

theorem mem_taken_iff (h : Alike left right) (tag : String) :
    (left.draw tag).1 ∈ left.taken ↔ (right.draw tag).1 ∈ right.taken := by
  rw [← h.draw_eq tag]
  exact h.taken.joinName_mem_iff ..

end Alike

/-- The searches found the same name, and left sources that are alike. -/
structure Search.Alike (left right : Search) : Prop where
  name : left.name = right.name
  names : left.names.Alike right.names

section Search

variable {tag : String} {draws others redraws : Nat} {names left right : RandomNames}

theorem searchWithin_of_not_mem (h : (names.draw tag).1 ∉ names.taken) (draws redraws : Nat) :
    searchWithin tag draws redraws names =
      ⟨[.issued (names.draw tag).1], (names.draw tag).1,
        (names.draw tag).2.reserve (names.draw tag).1⟩ := by
  cases draws with
  | zero => rfl
  | succ draws => exact if_neg h

theorem searchWithin_of_mem_of_last (h : (names.draw tag).1 ∈ names.taken)
    (hlast : redraws + 1 = maxRedraws) :
    searchWithin tag (draws + 1) redraws names =
      (searchWithin tag draws 0 (names.draw tag).2.lengthen).after
        [.collided (names.draw tag).1, .extended (names.length + 1)] :=
  (if_pos h).trans (if_pos hlast)

theorem searchWithin_of_mem (h : (names.draw tag).1 ∈ names.taken)
    (hlast : redraws + 1 ≠ maxRedraws) :
    searchWithin tag (draws + 1) redraws names =
      (searchWithin tag draws (redraws + 1) (names.draw tag).2).after
        [.collided (names.draw tag).1] :=
  (if_pos h).trans (if_neg hlast)

theorem searchWithin_alike_of_not_mem (h : Alike left right)
    (hmem : (left.draw tag).1 ∉ left.taken) :
    (searchWithin tag draws redraws left).Alike (searchWithin tag others redraws right) := by
  rw [searchWithin_of_not_mem hmem, searchWithin_of_not_mem (mt (h.mem_taken_iff tag).mpr hmem),
    h.draw_eq tag]
  exact ⟨rfl, (h.draw tag).reserve _⟩

/-- Searches from sources that are alike find the same name, though they may be allowed different
numbers of draws. -/
theorem searchWithin_alike (hredraws : redraws < maxRedraws)
    (hdraws : maxRedraws * left.blocked tag ≤ draws + redraws)
    (hothers : maxRedraws * right.blocked tag ≤ others + redraws) (h : Alike left right) :
    (searchWithin tag draws redraws left).Alike (searchWithin tag others redraws right) := by
  simp only [maxRedraws] at hredraws hdraws hothers
  induction draws generalizing others redraws left right with
  | zero =>
      refine searchWithin_alike_of_not_mem h fun hmem => ?_
      have hlt := blocked_lengthen_lt hmem
      omega
  | succ draws ih =>
      by_cases hmem : (left.draw tag).1 ∈ left.taken
      · have hright := (h.mem_taken_iff tag).mp hmem
        have hlt := blocked_lengthen_lt hmem
        have hltRight := blocked_lengthen_lt hright
        have hlengthen (names : RandomNames) :
            (names.draw tag).2.lengthen.blocked tag = names.lengthen.blocked tag := rfl
        have hblocked (names : RandomNames) :
            (names.draw tag).2.blocked tag = names.blocked tag := rfl
        -- a name is in the way on both sides, so the other search has a draw left as well
        obtain ⟨others, rfl⟩ : ∃ fewer, others = fewer + 1 := ⟨others - 1, by omega⟩
        by_cases hlast : redraws + 1 = maxRedraws
        · rw [searchWithin_of_mem_of_last hmem hlast, searchWithin_of_mem_of_last hright hlast]
          simp only [maxRedraws] at hlast
          have hsearch := @ih others 0 _ _ (by omega) (by rw [hlengthen]; omega)
            (by rw [hlengthen]; omega) (h.draw tag).lengthen
          exact ⟨hsearch.name, hsearch.names⟩
        · rw [searchWithin_of_mem hmem hlast, searchWithin_of_mem hright hlast]
          simp only [maxRedraws] at hlast
          have hsearch := @ih others (redraws + 1) _ _ (by omega) (by rw [hblocked]; omega)
            (by rw [hblocked]; omega) (h.draw tag)
          exact ⟨hsearch.name, hsearch.names⟩
      · exact searchWithin_alike_of_not_mem h hmem

theorem search_alike (h : Alike left right) (tag : String) :
    (left.search tag).Alike (right.search tag) :=
  searchWithin_alike (by decide) (Nat.mul_le_mul_left maxRedraws (left.blocked_le_size tag))
    (Nat.mul_le_mul_left maxRedraws (right.blocked_le_size tag)) h

end Search

end RandomNames

/-! ## Names of either kind -/

namespace Names

/-- The sources are of the same kind, and differ at most in names without an underscore. -/
inductive Alike : Names → Names → Prop where
  | sequential {left right : SequentialNames} (h : left.Alike right) :
      Alike (.sequential left) (.sequential right)
  | random {left right : RandomNames} (h : left.Alike right) :
      Alike (.random left) (.random right)

namespace Alike

theorem refl : (names : Names) → Alike names names
  | .sequential _ => .sequential ⟨rfl, rfl, fun _ _ => Iff.rfl⟩
  | .random _ => .random ⟨rfl, rfl, rfl, rfl, fun _ _ => Iff.rfl⟩

variable {left right : Names}

theorem fresh_eq (tag : String) :
    Alike left right → (NameSource.fresh tag left).1 = (NameSource.fresh tag right).1
  | .sequential h => h.fresh_eq tag
  | .random h => (RandomNames.search_alike h tag).name

theorem fresh (tag : String) :
    Alike left right → Alike (NameSource.fresh tag left).2 (NameSource.fresh tag right).2
  | .sequential h => .sequential (h.fresh tag)
  | .random h => .random (RandomNames.search_alike h tag).names

theorem reserve (name : String) :
    Alike left right → Alike (NameSource.reserve name left) (NameSource.reserve name right)
  | .sequential h => .sequential (h.reserve name)
  | .random h => .random (h.reserve name)

theorem reserve_plain {name other : String} (hname : '_' ∉ name.toList)
    (hother : '_' ∉ other.toList) :
    Alike left right → Alike (NameSource.reserve name left) (NameSource.reserve other right)
  | .sequential h => .sequential (h.reserve_plain hname hother)
  | .random h => .random (h.reserve_plain hname hother)

theorem reserveAll (h : Alike left right) (names : List String) :
    Alike (NameSource.reserveAll names left) (NameSource.reserveAll names right) := by
  induction names generalizing left right with
  | nil => exact h
  | cons name rest ih => exact ih (h.reserve name)

/-- What is issued depends on the kinds of the auxiliaries only. -/
theorem issued_eq {first second : List Auxiliary} {leftLater rightLater : Names}
    (h : Alike left right) (hfirst : Issued first left leftLater)
    (hsecond : Issued second right rightLater)
    (hkinds : first.map (·.kind) = second.map (·.kind)) : first = second := by
  induction hfirst generalizing second right with
  | nil => exact (List.map_eq_nil_iff.mp hkinds.symm).symm
  | @cons auxiliary rest _ _ _ hfresh _ ih =>
      cases hsecond with
      | nil => cases hkinds
      | @cons other others _ _ _ hother hothers =>
          obtain ⟨hkind, hrest⟩ := List.cons.inj hkinds
          change auxiliary.kind = other.kind at hkind
          have hname := h.fresh_eq auxiliary.kind.tag
          have hnext := h.fresh auxiliary.kind.tag
          rw [← hkind] at hother
          rw [hfresh, hother] at hname hnext
          rw [ih hnext hothers hrest]
          cases auxiliary
          cases other
          simp_all

end Alike

end Names

end PastTime

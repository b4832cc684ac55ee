/-!
# Finite sets of names

A set of names is kept as its strictly increasing list, by code point. The list is canonical, so
two sets with the same members are equal.
-/

namespace PastTime

/-- A finite set of names, listed in increasing order. -/
structure NameSet where
  toList : List String
  sorted : toList.Pairwise (· < ·)
  deriving DecidableEq

namespace NameSet

/-- The set without members. -/
def empty : NameSet := ⟨[], .nil⟩

instance : EmptyCollection NameSet := ⟨empty⟩

instance : Inhabited NameSet := ⟨empty⟩

instance : Membership String NameSet := ⟨fun names name => name ∈ names.toList⟩

instance (name : String) (names : NameSet) : Decidable (name ∈ names) :=
  inferInstanceAs (Decidable (name ∈ names.toList))

/-- The number of members. -/
def size (names : NameSet) : Nat := names.toList.length

/-- Puts a name in its place in an increasing list, unless the list has it already. -/
def place (name : String) : List String → List String
  | [] => [name]
  | first :: rest =>
    if name < first then name :: first :: rest
    else if name = first then first :: rest
    else first :: place name rest

theorem mem_place {name other : String} {names : List String} :
    other ∈ place name names ↔ other = name ∨ other ∈ names := by
  induction names with
  | nil => simp [place]
  | cons first rest ih => grind [place]

theorem sorted_place {name : String} {names : List String} (h : names.Pairwise (· < ·)) :
    (place name names).Pairwise (· < ·) := by
  induction names with
  | nil => simp [place]
  | cons first rest ih =>
    have hrest := List.pairwise_cons.mp h
    rw [place]
    split
    next hlt =>
      refine List.pairwise_cons.mpr ⟨fun other hother => ?_, h⟩
      rcases List.mem_cons.mp hother with rfl | hother
      · exact hlt
      · exact String.lt_trans hlt (hrest.1 other hother)
    next hnot =>
      split
      next => exact h
      next hne =>
        refine List.pairwise_cons.mpr ⟨fun other hother => ?_, ih hrest.2⟩
        rcases mem_place.mp hother with rfl | hother
        · exact Std.lt_of_le_of_ne (String.not_lt.mp hnot) (Ne.symm hne)
        · exact hrest.1 other hother

/-- The set with one more member. -/
def insert (name : String) (names : NameSet) : NameSet :=
  ⟨place name names.toList, sorted_place names.sorted⟩

/-- The members of a list, without order and repetition. -/
def ofList (names : List String) : NameSet := names.foldr insert ∅

/-- The members of either set. -/
def union (left right : NameSet) : NameSet := left.toList.foldr insert right

instance : Union NameSet := ⟨union⟩

theorem mem_def {name : String} {names : NameSet} : name ∈ names ↔ name ∈ names.toList := Iff.rfl

@[simp] theorem not_mem_empty (name : String) : ¬ name ∈ (∅ : NameSet) := List.not_mem_nil

@[simp] theorem mem_insert {name other : String} {names : NameSet} :
    other ∈ names.insert name ↔ other = name ∨ other ∈ names :=
  mem_place

theorem mem_foldr_insert {other : String} {names : List String} {start : NameSet} :
    other ∈ names.foldr insert start ↔ other ∈ names ∨ other ∈ start := by
  induction names with
  | nil => simp
  | cons first rest ih => simp [ih, or_assoc]

@[simp] theorem mem_ofList {name : String} {names : List String} :
    name ∈ ofList names ↔ name ∈ names := by
  simp [ofList, mem_foldr_insert]

@[simp] theorem mem_union {name : String} {left right : NameSet} :
    name ∈ left ∪ right ↔ name ∈ left ∨ name ∈ right :=
  mem_foldr_insert

/-- Two increasing lists with the same members are equal. -/
theorem eq_of_sorted {left right : List String} (hleft : left.Pairwise (· < ·))
    (hright : right.Pairwise (· < ·)) (hmem : ∀ name, name ∈ left ↔ name ∈ right) :
    left = right := by
  induction left generalizing right with
  | nil => exact (List.eq_nil_iff_forall_not_mem.mpr fun name => by simp [← hmem]).symm
  | cons first rest ih =>
    obtain ⟨hfirst, hrest⟩ := List.pairwise_cons.mp hleft
    cases right with
    | nil => exact absurd ((hmem first).mp List.mem_cons_self) List.not_mem_nil
    | cons other others =>
      obtain ⟨hother, hothers⟩ := List.pairwise_cons.mp hright
      have heq : first = other := by
        rcases List.mem_cons.mp ((hmem first).mp List.mem_cons_self) with heq | hlater
        · exact heq
        · rcases List.mem_cons.mp ((hmem other).mpr List.mem_cons_self) with heq | hearlier
          · exact heq.symm
          · exact absurd (String.lt_trans (hother first hlater) (hfirst other hearlier))
              (String.lt_irrefl other)
      subst heq
      refine congrArg (first :: ·) (ih hrest hothers fun name => ?_)
      constructor
      · intro hname
        rcases List.mem_cons.mp ((hmem name).mp (List.mem_cons_of_mem first hname)) with rfl | h
        · exact absurd (hfirst name hname) (String.lt_irrefl name)
        · exact h
      · intro hname
        rcases List.mem_cons.mp ((hmem name).mpr (List.mem_cons_of_mem first hname)) with rfl | h
        · exact absurd (hother name hname) (String.lt_irrefl name)
        · exact h

/-- Sets with the same members are equal. -/
theorem ext {left right : NameSet} (hmem : ∀ name, name ∈ left ↔ name ∈ right) :
    left = right := by
  cases left
  cases right
  simp only [mk.injEq]
  exact eq_of_sorted (by assumption) (by assumption) hmem

end NameSet

end PastTime

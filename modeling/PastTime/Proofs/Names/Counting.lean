import Mathlib.Order.Bounds.Basic
import PastTime.Proofs.Names.Alike

/-!
# The counter of numbered names

Looking for a numbered name passes over the numbers whose names are reserved, one after the other,
and ends at the first number whose name is not: reserved names are finitely many, and different
numbers give different names. So the counter has counted every number once, either as issued or as
passed over.
-/

namespace PastTime

namespace SequentialNames

/-- The source behind the number that its counter is at. -/
def advance (names : SequentialNames) : SequentialNames := { names with next := names.next + 1 }

/-! ## Looking for a name -/

/-- How a number is looked for, without a bound: the counter goes on until the name of its number
is not reserved. The numbers that it passes over are listed in their order. -/
inductive Counts (tag : String) :
    SequentialNames → (skipped : List Nat) → (index : Nat) → SequentialNames → Prop where
  | issued {names : SequentialNames} (hfree : names.nameAt tag names.next ∉ names.reserved) :
      Counts tag names [] names.next names.advance
  | skipped {names later : SequentialNames} {skipped : List Nat} {index : Nat}
      (hreserved : names.nameAt tag names.next ∈ names.reserved)
      (hrest : Counts tag names.advance skipped index later) :
      Counts tag names (names.next :: skipped) index later

/-- There is one way to look for a number. -/
theorem Counts.unique {tag : String} {names later last : SequentialNames}
    {skipped others : List Nat} {index other : Nat} (h : Counts tag names skipped index later)
    (hother : Counts tag names others other last) :
    others = skipped ∧ other = index ∧ last = later := by
  induction h generalizing others with
  | issued hfree =>
      cases hother with
      | issued => exact ⟨rfl, rfl, rfl⟩
      | skipped hreserved => exact absurd hreserved hfree
  | skipped hreserved _ ih =>
      cases hother with
      | issued hfree => exact absurd hreserved hfree
      | skipped _ hrest =>
          obtain ⟨rfl, rfl, rfl⟩ := ih hrest
          exact ⟨rfl, rfl, rfl⟩

/-- If the names of the next numbers are reserved, they are passed over. -/
theorem counts_of_reserved {tag : String} {names : SequentialNames} {gap : Nat}
    (hreserved : ∀ k < gap, names.nameAt tag (names.next + k) ∈ names.reserved)
    (hfree : names.nameAt tag (names.next + gap) ∉ names.reserved) :
    Counts tag names (List.range' names.next gap) (names.next + gap)
      { names with next := names.next + gap + 1 } := by
  induction gap generalizing names with
  | zero => exact .issued hfree
  | succ gap ih =>
      have hshift (k : Nat) : names.next + (k + 1) = names.advance.next + k := by
        simp only [advance]
        omega
      simp only [hshift] at hfree ⊢
      refine .skipped (hreserved 0 (by omega)) (ih (fun k hk => ?_) hfree)
      have hnext := hreserved (k + 1) (by omega)
      rwa [hshift] at hnext

theorem nextFree_le_add_size (names : SequentialNames) (tag : String) :
    names.nextFree tag ≤ names.next + names.reserved.size := by
  obtain ⟨index, hindex⟩ := names.exists_find?_eq_some tag
  have hmem := List.mem_of_find?_eq_some hindex
  simp only [List.mem_range'_1] at hmem
  simp only [nextFree, hindex, Option.getD_some]
  omega

theorem isLeast_nextFree (names : SequentialNames) (tag : String) :
    IsLeast {k | names.next ≤ k ∧ names.nameAt tag k ∉ names.reserved} (names.nextFree tag) :=
  ⟨names.nextFree_spec tag, fun _ hk => nextFree_le hk.1 hk.2⟩

/-- The search with a bound finds what the search without one finds. -/
theorem counts_nextFree (names : SequentialNames) (tag : String) :
    Counts tag names (List.range' names.next (names.nextFree tag - names.next))
      (names.nextFree tag) (names.fresh tag).2 := by
  obtain ⟨hle, hfree⟩ := names.nextFree_spec tag
  obtain ⟨gap, hgap⟩ := Nat.exists_eq_add_of_le hle
  rw [fresh]
  simp only [hgap, Nat.add_sub_cancel_left] at hfree ⊢
  refine counts_of_reserved (fun k hk => ?_) hfree
  by_contra hk'
  have := nextFree_le (Nat.le_add_right names.next k) hk'
  omega

/-- What is passed over are the numbers from the counter up to the one that is found. -/
theorem Counts.spec {tag : String} {names later : SequentialNames} {skipped : List Nat}
    {index : Nat} (h : Counts tag names skipped index later) :
    names.next ≤ index ∧ skipped = List.range' names.next (index - names.next) ∧
      later.next = index + 1 := by
  obtain ⟨rfl, rfl, rfl⟩ := (names.counts_nextFree tag).unique h
  exact ⟨(names.nextFree_spec tag).1, rfl, rfl⟩

/-! ## Runs -/

end SequentialNames

/-- What can be asked of a source of names. -/
inductive NameCall where
  | fresh (tag : String)
  | reserve (name : String)
  deriving DecidableEq, Repr

/-- The tag of the name that is to be issued, if one is. -/
def NameCall.tag? : NameCall → Option String
  | fresh tag => some tag
  | reserve _ => none

namespace SequentialNames

/-- Answers calls one after the other, and lists the names that are issued. -/
def serve : List NameCall → SequentialNames → List String × SequentialNames
  | [], names => ([], names)
  | .fresh tag :: calls, names =>
    let (name, names) := names.fresh tag
    let (others, names) := serve calls names
    (name :: others, names)
  | .reserve name :: calls, names => serve calls (names.reserve name)

/-- How calls are answered, with the numbers that are issued and those that are passed over. -/
inductive Runs :
    List NameCall → SequentialNames → (issued skipped : List Nat) → SequentialNames → Prop where
  | nil (names : SequentialNames) : Runs [] names [] [] names
  | fresh {tag : String} {calls : List NameCall} {names next later : SequentialNames}
      {skipped others issued : List Nat} {index : Nat}
      (hcounts : Counts tag names skipped index next)
      (hrest : Runs calls next issued others later) :
      Runs (.fresh tag :: calls) names (index :: issued) (skipped ++ others) later
  | reserve {name : String} {calls : List NameCall} {names later : SequentialNames}
      {issued skipped : List Nat} (hrest : Runs calls (names.reserve name) issued skipped later) :
      Runs (.reserve name :: calls) names issued skipped later

namespace Runs

variable {calls : List NameCall} {names later last : SequentialNames}
  {issued skipped others passed : List Nat}

/-- There is one way to answer calls. -/
theorem unique (h : Runs calls names issued skipped later)
    (hother : Runs calls names others passed last) :
    others = issued ∧ passed = skipped ∧ last = later := by
  induction h generalizing others passed with
  | nil =>
      cases hother
      exact ⟨rfl, rfl, rfl⟩
  | fresh hcounts _ ih =>
      cases hother with
      | fresh hcounts' hrest =>
          obtain ⟨rfl, rfl, rfl⟩ := hcounts.unique hcounts'
          obtain ⟨rfl, rfl, rfl⟩ := ih hrest
          exact ⟨rfl, rfl, rfl⟩
  | reserve _ ih =>
      cases hother with
      | reserve hrest => exact ih hrest

/-- The counter has counted every number once, as issued or as passed over. -/
theorem counted (h : Runs calls names issued skipped later) :
    names.next ≤ later.next ∧
      (issued ++ skipped).Perm (List.range' names.next (later.next - names.next)) := by
  induction h with
  | nil => simp
  | @fresh tag calls names next later skipped others issued index hcounts _ ih =>
      obtain ⟨hle, rfl, hnext⟩ := hcounts.spec
      obtain ⟨hlater, hperm⟩ := ih
      -- the numbers passed over, then the one that is issued, then those of the other calls
      have hsplit : List.range' names.next (later.next - names.next) =
          List.range' names.next (index - names.next) ++
            index :: List.range' next.next (later.next - next.next) := by
        have hlength : later.next - names.next =
            (index - names.next) + ((later.next - next.next) + 1) := by omega
        have hindex : names.next + (index - names.next) = index := by omega
        rw [hlength, ← List.range'_append_1, hindex, List.range'_succ, hnext]
      refine ⟨by omega, ?_⟩
      rw [hsplit]
      exact List.perm_append_comm_assoc (index :: issued) _ others |>.trans
        ((hperm.cons index).append_left _)
  | reserve _ ih => exact ih

theorem next_eq (h : Runs calls names issued skipped later) :
    later.next = names.next + issued.length + skipped.length := by
  obtain ⟨hle, hperm⟩ := h.counted
  have hlength := hperm.length_eq
  simp only [List.length_append, List.length_range'] at hlength
  omega

theorem next_le_of_mem (h : Runs calls names issued skipped later) {index : Nat}
    (hindex : index ∈ issued) : names.next ≤ index := by
  have hmem := h.counted.2.subset (List.mem_append_left skipped hindex)
  exact (List.mem_range'_1.mp hmem).1

/-- Issued numbers increase. -/
theorem pairwise_issued (h : Runs calls names issued skipped later) :
    issued.Pairwise (· < ·) := by
  induction h with
  | nil => exact .nil
  | fresh hcounts hrest ih =>
      refine .cons (fun other hother => ?_) ih
      have hnext := hrest.next_le_of_mem hother
      have hindex := hcounts.spec.2.2
      omega
  | reserve _ ih => exact ih

end Runs

/-- Calls are answered with the names of the numbers that are issued. -/
theorem exists_runs (calls : List NameCall) (names : SequentialNames) :
    ∃ issued skipped, Runs calls names issued skipped (names.serve calls).2 ∧
      (names.serve calls).1 =
        List.zipWith names.nameAt (calls.filterMap NameCall.tag?) issued ∧
      (names.serve calls).1.length = issued.length := by
  induction calls generalizing names with
  | nil => exact ⟨[], [], .nil names, rfl, rfl⟩
  | cons call calls ih =>
      cases call with
      | fresh tag =>
          obtain ⟨issued, skipped, hruns, hnames, hlength⟩ := ih (names.fresh tag).2
          refine ⟨_, _, .fresh (names.counts_nextFree tag) hruns, ?_, ?_⟩
          · exact congrArg (names.nameAt tag (names.nextFree tag) :: ·) hnames
          · exact congrArg (· + 1) hlength
      | reserve name =>
          obtain ⟨issued, skipped, hruns, hnames, hlength⟩ := ih (names.reserve name)
          exact ⟨issued, skipped, .reserve hruns, hnames, hlength⟩

/-- Numbered names pass over reserved names only. A name is issued after finitely many numbers,
whatever is reserved: it is that of the least number from the counter on whose name is not reserved,
the counter then stands behind this number, and at most as many numbers are passed over as names are
reserved. However names are issued and reserved, the counter has counted the names that were issued
and the numbers that were passed over, each of them once, and the numbers that are issued
increase. -/
theorem fresh_skips_reserved (names : SequentialNames) :
    (∀ tag, ∃ index,
      IsLeast {k | names.next ≤ k ∧ names.nameAt tag k ∉ names.reserved} index ∧
      names.fresh tag = (names.nameAt tag index, { names with next := index + 1 }) ∧
      (∀ skipped found later, Counts tag names skipped found later ↔
        skipped = List.range' names.next (index - names.next) ∧ found = index ∧
          later = (names.fresh tag).2) ∧
      index - names.next ≤ names.reserved.size) ∧
    ∀ calls, ∃ issued skipped,
      (∀ numbers passed later, Runs calls names numbers passed later ↔
        numbers = issued ∧ passed = skipped ∧ later = (names.serve calls).2) ∧
      (names.serve calls).1 =
        List.zipWith names.nameAt (calls.filterMap NameCall.tag?) issued ∧
      (names.serve calls).2.next =
        names.next + (names.serve calls).1.length + skipped.length ∧
      (issued ++ skipped).Perm
        (List.range' names.next ((names.serve calls).2.next - names.next)) ∧
      issued.Pairwise (· < ·) := by
  refine ⟨fun tag => ?_, fun calls => ?_⟩
  · have hcounts := names.counts_nextFree tag
    refine ⟨names.nextFree tag, names.isLeast_nextFree tag, rfl, ?_, ?_⟩
    · intro skipped found later
      refine ⟨hcounts.unique, ?_⟩
      rintro ⟨rfl, rfl, rfl⟩
      exact hcounts
    · have hbound := names.nextFree_le_add_size tag
      omega
  · obtain ⟨issued, skipped, hruns, hnames, hlength⟩ := exists_runs calls names
    refine ⟨issued, skipped, ?_, hnames, hlength ▸ hruns.next_eq, hruns.counted.2,
      hruns.pairwise_issued⟩
    intro numbers passed later
    refine ⟨hruns.unique, ?_⟩
    rintro ⟨rfl, rfl, rfl⟩
    exact hruns

end SequentialNames

end PastTime

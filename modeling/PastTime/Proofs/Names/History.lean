import PastTime.Proofs.Names.Freshness

/-!
# Histories of names

A history lists the names that were issued and reserved, in their order. In every history of a
lawful source, no name is issued after it was issued or reserved.
-/

namespace PastTime

open NameSource

/-- What can happen to a name. -/
inductive NameEvent where
  | issued (name : String)
  | reserved (name : String)
  deriving DecidableEq, Repr

namespace NameEvent

/-- The name to which it happens. -/
def name : NameEvent → String
  | issued name | reserved name => name

/-- The name that is issued, if one is. -/
def issued? : NameEvent → Option String
  | issued name => some name
  | reserved _ => none

@[simp] theorem filterMap_issued (names : List String) :
    (names.map issued).filterMap issued? = names := by
  rw [List.filterMap_map]
  exact List.filterMap_some

@[simp] theorem filterMap_reserved (names : List String) :
    (names.map reserved).filterMap issued? = [] := by
  simp [List.filterMap_eq_nil_iff, issued?]

end NameEvent

/-- The events happen one after the other, and turn the first source into the second. -/
inductive Happens {σ : Type} [NameSource σ] : List NameEvent → σ → σ → Prop where
  | nil (source : σ) : Happens [] source source
  | issued {tag name : String} {rest : List NameEvent} {source next later : σ}
      (hfresh : fresh tag source = (name, next)) (hrest : Happens rest next later) :
      Happens (.issued name :: rest) source later
  | reserved {name : String} {rest : List NameEvent} {source later : σ}
      (hrest : Happens rest (reserve name source) later) :
      Happens (.reserved name :: rest) source later

namespace Happens

section

variable {σ : Type} [NameSource σ] {source middle later : σ}

theorem append {first second : List NameEvent} (hfirst : Happens first source middle)
    (hsecond : Happens second middle later) : Happens (first ++ second) source later := by
  induction hfirst with
  | nil => exact hsecond
  | issued hfresh _ ih => exact .issued hfresh (ih hsecond)
  | reserved _ ih => exact .reserved (ih hsecond)

theorem of_reserveAll (names : List String) (source : σ) :
    Happens (names.map .reserved) source (reserveAll names source) := by
  induction names generalizing source with
  | nil => exact .nil source
  | cons name rest ih => exact .reserved (ih _)

end

section Lawful

variable {σ : Type} [NameSource σ] [LawfulSource σ] {events : List NameEvent} {source later : σ}
  {name : String}

/-- Whatever is issued was not barred at the start. -/
theorem not_barred (h : Happens events source later) (hmem : .issued name ∈ events) :
    ¬ Barred source name := by
  induction h with
  | nil => simp at hmem
  | issued hfresh _ ih =>
      rcases List.mem_cons.mp hmem with heq | hmem
      · cases heq
        exact LawfulSource.not_barred_of_fresh hfresh
      · exact fun hbarred => ih hmem (LawfulSource.barred_of_fresh hfresh (.inr hbarred))
  | reserved _ ih =>
      rcases List.mem_cons.mp hmem with heq | hmem
      · cases heq
      · exact fun hbarred => ih hmem (LawfulSource.barred_of_reserve (.inr hbarred))

/-- No event issues the name of an earlier one. -/
theorem pairwise (h : Happens events source later) :
    events.Pairwise fun earlier later => later ≠ .issued earlier.name := by
  induction h with
  | nil => exact .nil
  | issued hfresh hrest ih =>
      refine .cons ?_ ih
      rintro _ hmem rfl
      exact hrest.not_barred hmem (LawfulSource.barred_of_fresh hfresh (.inl rfl))
  | reserved hrest ih =>
      refine .cons ?_ ih
      rintro _ hmem rfl
      exact hrest.not_barred hmem (LawfulSource.barred_of_reserve (.inl rfl))

/-- No name is issued twice. -/
theorem nodup (h : Happens events source later) : (events.filterMap NameEvent.issued?).Nodup := by
  refine h.pairwise.filterMap _ ?_
  rintro (first | first) (second | second) hne name ⟨⟩ other ⟨⟩ rfl
  exact hne rfl

end Lawful

end Happens

/-! ## Reports -/

/-- The name that a note reports as issued, if it does. -/
def NameNote.issued? : NameNote → Option String
  | issued name => some name
  | collided _ | extended _ => none

/-- A source whose notes report exactly the name that is issued. -/
class TruthfulSource (σ : Type) [ReportingSource σ] : Prop where
  issued_notes (tag : String) (source : σ) :
    (ReportingSource.notes tag source).filterMap NameNote.issued? = [(fresh tag source).1]

theorem RandomNames.issued_notes_searchWithin (tag : String) (draws redraws : Nat)
    (names : RandomNames) :
    (searchWithin tag draws redraws names).notes.filterMap NameNote.issued? =
      [(searchWithin tag draws redraws names).name] := by
  induction draws generalizing redraws names with
  | zero => rfl
  | succ draws ih =>
      simp only [searchWithin]
      split
      · split
        · exact ih 0 _
        · exact ih (redraws + 1) _
      · rfl

instance : TruthfulSource Names where
  issued_notes tag
    | .sequential _ => rfl
    | .random names => RandomNames.issued_notes_searchWithin tag _ 0 names

end PastTime

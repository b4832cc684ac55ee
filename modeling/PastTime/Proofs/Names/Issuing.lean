import PastTime.Proofs.Lexeme.Spelling
import PastTime.Proofs.Names.Suffixes

/-!
# What a source issues

`IssuesOnly` says of a source that all names that it will ever issue for auxiliaries have a
property. It is enough that an invariant of the source gives the property. Numbered and random names
keep their first part, and end in letters and digits, so a source whose first part consists of word
characters only issues identifiers.
-/

namespace PastTime

open NameSource

section

variable {σ : Type} [NameSource σ] {P : String → Prop} {source later : σ}

/-- One use of a source: a name is issued for an auxiliary, or a name is reserved. -/
inductive Uses : σ → σ → Prop where
  | fresh (kind : AuxiliaryKind) (source : σ) : Uses source (fresh kind.tag source).2
  | reserve (name : String) (source : σ) : Uses source (reserve name source)

/-- However the source is used, every name that it issues for an auxiliary has the property. -/
def IssuesOnly (P : String → Prop) (source : σ) : Prop :=
  ∀ later, Relation.ReflTransGen Uses source later →
    ∀ kind : AuxiliaryKind, P (fresh kind.tag later).1

namespace IssuesOnly

theorem of_uses (h : IssuesOnly P source) (huses : Uses source later) : IssuesOnly P later :=
  fun last hlast => h last (hlast.head huses)

theorem reserveAll (h : IssuesOnly P source) (names : List String) :
    IssuesOnly P (reserveAll names source) := by
  induction names generalizing source with
  | nil => exact h
  | cons name rest ih => exact ih (h.of_uses (.reserve name source))

theorem mono {Q : String → Prop} (h : IssuesOnly P source) (himp : ∀ name, P name → Q name) :
    IssuesOnly Q source :=
  fun later hlater kind => himp _ (h later hlater kind)

/-- An invariant of the source that gives the property of the next name gives it of all names. -/
theorem of_invariant (Inv : σ → Prop) (hsource : Inv source)
    (huses : ∀ {source later : σ}, Inv source → Uses source later → Inv later)
    (hnext : ∀ {source : σ} (kind : AuxiliaryKind), Inv source → P (fresh kind.tag source).1) :
    IssuesOnly P source := by
  intro later hlater kind
  have hinv : Inv later := by
    induction hlater with
    | refl => exact hsource
    | tail _ hlast ih => exact huses ih hlast
  exact hnext kind hinv

end IssuesOnly

/-- Whatever is issued for auxiliaries has the property. -/
theorem Issued.of_issuesOnly {auxiliaries : List Auxiliary} (h : Issued auxiliaries source later)
    (hnames : IssuesOnly P source) : ∀ auxiliary ∈ auxiliaries, P auxiliary.name := by
  induction h with
  | nil => simp
  | @cons auxiliary rest source next _ hfresh _ ih =>
      refine List.forall_mem_cons.mpr ⟨?_, ih ?_⟩
      · have hname := hnames source .refl auxiliary.kind
        rwa [hfresh] at hname
      · have hnext := hnames.of_uses (.fresh auxiliary.kind source)
        rwa [hfresh] at hnext

end

/-! ## Identifiers -/

namespace Text

/-- Whether all characters of a text can stand in a word. -/
def isWord (text : String) : Bool := text.toList.all isWordChar

theorem isWord_append (text other : String) :
    isWord (text ++ other) = (isWord text && isWord other) := by
  simp [isWord]

theorem isWord_of_isAlphanum {text : String} (h : ∀ c ∈ text.toList, c.isAlphanum = true) :
    isWord text = true := by
  simp only [isWord, List.all_eq_true]
  intro c hc
  simp [isWordChar, h c hc]

/-- An identifier is the only identifier of its text. -/
theorem identifiers_of_isIdentifier {name : String} (hword : isWord name = true)
    (h : isIdentifier name = true) : identifiers name = [name] := by
  have hne : name.toList ≠ [] := by
    intro hnil
    simp [isIdentifier, hnil] at h
  have hwords : words name = [name] := by
    rw [words, runs_of_all (by simpa [isWord] using hword)]
    simp [hne]
  rw [identifiers, hwords, List.filter_cons_of_pos h, List.filter_nil]

end Text

/-! ## Names of either kind -/

theorem SequentialNames.isWord_toString (index : Nat) : Text.isWord (toString index) = true := by
  apply Text.isWord_of_isAlphanum
  intro c hc
  rw [Nat.toString_eq_repr, Nat.toList_repr] at hc
  simp [Char.isAlphanum, Nat.isDigit_of_mem_toDigits (by decide) (by decide) hc]

theorem Letter.isWord_ofList {letters : List Char} (h : ∀ c ∈ letters, 'a' ≤ c ∧ c ≤ 'z') :
    Text.isWord (String.ofList letters) = true := by
  apply Text.isWord_of_isAlphanum
  intro c hc
  rw [String.toList_ofList] at hc
  simp [Char.isAlphanum, Text.isAlpha_iff.mpr (.inr (h c hc))]

namespace Names

/-- The first part of all names. -/
def stem : Names → String
  | sequential names => names.stem
  | random names => names.naming.stem

/-- A name keeps the first part of all names, and ends in a word. -/
theorem fresh_spec (tag : String) (names : Names) :
    (∃ ending, (fresh tag names).1 = joinName names.stem tag ending ∧
        Text.isWord ending = true) ∧ (fresh tag names).2.stem = names.stem := by
  cases names with
  | sequential names => exact ⟨⟨_, rfl, SequentialNames.isWord_toString _⟩, rfl⟩
  | random names =>
      have hfinds := names.search_finds tag
      obtain ⟨letters, hname, -, hletters⟩ := hfinds.spells
      exact ⟨⟨_, hname, Letter.isWord_ofList hletters⟩, congrArg Naming.stem hfinds.naming_eq⟩

theorem stem_of_uses {names later : Names} (h : Uses names later) : later.stem = names.stem := by
  cases h with
  | fresh kind => exact (fresh_spec kind.tag names).2
  | reserve name => cases names <;> rfl

/-- A source whose first part consists of word characters issues identifiers only. -/
theorem issuesOnly_identifiers {names : Names} (h : Text.isWord names.stem = true) :
    IssuesOnly (fun name => Text.isWord name = true ∧ Text.isIdentifier name = true) names := by
  refine .of_invariant (fun names => Text.isWord names.stem = true) h ?_ ?_
  · intro names later hstem huses
    rwa [stem_of_uses huses]
  · intro names kind hstem
    obtain ⟨⟨ending, hname, hending⟩, -⟩ := fresh_spec kind.tag names
    have htag : Text.isWord kind.tag = true := by cases kind <;> decide
    have hline : Text.isWord "_" = true := by decide
    rw [hname]
    refine ⟨?_, isIdentifier_joinName names.stem ending kind⟩
    simp only [joinName, Text.isWord_append, hstem, hline, htag, hending, Bool.and_self]

end Names

end PastTime

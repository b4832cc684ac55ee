import PastTime.NameSet
import PastTime.Random

/-!
# Sources of names

Auxiliary variables get their names from a source. A source issues fresh names, and it can be told
to reserve names that it must not issue. There are two kinds of sources: the names of one end in a
number, those of the other in random letters.
-/

namespace PastTime

/-- A state from which names are issued. -/
class NameSource (σ : Type) where
  /-- Issues a name that contains the given tag. -/
  fresh : (tag : String) → σ → String × σ
  /-- Keeps a name from being issued. -/
  reserve : (name : String) → σ → σ

/-- Reserves names, from left to right. -/
def NameSource.reserveAll {σ : Type} [NameSource σ] (names : List String) (source : σ) : σ :=
  names.foldl (fun source name => reserve name source) source

/-- An auxiliary name, joined from its three parts. -/
def joinName (stem tag ending : String) : String := stem ++ "_" ++ tag ++ "_" ++ ending

/-- How random names look: their first part, and the number of letters of their last part. -/
structure Naming where
  stem : String := "PTLC"
  suffixLength : Nat := 8
  deriving DecidableEq, Repr, Inhabited

/-- What a source reports while it issues a name. -/
inductive NameNote where
  | issued (name : String)
  | collided (name : String)
  | extended (length : Nat)
  deriving DecidableEq, Repr

/-- A source that can tell how it comes to issue its next name. -/
class ReportingSource (σ : Type) extends NameSource σ where
  /-- What happens when a name with the given tag is issued. -/
  notes : (tag : String) → σ → List NameNote

/-! ## Numbered names

One counter serves all tags, and numbers that would give a reserved name are skipped. -/

/-- A source of numbered names. -/
structure SequentialNames where
  stem : String := ""
  next : Nat := 0
  reserved : NameSet := ∅
  deriving DecidableEq, Inhabited

namespace SequentialNames

/-- The source that has issued and reserved nothing. -/
def new (stem : String) : SequentialNames := { stem }

/-- The name with the given tag and number. -/
def nameAt (names : SequentialNames) (tag : String) (index : Nat) : String :=
  joinName names.stem tag (toString index)

/-- The least number, from the counter on, whose name is not reserved. As many numbers as there are
reserved names can be barred, so one more number is enough to look at. -/
def nextFree (names : SequentialNames) (tag : String) : Nat :=
  let candidates := List.range' names.next (names.reserved.size + 1)
  (candidates.find? fun index => names.nameAt tag index ∉ names.reserved).getD names.next

/-- Issues the next name. -/
def fresh (tag : String) (names : SequentialNames) : String × SequentialNames :=
  let index := names.nextFree tag
  (names.nameAt tag index, { names with next := index + 1 })

/-- Reserves a name. -/
def reserve (name : String) (names : SequentialNames) : SequentialNames :=
  { names with reserved := names.reserved.insert name }

instance : ReportingSource SequentialNames where
  fresh := fresh
  reserve := reserve
  notes tag names := [.issued (names.fresh tag).1]

end SequentialNames

/-! ## Random names

A name that is issued or reserved is taken. If a drawn name is taken, another one is drawn; after
`maxRedraws` such collisions in a row the names get one letter longer, for this and all later names,
so that the letters cannot run out. -/

/-- A source of random names. -/
structure RandomNames where
  naming : Naming
  words : Words
  /-- The position of the first word that is not used up. -/
  position : Nat
  taken : NameSet
  /-- The number of letters that names end in at present. -/
  length : Nat

namespace RandomNames

/-- The collisions in a row after which names get longer. -/
def maxRedraws : Nat := 32

/-- The source that has issued and reserved nothing. -/
def new (naming : Naming) (words : Words) : RandomNames :=
  { naming, words, position := 0, taken := ∅, length := naming.suffixLength }

/-- The source that a seed determines. -/
def seeded (naming : Naming) (seed : UInt64) : RandomNames := new naming (Words.seeded seed)

/-- Draws a name, which may be taken. -/
def draw (tag : String) (names : RandomNames) : String × RandomNames :=
  let (letters, position) := Letter.drawMany names.words names.length names.position
  (joinName names.naming.stem tag (String.ofList letters), { names with position })

/-- Marks a name as taken. -/
def reserve (name : String) (names : RandomNames) : RandomNames :=
  { names with taken := names.taken.insert name }

/-- Makes names one letter longer. -/
def lengthen (names : RandomNames) : RandomNames := { names with length := names.length + 1 }

/-- How a name was found: what happened on the way, the name, and the source after it. -/
structure Search where
  notes : List NameNote
  name : String
  names : RandomNames

/-- Puts what happened before in front of a search. -/
def Search.after (notes : List NameNote) (search : Search) : Search :=
  { search with notes := notes ++ search.notes }

/-- Draws until a name is not taken, at most `draws` times and once more, with `redraws` collisions
in a row so far. -/
def searchWithin (tag : String) : (draws redraws : Nat) → RandomNames → Search
  | 0, _, names =>
    let (name, names) := names.draw tag
    ⟨[.issued name], name, names.reserve name⟩
  | draws + 1, redraws, names =>
    let (name, names) := names.draw tag
    if name ∈ names.taken then
      if redraws + 1 = maxRedraws then
        let names := names.lengthen
        (searchWithin tag draws 0 names).after [.collided name, .extended names.length]
      else (searchWithin tag draws (redraws + 1) names).after [.collided name]
    else ⟨[.issued name], name, names.reserve name⟩

/-- Draws until a name is not taken. Names of different lengths differ, so every taken name bars at
most one length, and each length is left after `maxRedraws` collisions. -/
def search (tag : String) (names : RandomNames) : Search :=
  searchWithin tag (maxRedraws * names.taken.size) 0 names

/-- Issues a name. -/
def fresh (tag : String) (names : RandomNames) : String × RandomNames :=
  let found := names.search tag
  (found.name, found.names)

instance : ReportingSource RandomNames where
  fresh := fresh
  reserve := reserve
  notes tag names := (names.search tag).notes

end RandomNames

/-! ## Names of either kind

The source that a program chooses when it runs. -/

/-- A source of numbered or of random names. -/
inductive Names where
  | sequential (names : SequentialNames)
  | random (names : RandomNames)

namespace Names

instance : ReportingSource Names where
  fresh tag
    | sequential names =>
      let (name, names) := names.fresh tag
      (name, sequential names)
    | random names =>
      let (name, names) := names.fresh tag
      (name, random names)
  reserve name
    | sequential names => sequential (names.reserve name)
    | random names => random (names.reserve name)
  notes tag
    | sequential names => ReportingSource.notes tag names
    | random names => ReportingSource.notes tag names

end Names

end PastTime

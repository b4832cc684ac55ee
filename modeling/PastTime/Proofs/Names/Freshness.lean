import Mathlib.Data.List.Nodup
import Mathlib.Data.List.Perm.Subperm
import PastTime.Names
import PastTime.Predicate.Basic

/-!
# Fresh names

A lawful source bars names: it never issues a barred name, and it bars every name that it issues or
is told to reserve. Numbered names are lawful because different numbers give different names,
whatever their tags. Random names are lawful because a search that keeps colliding moves on to
longer names before its draws are used up.
-/

namespace PastTime

open NameSource

theorem toList_joinName (stem tag ending : String) :
    (joinName stem tag ending).toList =
      stem.toList ++ '_' :: tag.toList ++ '_' :: ending.toList := by
  simp [joinName]

theorem length_joinName (stem tag ending : String) :
    (joinName stem tag ending).length = stem.length + tag.length + 2 + ending.length := by
  simp only [joinName, String.length_append]
  have hline : "_".length = 1 := rfl
  omega

/-- The last part of a name can be told from the name, if it has no underscore. -/
theorem ending_eq_of_joinName_eq {stem tag ending otherStem otherTag otherEnding : String}
    (hending : '_' ∉ ending.toList) (hother : '_' ∉ otherEnding.toList)
    (h : joinName stem tag ending = joinName otherStem otherTag otherEnding) :
    ending = otherEnding := by
  have hlist := congrArg String.toList h
  rw [toList_joinName, toList_joinName, List.append_eq_append_iff] at hlist
  -- the longer of the two front parts would leave an underscore in the other's last part
  rcases hlist with ⟨between, -, hbetween⟩ | ⟨between, -, hbetween⟩
  · cases between with
    | nil => exact String.toList_inj.mp (List.cons.inj hbetween).2
    | cons first rest =>
        have hrest := (List.cons.inj hbetween).2
        exact absurd (hrest ▸ List.mem_append_right rest List.mem_cons_self) hending
  · cases between with
    | nil => exact String.toList_inj.mp (List.cons.inj hbetween).2.symm
    | cons first rest =>
        have hrest := (List.cons.inj hbetween).2
        exact absurd (hrest ▸ List.mem_append_right rest List.mem_cons_self) hother

/-- A name that was joined with the tag of an auxiliary looks like an identifier. -/
theorem isIdentifier_joinName (stem ending : String) (kind : AuxiliaryKind) :
    Text.isIdentifier (joinName stem kind.tag ending) = true := by
  have hletter : kind.tag.toList.any Char.isAlpha = true := by cases kind <;> decide
  have hline : '_' ∈ (joinName stem kind.tag ending).toList := by simp [toList_joinName]
  have hliteral : Text.isBooleanLiteral (joinName stem kind.tag ending) = false := by
    have htrue : '_' ∉ Text.trueLiteral.toList := by decide
    have hfalse : '_' ∉ Text.falseLiteral.toList := by decide
    simp only [Text.isBooleanLiteral, Bool.or_eq_false_iff, beq_eq_false_iff_ne]
    exact ⟨fun h => htrue (h ▸ hline), fun h => hfalse (h ▸ hline)⟩
  simp [Text.isIdentifier, hliteral, toList_joinName, hletter]

/-- A source that never issues a name twice, nor a name that it was told to reserve. -/
class LawfulSource (σ : Type) [NameSource σ] where
  /-- The names that the source will not issue from now on. -/
  Barred : σ → String → Prop
  not_barred_of_fresh {tag name : String} {source next : σ} :
    fresh tag source = (name, next) → ¬ Barred source name
  barred_of_fresh {tag name other : String} {source next : σ} :
    fresh tag source = (name, next) → other = name ∨ Barred source other → Barred next other
  barred_of_reserve {name other : String} {source : σ} :
    other = name ∨ Barred source other → Barred (reserve name source) other
  eq_joinName_of_fresh {tag name : String} {source next : σ} :
    fresh tag source = (name, next) → ∃ stem ending, name = joinName stem tag ending

export LawfulSource (Barred)

/-! ## Runs -/

/-- The auxiliaries are issued one after the other, each under the tag of its kind. -/
inductive Issued {σ : Type} [NameSource σ] : List Auxiliary → σ → σ → Prop where
  | nil (source : σ) : Issued [] source source
  | cons {auxiliary : Auxiliary} {rest : List Auxiliary} {source next later : σ}
      (hfresh : fresh auxiliary.kind.tag source = (auxiliary.name, next))
      (hrest : Issued rest next later) : Issued (auxiliary :: rest) source later

theorem Issued.append {σ : Type} [NameSource σ] {first second : List Auxiliary}
    {source middle later : σ} (hfirst : Issued first source middle)
    (hsecond : Issued second middle later) : Issued (first ++ second) source later := by
  induction hfirst with
  | nil => exact hsecond
  | cons hfresh _ ih => exact .cons hfresh (ih hsecond)

section Lawful

variable {σ : Type} [NameSource σ] [LawfulSource σ] {source later : σ} {name : String}
  {auxiliary : Auxiliary} {auxiliaries : List Auxiliary}

theorem barred_reserveAll {names : List String} (h : name ∈ names ∨ Barred source name) :
    Barred (reserveAll names source) name := by
  induction names generalizing source with
  | nil => simpa [reserveAll] using h
  | cons first rest ih =>
      apply ih
      rcases h with h | h
      · rcases List.mem_cons.mp h with heq | hrest
        · exact .inr (LawfulSource.barred_of_reserve (.inl heq))
        · exact .inl hrest
      · exact .inr (LawfulSource.barred_of_reserve (.inr h))

namespace Issued

theorem barred_of_barred (h : Issued auxiliaries source later) (hname : Barred source name) :
    Barred later name := by
  induction h with
  | nil => exact hname
  | cons hfresh _ ih => exact ih (LawfulSource.barred_of_fresh hfresh (.inr hname))

/-- Whatever is issued was not barred at the start of the run. -/
theorem not_barred (h : Issued auxiliaries source later) (hmem : auxiliary ∈ auxiliaries) :
    ¬ Barred source auxiliary.name := by
  induction h with
  | nil => simp at hmem
  | cons hfresh _ ih =>
      rcases List.mem_cons.mp hmem with rfl | hmem
      · exact LawfulSource.not_barred_of_fresh hfresh
      · intro hbarred
        exact ih hmem (LawfulSource.barred_of_fresh hfresh (.inr hbarred))

theorem nodup (h : Issued auxiliaries source later) : (auxiliaries.map (·.name)).Nodup := by
  induction h with
  | nil => exact List.nodup_nil
  | cons hfresh hrest ih =>
      refine List.nodup_cons.mpr ⟨?_, ih⟩
      intro hmem
      obtain ⟨other, hother, hname⟩ := List.mem_map.mp hmem
      exact hrest.not_barred hother (LawfulSource.barred_of_fresh hfresh (.inl hname))

theorem eq_joinName (h : Issued auxiliaries source later) (hmem : auxiliary ∈ auxiliaries) :
    ∃ stem ending, auxiliary.name = joinName stem auxiliary.kind.tag ending := by
  induction h with
  | nil => simp at hmem
  | cons hfresh _ ih =>
      rcases List.mem_cons.mp hmem with rfl | hmem
      · exact LawfulSource.eq_joinName_of_fresh hfresh
      · exact ih hmem

end Issued

end Lawful

/-! ## Numbered names -/

namespace SequentialNames

theorem underscore_not_mem_toString (index : Nat) : '_' ∉ (toString index).toList := by
  rw [Nat.toString_eq_repr, Nat.toList_repr]
  exact Nat.underscore_not_in_toDigits

theorem toString_injective {index other : Nat} (h : toString index = toString other) :
    index = other := by
  have hdigits : Nat.toDigits 10 index = Nat.toDigits 10 other := by
    rw [← Nat.toList_repr, ← Nat.toList_repr, ← Nat.toString_eq_repr, ← Nat.toString_eq_repr, h]
  rw [← Nat.ofDigitChars_ten_toDigits (n := index), hdigits, Nat.ofDigitChars_ten_toDigits]

/-- The number of a name can be told from it, whatever the tag. -/
theorem index_eq_of_nameAt_eq {names : SequentialNames} {tag otherTag : String}
    {index other : Nat} (h : names.nameAt tag index = names.nameAt otherTag other) :
    index = other :=
  toString_injective <| ending_eq_of_joinName_eq (underscore_not_mem_toString index)
    (underscore_not_mem_toString other) h

/-- Among one more numbers than there are reserved names, one gives a name that is not reserved. -/
theorem exists_find?_eq_some (names : SequentialNames) (tag : String) :
    ∃ index, (List.range' names.next (names.reserved.size + 1)).find?
      (fun index => names.nameAt tag index ∉ names.reserved) = some index := by
  apply Option.ne_none_iff_exists'.mp
  intro hnone
  -- then all these names are reserved, and they are pairwise different
  have hnodup : ((List.range' names.next (names.reserved.size + 1)).map
      (names.nameAt tag)).Nodup :=
    (List.nodup_range' 1).map fun _ _ heq => index_eq_of_nameAt_eq heq
  have hsubset : (List.range' names.next (names.reserved.size + 1)).map (names.nameAt tag) ⊆
      names.reserved.toList := by
    intro name hname
    obtain ⟨index, hindex, rfl⟩ := List.mem_map.mp hname
    have hbarred := List.find?_eq_none.mp hnone index hindex
    simpa [NameSet.mem_def] using hbarred
  have hlength := (hnodup.subperm hsubset).length_le
  simp only [List.length_map, List.length_range', NameSet.size] at hlength
  omega

theorem nextFree_spec (names : SequentialNames) (tag : String) :
    names.next ≤ names.nextFree tag ∧ names.nameAt tag (names.nextFree tag) ∉ names.reserved := by
  obtain ⟨index, hindex⟩ := names.exists_find?_eq_some tag
  have hnextFree : names.nextFree tag = index := by
    simp only [nextFree, hindex, Option.getD_some]
  rw [hnextFree]
  refine ⟨?_, ?_⟩
  · have hmem := List.mem_of_find?_eq_some hindex
    simp only [List.mem_range'_1] at hmem
    exact hmem.1
  · simpa using List.find?_some hindex

instance : LawfulSource SequentialNames where
  Barred names name :=
    name ∈ names.reserved ∨ ∃ tag index, index < names.next ∧ name = names.nameAt tag index
  not_barred_of_fresh := by
    intro tag name source next hfresh hbarred
    obtain ⟨rfl, rfl⟩ := Prod.mk.inj hfresh
    obtain ⟨hle, hnot⟩ := source.nextFree_spec tag
    rcases hbarred with hmem | ⟨otherTag, index, hlt, heq⟩
    · exact hnot hmem
    · have hindex := index_eq_of_nameAt_eq heq
      omega
  barred_of_fresh := by
    intro tag name other source next hfresh h
    obtain ⟨rfl, rfl⟩ := Prod.mk.inj hfresh
    have hle := (source.nextFree_spec tag).1
    rcases h with rfl | hmem | ⟨otherTag, index, hlt, rfl⟩
    · exact .inr ⟨tag, source.nextFree tag, Nat.lt_succ_self _, rfl⟩
    · exact .inl hmem
    · exact .inr ⟨otherTag, index, Nat.lt_succ_of_lt (Nat.lt_of_lt_of_le hlt hle), rfl⟩
  barred_of_reserve := by
    intro name other source h
    rcases h with rfl | hmem | hnumbered
    · exact .inl (NameSet.mem_insert.mpr (.inl rfl))
    · exact .inl (NameSet.mem_insert.mpr (.inr hmem))
    · exact .inr hnumbered
  eq_joinName_of_fresh := by
    intro tag name source next hfresh
    exact ⟨source.stem, _, (Prod.mk.inj hfresh).1.symm⟩

end SequentialNames

/-! ## Random names -/

theorem Letter.length_drawMany (words : Words) (count position : Nat) :
    (drawMany words count position).1.length = count := by
  induction count generalizing position with
  | zero => rfl
  | succ count ih => simp only [drawMany, List.length_cons, ih]

namespace RandomNames

/-- The length of the names that are drawn at present. -/
def span (names : RandomNames) (tag : String) : Nat :=
  names.naming.stem.length + tag.length + 2 + names.length

/-- The number of taken names that are as long as those drawn at present, or longer. -/
def blocked (names : RandomNames) (tag : String) : Nat :=
  names.taken.toList.countP (names.span tag ≤ ·.length)

theorem length_draw (tag : String) (names : RandomNames) :
    (names.draw tag).1.length = names.span tag := by
  simp only [draw, span, length_joinName, String.length_ofList, Letter.length_drawMany]

theorem blocked_le_size (names : RandomNames) (tag : String) :
    names.blocked tag ≤ names.taken.size :=
  List.countP_le_length

/-- After a collision, lengthening leaves fewer names in the way. -/
theorem blocked_lengthen_lt {tag : String} {names : RandomNames}
    (h : (names.draw tag).1 ∈ names.taken) :
    names.lengthen.blocked tag < names.blocked tag := by
  obtain ⟨before, after, htaken⟩ := List.append_of_mem (NameSet.mem_def.mp h)
  have hmono (others : List String) :
      others.countP (names.span tag + 1 ≤ ·.length) ≤
        others.countP (names.span tag ≤ ·.length) := by
    apply List.countP_mono_left
    intro name _ hname
    simp only [decide_eq_true_eq] at hname ⊢
    omega
  have hbefore := hmono before
  have hafter := hmono after
  -- the name that collided is counted on the right only
  change names.taken.toList.countP (names.span tag + 1 ≤ ·.length) <
    names.taken.toList.countP (names.span tag ≤ ·.length)
  simp only [htaken, List.countP_append, List.countP_cons, length_draw, decide_eq_true_eq]
  rw [if_neg (by omega), if_pos (Nat.le_refl _)]
  omega

/-- How a name is looked for, without a bound on the draws: names are drawn until one is not taken,
and get longer after `maxRedraws` collisions in a row. `redraws` of these have happened so far. -/
inductive Finds (tag : String) : (redraws : Nat) → RandomNames → Search → Prop where
  | issued {redraws : Nat} {names : RandomNames} (hfree : (names.draw tag).1 ∉ names.taken) :
      Finds tag redraws names
        ⟨[.issued (names.draw tag).1], (names.draw tag).1,
          (names.draw tag).2.reserve (names.draw tag).1⟩
  | collided {redraws : Nat} {names : RandomNames} {found : Search}
      (htaken : (names.draw tag).1 ∈ names.taken) (hnext : redraws + 1 ≠ maxRedraws)
      (hrest : Finds tag (redraws + 1) (names.draw tag).2 found) :
      Finds tag redraws names (found.after [.collided (names.draw tag).1])
  | extended {redraws : Nat} {names : RandomNames} {found : Search}
      (htaken : (names.draw tag).1 ∈ names.taken) (hlast : redraws + 1 = maxRedraws)
      (hrest : Finds tag 0 (names.draw tag).2.lengthen found) :
      Finds tag redraws names
        (found.after [.collided (names.draw tag).1, .extended (names.length + 1)])

/-- The draws suffice when every name in the way has `maxRedraws` of them, less the collisions
since the last lengthening. -/
theorem searchWithin_finds {tag : String} {draws redraws : Nat} {names : RandomNames}
    (hredraws : redraws < maxRedraws)
    (hdraws : maxRedraws * names.blocked tag ≤ draws + redraws) :
    Finds tag redraws names (searchWithin tag draws redraws names) := by
  simp only [maxRedraws] at hredraws hdraws
  induction draws generalizing redraws names with
  | zero =>
      apply Finds.issued
      intro hmem
      have hlt := blocked_lengthen_lt hmem
      omega
  | succ draws ih =>
      simp only [searchWithin]
      split
      next hmem =>
        have hlt := @blocked_lengthen_lt tag names hmem
        have hlengthen : (names.draw tag).2.lengthen.blocked tag = names.lengthen.blocked tag := rfl
        split
        next hlast =>
          -- the names in the way are fewer, so what is left of the draws suffices again
          refine .extended hmem hlast (ih ?_ ?_)
          · decide
          · omega
        next hnext =>
          have hblocked : (names.draw tag).2.blocked tag = names.blocked tag := rfl
          refine .collided hmem hnext (ih ?_ ?_)
          · simp only [maxRedraws] at hnext
            omega
          · omega
      next hmem => exact .issued hmem

theorem search_finds (tag : String) (names : RandomNames) :
    Finds tag 0 names (names.search tag) :=
  searchWithin_finds (by decide) (Nat.mul_le_mul_left maxRedraws (names.blocked_le_size tag))

/-- What a search finds: a joined name that was not taken, and is taken afterwards. -/
structure Search.Sound (tag : String) (names : RandomNames) (search : Search) : Prop where
  notMem : search.name ∉ names.taken
  taken : search.names.taken = names.taken.insert search.name
  shape : ∃ stem ending, search.name = joinName stem tag ending

theorem Finds.sound {tag : String} {redraws : Nat} {names : RandomNames} {found : Search}
    (h : Finds tag redraws names found) : found.Sound tag names := by
  induction h with
  | @issued _ names hfree => exact ⟨hfree, rfl, names.naming.stem, _, rfl⟩
  | collided _ _ _ ih => exact ⟨ih.notMem, ih.taken, ih.shape⟩
  | extended _ _ _ ih => exact ⟨ih.notMem, ih.taken, ih.shape⟩

theorem search_sound (tag : String) (names : RandomNames) :
    (names.search tag).Sound tag names :=
  (names.search_finds tag).sound

instance : LawfulSource RandomNames where
  Barred names name := name ∈ names.taken
  not_barred_of_fresh := by
    intro tag name source next hfresh
    obtain ⟨rfl, rfl⟩ := Prod.mk.inj hfresh
    exact (source.search_sound tag).notMem
  barred_of_fresh := by
    intro tag name other source next hfresh h
    obtain ⟨rfl, rfl⟩ := Prod.mk.inj hfresh
    rw [(source.search_sound tag).taken]
    exact NameSet.mem_insert.mpr h
  barred_of_reserve := NameSet.mem_insert.mpr
  eq_joinName_of_fresh := by
    intro tag name source next hfresh
    obtain ⟨rfl, rfl⟩ := Prod.mk.inj hfresh
    exact (source.search_sound tag).shape

end RandomNames

/-! ## Names of either kind -/

instance : LawfulSource Names where
  Barred
    | .sequential names, name => Barred names name
    | .random names, name => Barred names name
  not_barred_of_fresh := by
    intro tag name source next hfresh
    cases source <;> obtain ⟨rfl, rfl⟩ := Prod.mk.inj hfresh
    all_goals exact LawfulSource.not_barred_of_fresh rfl
  barred_of_fresh := by
    intro tag name other source next hfresh
    cases source <;> obtain ⟨rfl, rfl⟩ := Prod.mk.inj hfresh
    all_goals exact LawfulSource.barred_of_fresh rfl
  barred_of_reserve := by
    intro name other source
    cases source <;> exact LawfulSource.barred_of_reserve
  eq_joinName_of_fresh := by
    intro tag name source next hfresh
    cases source with
    | sequential names =>
        rw [← (Prod.mk.inj hfresh).1]
        exact LawfulSource.eq_joinName_of_fresh (rfl : fresh tag names = (_, (fresh tag names).2))
    | random names =>
        rw [← (Prod.mk.inj hfresh).1]
        exact LawfulSource.eq_joinName_of_fresh (rfl : fresh tag names = (_, (fresh tag names).2))

end PastTime

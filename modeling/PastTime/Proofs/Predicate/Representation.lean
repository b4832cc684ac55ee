import Mathlib.Control.Monad.Basic
import PastTime.Proofs.Predicate.Application
import PastTime.Proofs.Predicate.Nesting

/-!
# What records say

`Kept` is every draft that can be had by building drafts, taking terms from them, normalizing them,
applying operators and reading texts, in any order and any number, with names from any sources. What
a kept record says of itself is right, and so is what every part of it says, although nothing is
checked after a part was built.
-/

namespace PastTime

/-! ## Solid terms -/

theorem Text.solid_squeeze {text : String} (h : squeeze text ≠ "") : Solid (squeeze text) := by
  refine ⟨h, isBlankFree_iff.mpr fun c hc => ?_⟩
  rw [toList_squeeze, List.mem_filter, Bool.not_eq_true'] at hc
  exact hc.2

theorem Text.isBlankFree_append (text other : String) :
    isBlankFree (text ++ other) = (isBlankFree text && isBlankFree other) := by
  simp [isBlankFree]

theorem Text.Solid.parenthesized {text : String} (h : Solid text) :
    Solid ("(" ++ text ++ ")") := by
  refine ⟨by simp, ?_⟩
  rw [isBlankFree_append, isBlankFree_append, h.2]
  decide

namespace Predicate

/-- All terms of the predicate have text without blank characters. -/
def Solid (predicate : Predicate) : Prop := ∀ term ∈ predicate.terms, Text.Solid term.expression

theorem solid_term {found : Term} : (term found).Solid ↔ Text.Solid found.expression := by
  simp [Solid, terms]

theorem Solid.parenthesized {predicate : Predicate} (h : predicate.Solid) :
    predicate.parenthesized.Solid := by
  cases predicate with
  | term => exact solid_term.mpr (solid_term.mp h).parenthesized
  | not | connective | previously | since => exact h

theorem solid_of_operands {predicate : Predicate} {operator : Operator}
    (hoperator : predicate.operator = some operator)
    (h : ∀ operand ∈ predicate.operands, operand.Solid) : predicate.Solid := by
  cases predicate with
  | term => cases hoperator
  | not operand => exact h operand List.mem_cons_self
  | previously operand => exact h operand List.mem_cons_self
  | connective _ left right =>
      exact List.forall_mem_append.mpr ⟨h left (by simp [operands]), h right (by simp [operands])⟩
  | since left right =>
      exact List.forall_mem_append.mpr ⟨h left (by simp [operands]), h right (by simp [operands])⟩

theorem solid_of_run_parsePredicate {σ : Type} [NameSource σ] {text : String}
    {predicate : Predicate} {source later : σ}
    (h : (parsePredicate text).run source = (.ok predicate, later)) : predicate.Solid := by
  obtain ⟨formula, hparse, hcompiles, -⟩ := issued_of_run_parsePredicate h
  exact hcompiles.forall_terms ⟨by decide, by decide⟩ (fun _ => .parenthesized)
    (Formula.solid_of_parse hparse)

end Predicate

namespace Value

/-- What the value stands for, if anything, has solid terms. -/
def Solid (value : Value) : Prop := ∀ predicate, value.normalize = .ok predicate → predicate.Solid

theorem solid_of_toTerm {value : Value} {found : Term} (h : value.toTerm = .ok found) :
    Text.Solid found.expression := by
  unfold toTerm at h
  cases hflatten : value.flatten with
  | error => rw [hflatten] at h; cases h
  | ok text =>
      rw [hflatten] at h
      obtain ⟨hne, rfl⟩ := Term.ofText_eq_ok_iff.mp h
      exact Text.solid_squeeze hne

theorem solid_predicate {predicate : Predicate} :
    (Value.predicate predicate).Solid ↔ predicate.Solid := by
  simp [Solid, normalize]

theorem solid_of_map_toTerm {value : Value} (h : value.normalize = value.toTerm.map .term) :
    value.Solid := by
  intro predicate hpredicate
  obtain ⟨found, hfound, rfl⟩ := exists_of_map_eq_ok (h ▸ hpredicate)
  exact Predicate.solid_term.mpr (solid_of_toTerm hfound)

theorem Solid.grouped {inner : Value} (h : inner.Solid) : (Value.grouped inner).Solid := by
  intro predicate hpredicate
  cases inner with
  | predicate found => exact h predicate hpredicate
  | literal | sequence | grouped =>
      rw [normalize_grouped (by simp)] at hpredicate
      obtain ⟨found, hfound, rfl⟩ := exists_of_map_eq_ok hpredicate
      exact (h found hfound).parenthesized

end Value

theorem Predicate.solid_of_run_apply {σ : Type} [NameSource σ] {operator : Operator}
    {values : List Value} {predicate : Predicate} {source later : σ}
    (hvalues : ∀ value ∈ values, value.Solid)
    (hrun : (apply operator values).run source = (.ok predicate, later)) : predicate.Solid := by
  obtain ⟨hoperator, hoperands, -⟩ := run_apply_eq_ok hrun
  refine solid_of_operands hoperator fun operand hoperand => ?_
  obtain ⟨value, hvalue, hnormal⟩ := Value.exists_of_mem_operands hoperands hoperand
  exact hvalues value hvalue operand hnormal

/-! ## Kept drafts -/

/-- The drafts that can be had, with any sources of names. A record counts as the draft that it
is. -/
inductive Kept : Draft → Prop where
  | literal (text : String) : Kept (.literal text)
  | sequence {drafts : List Draft} (hdrafts : ∀ draft ∈ drafts, Kept draft) :
      Kept (.sequence drafts)
  | grouped {inner : Draft} (hinner : Kept inner) : Kept (.grouped inner)
  | term {text : String} {found : Record} (hterm : Record.ofText text = .ok found) :
      Kept (.record found)
  | toTerm {draft : Draft} {found : Record} (hdraft : Kept draft)
      (hterm : draft.toTerm = .ok found) : Kept (.record found)
  | normalize {draft : Draft} {found : Record} (hdraft : Kept draft)
      (hrecord : draft.normalize = .ok found) : Kept (.record found)
  | apply {σ : Type} [NameSource σ] {operator : Operator} {drafts : List Draft} {found : Record}
      {source later : σ} (hdrafts : ∀ draft ∈ drafts, Kept draft)
      (hrun : (Record.apply .arity operator drafts).run source = (.ok found, later)) :
      Kept (.record found)
  | applySymbol {σ : Type} [NameSource σ] {symbol : String} {drafts : List Draft} {found : Record}
      {source later : σ} (hdrafts : ∀ draft ∈ drafts, Kept draft)
      (hrun : (Record.applySymbol .arity symbol drafts).run source = (.ok found, later)) :
      Kept (.record found)
  | compiled {σ : Type} [NameSource σ] {text : String} {found : Record} {source later : σ}
      (hrun : (Record.parse text).run source = (.ok found, later)) : Kept (.record found)

theorem run_map_eq_ok_iff {ε σ α β : Type} (f : α → β) {action : ExceptT ε (StateM σ) α}
    {result : β} {source later : σ} :
    (f <$> action).run source = (.ok result, later) ↔
      ∃ value, action.run source = (.ok value, later) ∧ f value = result := by
  rw [run_map]
  constructor
  · intro h
    obtain ⟨hresult, hlater⟩ := Prod.mk.inj h
    obtain ⟨value, hvalue, rfl⟩ := exists_of_map_eq_ok hresult
    exact ⟨value, Prod.ext hvalue hlater, rfl⟩
  · rintro ⟨value, hrun, rfl⟩
    rw [hrun]
    rfl

theorem Value.exists_map_draft {drafts : List Draft}
    (h : ∀ draft ∈ drafts, ∃ value : Value, value.draft = draft ∧ value.Solid) :
    ∃ values : List Value, values.map Value.draft = drafts ∧ ∀ value ∈ values, value.Solid := by
  induction drafts with
  | nil => exact ⟨[], rfl, by simp⟩
  | cons first rest ih =>
      obtain ⟨⟨value, rfl, hvalue⟩, hrest⟩ := List.forall_mem_cons.mp h
      obtain ⟨values, rfl, hvalues⟩ := ih hrest
      exact ⟨value :: values, rfl, List.forall_mem_cons.mpr ⟨hvalue, hvalues⟩⟩

/-- Whatever is kept is the draft of a value, which stands for a predicate with solid terms. -/
theorem Kept.exists_value {draft : Draft} (h : Kept draft) :
    ∃ value : Value, value.draft = draft ∧ value.Solid := by
  -- the invariant is about what a value is normalized to: text may be blank until it is a term
  induction h with
  | literal text => exact ⟨.literal text, rfl, Value.solid_of_map_toTerm (by rw [Value.normalize])⟩
  | sequence _ ih =>
      obtain ⟨values, rfl, -⟩ := Value.exists_map_draft ih
      refine ⟨.sequence values, ?_, Value.solid_of_map_toTerm (by rw [Value.normalize])⟩
      rw [Value.draft, Value.drafts_eq_map]
  | grouped _ ih =>
      obtain ⟨value, rfl, hvalue⟩ := ih
      exact ⟨.grouped value, rfl, hvalue.grouped⟩
  | term hterm =>
      rw [Record.ofText_eq] at hterm
      obtain ⟨predicate, hpredicate, rfl⟩ := exists_of_map_eq_ok hterm
      obtain ⟨found, hfound, rfl⟩ := exists_of_map_eq_ok hpredicate
      obtain ⟨hne, rfl⟩ := Term.ofText_eq_ok_iff.mp hfound
      exact ⟨_, rfl, Value.solid_predicate.mpr (Predicate.solid_term.mpr (Text.solid_squeeze hne))⟩
  | toTerm _ hterm ih =>
      obtain ⟨value, rfl, -⟩ := ih
      rw [Value.toTerm_draft] at hterm
      obtain ⟨predicate, hpredicate, rfl⟩ := exists_of_map_eq_ok hterm
      obtain ⟨found, hfound, rfl⟩ := exists_of_map_eq_ok hpredicate
      exact ⟨_, rfl, Value.solid_predicate.mpr
        (Predicate.solid_term.mpr (Value.solid_of_toTerm hfound))⟩
  | normalize _ hrecord ih =>
      obtain ⟨value, rfl, hvalue⟩ := ih
      rw [Value.normalize_draft] at hrecord
      obtain ⟨predicate, hpredicate, rfl⟩ := exists_of_map_eq_ok hrecord
      exact ⟨_, rfl, Value.solid_predicate.mpr (hvalue predicate hpredicate)⟩
  | apply _ hrun ih =>
      obtain ⟨values, rfl, hvalues⟩ := Value.exists_map_draft ih
      rw [Record.apply_map_draft] at hrun
      obtain ⟨predicate, hbuilt, rfl⟩ := (run_map_eq_ok_iff _).mp hrun
      exact ⟨_, rfl, Value.solid_predicate.mpr (Predicate.solid_of_run_apply hvalues hbuilt)⟩
  | applySymbol _ hrun ih =>
      obtain ⟨values, rfl, hvalues⟩ := Value.exists_map_draft ih
      rw [Record.applySymbol_map_draft] at hrun
      obtain ⟨predicate, hbuilt, rfl⟩ := (run_map_eq_ok_iff _).mp hrun
      obtain ⟨operator, hbuilt⟩ := Predicate.run_applySymbol_eq_ok hbuilt
      exact ⟨_, rfl, Value.solid_predicate.mpr (Predicate.solid_of_run_apply hvalues hbuilt)⟩
  | compiled hrun =>
      rw [Record.parse_eq] at hrun
      obtain ⟨predicate, hbuilt, rfl⟩ := (run_map_eq_ok_iff _).mp hrun
      exact ⟨_, rfl, Value.solid_predicate.mpr (Predicate.solid_of_run_parsePredicate hbuilt)⟩

/-- Whatever is obtained with sources of one kind is kept. -/
theorem Obtainable.kept {σ : Type} [NameSource σ] {Usable : σ → Prop} {value : Value}
    (h : Obtainable Usable value) : Kept value.draft := by
  induction h with
  | literal text => exact .literal text
  | sequence _ ih =>
      rw [Value.draft, Value.drafts_eq_map]
      exact .sequence (List.forall_mem_map.mpr ih)
  | grouped _ ih => exact .grouped ih
  | term hterm => exact .term (by rw [Record.ofText_eq, hterm]; rfl)
  | toTerm _ hterm ih => exact .toTerm ih (by rw [Value.toTerm_draft, hterm]; rfl)
  | normalize _ hpredicate ih =>
      exact .normalize ih (by rw [Value.normalize_draft, hpredicate]; rfl)
  | apply _ _ hrun ih =>
      have hrecord := (run_map_eq_ok_iff Predicate.record).mpr ⟨_, hrun, rfl⟩
      rw [← Record.apply_map_draft .arity] at hrecord
      exact .apply (List.forall_mem_map.mpr ih) hrecord
  | applySymbol _ _ hrun ih =>
      have hrecord := (run_map_eq_ok_iff Predicate.record).mpr ⟨_, hrun, rfl⟩
      rw [← Record.applySymbol_map_draft .arity] at hrecord
      exact .applySymbol (List.forall_mem_map.mpr ih) hrecord
  | compiled _ hrun =>
      have hrecord := (run_map_eq_ok_iff Predicate.record).mpr ⟨_, hrun, rfl⟩
      rw [← Record.parse_eq] at hrecord
      exact .compiled hrecord

/-! ## Parts of a record -/

/-- A part of a record: the record itself, or a part of an operand. -/
inductive Record.Within (part : Record) : Record → Prop where
  | refl : Within part part
  | operand {record operand : Record} (hoperand : operand ∈ record.operands)
      (hpart : Within part operand) : Within part record

namespace Predicate

theorem operands_record (predicate : Predicate) :
    predicate.record.operands = predicate.operands.map record := by
  cases predicate <;> rfl

/-- The parts of the record of a predicate are the records of its parts. -/
theorem exists_part_of_within {part whole : Record} (h : part.Within whole) {predicate : Predicate}
    (hwhole : predicate.record = whole) :
    ∃ inner : Predicate, part = inner.record ∧ inner.terms ⊆ predicate.terms := by
  induction h generalizing predicate with
  | refl => exact ⟨predicate, hwhole.symm, List.Subset.refl _⟩
  | operand hoperand _ ih =>
      rw [← hwhole, operands_record] at hoperand
      obtain ⟨operand, hmem, hoperand⟩ := List.mem_map.mp hoperand
      obtain ⟨inner, hinner, hterms⟩ := ih hoperand
      exact ⟨inner, hinner, List.Subset.trans hterms (terms_subset_of_mem_operands hmem)⟩

theorem within_record_of_mem_terms {found : Term} {predicate : Predicate}
    (h : found ∈ predicate.terms) : (term found).record.Within predicate.record := by
  induction predicate with
  | term other =>
      obtain rfl := List.mem_singleton.mp h
      exact .refl
  | not operand ih => exact .operand List.mem_cons_self (ih h)
  | previously operand _ ih => exact .operand List.mem_cons_self (ih h)
  | connective c left right ihleft ihright =>
      rcases List.mem_append.mp h with h | h
      · exact .operand List.mem_cons_self (ihleft h)
      · exact .operand (List.mem_cons_of_mem _ List.mem_cons_self) (ihright h)
  | since left right _ _ ihleft ihright =>
      rcases List.mem_append.mp h with h | h
      · exact .operand List.mem_cons_self (ihleft h)
      · exact .operand (List.mem_cons_of_mem _ List.mem_cons_self) (ihright h)

/-- The variables of a predicate are those of the terms in its record. -/
theorem mem_freeVariables_iff_within (predicate : Predicate) (name : String) :
    name ∈ predicate.freeVariables ↔ ∃ leaf freeVariables,
      (Record.term leaf freeVariables).Within predicate.record ∧ name ∈ freeVariables := by
  rw [predicate.mem_freeVariables_iff]
  constructor
  · rintro ⟨found, hfound, hname⟩
    exact ⟨found.expression, found.freeVariables, within_record_of_mem_terms hfound,
      Text.mem_freeVariables.mpr hname⟩
  · rintro ⟨leaf, freeVariables, hleaf, hname⟩
    obtain ⟨inner, hinner, hterms⟩ := exists_part_of_within hleaf rfl
    cases inner with
    | term found =>
        cases hinner
        exact ⟨found, hterms List.mem_cons_self, Text.mem_freeVariables.mp hname⟩
    | not | connective | previously | since => cases hinner

end Predicate

/-! ## Sound records -/

/-- What an operator makes of the expressions of its operands and of the names of its
auxiliaries. -/
inductive Operator.Writes : Operator → (operands names : List String) → String → Prop where
  | not (operand : String) : Writes .not [operand] [] ("!(" ++ operand ++ ")")
  | connective (c : Connective) (left right : String) :
      Writes (.connective c) [left, right] []
        ("(" ++ left ++ ")" ++ c.symbol ++ "(" ++ right ++ ")")
  | previously (operand name : String) : Writes .previously [operand] [name] name
  | since (left right hold trail : String) :
      Writes .since [left, right] [hold, trail] ("(" ++ hold ++ "&&" ++ trail ++ ")")

/-- What a record says of itself is right. -/
inductive Record.Sound : Record → Prop where
  /-- The text of a term is solid, and its variables are those of the text. -/
  | term {expression : String} (hsolid : Text.Solid expression) :
      Sound (.term expression (Text.freeVariables expression))
  /-- An operator has as many operands and such auxiliaries as it needs, the variables of the terms
  below it, the expression of the table, and can be displayed. -/
  | node {operator : Operator} {first : Record} {others : List Record} {freeVariables : NameSet}
      {expression : String} {auxiliaries : List Auxiliary}
      (hcount : (first :: others).length = operator.arity)
      (hvariables : ∀ name, name ∈ freeVariables ↔ ∃ leaf leafVariables,
        (Record.term leaf leafVariables).Within
          (.node operator first others freeVariables expression auxiliaries) ∧
        name ∈ leafVariables)
      (hkinds : auxiliaries.map (·.kind) = operator.auxiliaryKinds)
      (hwrites : operator.Writes ((first :: others).map (·.expression)) (auxiliaries.map (·.name))
        expression)
      (hdisplay : (operator.display? first.display (displayAll others).head?).isSome = true) :
      Sound (.node operator first others freeVariables expression auxiliaries)

namespace Predicate

theorem writes_expression {predicate : Predicate} {operator : Operator}
    (h : predicate.operator = some operator) :
    operator.Writes (predicate.operands.map expression) (predicate.ownAuxiliaries.map (·.name))
      predicate.expression := by
  cases predicate with
  | term => cases h
  | not | connective | previously | since => cases h; constructor

theorem Solid.sound_record {predicate : Predicate} (h : predicate.Solid) :
    predicate.record.Sound := by
  have hvariables := predicate.mem_freeVariables_iff_within
  have hwrites {operator : Operator} (hoperator : predicate.operator = some operator) :
      operator.Writes (predicate.record.operands.map (·.expression))
        (predicate.ownAuxiliaries.map (·.name)) predicate.expression := by
    simpa [operands_record, Function.comp_def] using writes_expression hoperator
  cases predicate with
  | term found => exact .term (solid_term.mp h)
  | not | connective | previously | since => exact .node rfl hvariables rfl (hwrites rfl) rfl

theorem isIdentifier_of_mem_freeVariables {predicate : Predicate} {name : String}
    (h : name ∈ predicate.freeVariables) : Text.isIdentifier name = true := by
  obtain ⟨found, -, hname⟩ := predicate.mem_freeVariables_iff.mp h
  exact (List.mem_filter.mp hname).2

end Predicate

/-- The representation of predicates. A kept record is that of a predicate. Whatever its parts say
of themselves is right, also in parentheses, and no part has a boolean literal among its
variables. -/
theorem Kept.parts_sound {record : Record} (h : Kept (.record record)) :
    (∃ predicate : Predicate, record = predicate.record) ∧
      ∀ part : Record, part.Within record →
        part.Sound ∧ part.parenthesized.Sound ∧
          Text.trueLiteral ∉ part.freeVariables ∧ Text.falseLiteral ∉ part.freeVariables := by
  obtain ⟨value, hdraft, hvalue⟩ := h.exists_value
  obtain ⟨predicate, rfl⟩ : ∃ predicate, value = .predicate predicate := by
    cases value with
    | predicate predicate => exact ⟨predicate, rfl⟩
    | literal | sequence | grouped => cases hdraft
  have hrecord : predicate.record = record := Draft.record.inj hdraft
  refine ⟨⟨predicate, hrecord.symm⟩, fun part hpart => ?_⟩
  obtain ⟨inner, rfl, hterms⟩ := Predicate.exists_part_of_within hpart hrecord
  have hsolid : inner.Solid :=
    fun found hfound => Value.solid_predicate.mp hvalue found (hterms hfound)
  rw [inner.parenthesized_record, inner.freeVariables_record]
  refine ⟨hsolid.sound_record, hsolid.parenthesized.sound_record, fun hname => ?_, fun hname => ?_⟩
  · exact absurd (Predicate.isIdentifier_of_mem_freeVariables hname) (by decide)
  · exact absurd (Predicate.isIdentifier_of_mem_freeVariables hname) (by decide)

/-- A term in parentheses and a literal, below an operator with auxiliaries. -/
theorem Kept.parts_sound_since :
    let record := (Predicate.since (.term ⟨"(f(a))"⟩) .truth "T_q_0" "T_p_since_q_1").record
    Kept (.record record) ∧ record.Sound ∧
      (Record.term "(f(a))" (Text.freeVariables "(f(a))")).Sound ∧
      Text.trueLiteral ∉ record.freeVariables := by
  intro record
  have hrun : (Predicate.apply .since [.grouped (.literal "f\u00a0( a )"), .literal "true"]).run
      (SequentialNames.new "T") =
        (.ok (.since (.term ⟨"(f(a))"⟩) .truth "T_q_0" "T_p_since_q_1"), ⟨"T", 2, ∅⟩) := by
    have hoperands :
        [Value.grouped (.literal "f\u00a0( a )"), .literal "true"].map Value.normalize =
          [Predicate.term ⟨"(f(a))"⟩, .truth].map .ok := by
      decide +kernel
    have hhold : (SequentialNames.new "T").fresh "q" = ("T_q_0", ⟨"T", 1, ∅⟩) := by
      decide +kernel
    have htrail : (SequentialNames.mk "T" 1 ∅).fresh "p_since_q" =
        ("T_p_since_q_1", ⟨"T", 2, ∅⟩) := by
      decide +kernel
    exact Predicate.run_apply_of_built rfl rfl hoperands (.cons hhold (.cons htrail (.nil _)))
  have hobtainable : Obtainable (fun _ : SequentialNames => True)
      (.predicate (.since (.term ⟨"(f(a))"⟩) .truth "T_q_0" "T_p_since_q_1")) := by
    refine .apply trivial ?_ hrun
    simp only [List.mem_cons, List.not_mem_nil, or_false, forall_eq_or_imp, forall_eq]
    exact ⟨.grouped (.literal _), .literal _⟩
  have h : Kept (.record record) := hobtainable.kept
  obtain ⟨-, hparts⟩ := h.parts_sound
  obtain ⟨hrecord, -, htrue, -⟩ := hparts record .refl
  exact ⟨h, hrecord, (hparts _ (.operand List.mem_cons_self .refl)).1, htrue⟩

end PastTime

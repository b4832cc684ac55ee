import PastTime.Names
import PastTime.Proofs.Formula.Lowering

/-!
# Auxiliaries of a compilation

The auxiliaries of a predicate are the names that were issued for it, in the order of the calls, and
their kinds can be read off the formula. The names are all that a source contributes: predicates of
one formula have the same shape, and their expressions are the same text with other names in the
same places.
-/

namespace PastTime

/-! ## Kinds -/

/-- The auxiliaries that an operator needs. -/
def UnaryOp.auxiliaryKinds : UnaryOp → List AuxiliaryKind
  | not => []
  | previously => [.previously]
  | once | always => [.sinceHold, .sinceTrail]

/-- The auxiliaries that an operator needs. -/
def BinaryOp.auxiliaryKinds : BinaryOp → List AuxiliaryKind
  | implies | connective _ => []
  | since => [.sinceHold, .sinceTrail]

namespace Formula

/-- The operators of a formula in post-order: each behind those of its operands, which come from
left to right. -/
def operators : Formula → List (UnaryOp ⊕ BinaryOp)
  | terminal _ => []
  | grouped inner => inner.operators
  | unary op operand => operand.operators ++ [.inl op]
  | binary op left right => left.operators ++ right.operators ++ [.inr op]

/-- The auxiliaries that a formula needs, in post-order. -/
def auxiliaryKinds (formula : Formula) : List AuxiliaryKind :=
  formula.operators.flatMap (Sum.elim UnaryOp.auxiliaryKinds BinaryOp.auxiliaryKinds)

/-- How often an operator occurs in a formula. -/
def occurrences (formula : Formula) (op : UnaryOp ⊕ BinaryOp) : Nat :=
  formula.operators.countP (· = op)

theorem length_auxiliaryKinds (formula : Formula) :
    formula.auxiliaryKinds.length = formula.occurrences (.inl .previously) +
      2 * (formula.occurrences (.inr .since) + formula.occurrences (.inl .once) +
        formula.occurrences (.inl .always)) := by
  unfold auxiliaryKinds occurrences
  induction formula.operators with
  | nil => rfl
  | cons op rest ih =>
      rw [List.flatMap_cons, List.length_append, ih]
      rcases op with (_ | _ | _ | _) | (_ | _ | _) <;>
        simp [UnaryOp.auxiliaryKinds, BinaryOp.auxiliaryKinds] <;> omega

end Formula

namespace Compiles

variable {formula : Formula} {left right : Predicate}

theorem map_kind (h : Compiles formula left) :
    left.auxiliaries.map (·.kind) = formula.auxiliaryKinds := by
  induction h with
  | terminal => rfl
  | grouped _ ih => rw [Predicate.auxiliaries_parenthesized, ih]; rfl
  | unary _ hresult ih =>
      cases hresult <;>
        simp [Predicate.auxiliaries, Predicate.truth, ih, Formula.auxiliaryKinds, Formula.operators,
          UnaryOp.auxiliaryKinds]
  | binary _ _ hresult ihleft ihright =>
      cases hresult <;>
        simp [Predicate.auxiliaries, ihleft, ihright, Formula.auxiliaryKinds, Formula.operators,
          BinaryOp.auxiliaryKinds]

theorem kinds_eq (hleft : Compiles formula left) (hright : Compiles formula right) :
    left.auxiliaries.map (·.kind) = right.auxiliaries.map (·.kind) :=
  hleft.map_kind.trans hright.map_kind.symm

/-- The auxiliaries of a predicate can be told from what is issued after them. -/
theorem eq_of_auxiliaries_append_eq (hleft : Compiles formula left)
    (hright : Compiles formula right) {rest others : List Auxiliary}
    (h : left.auxiliaries ++ rest = right.auxiliaries ++ others) :
    left = right ∧ rest = others := by
  induction hleft generalizing right rest others with
  | terminal =>
      cases hright
      exact ⟨rfl, h⟩
  | grouped _ ih =>
      cases hright with
      | grouped hinner =>
          rw [Predicate.auxiliaries_parenthesized, Predicate.auxiliaries_parenthesized] at h
          obtain ⟨rfl, hrest⟩ := ih hinner h
          exact ⟨rfl, hrest⟩
  | unary _ hresult ih =>
      cases hright with
      | unary hoperand hother =>
          -- the auxiliaries of the operand come first, and then those of the operator
          cases hresult <;> cases hother <;>
            · simp only [Predicate.auxiliaries, Predicate.truth, List.nil_append,
                List.append_assoc] at h
              obtain ⟨rfl, hrest⟩ := ih hoperand h
              simp_all
  | binary _ _ hresult ihleft ihright =>
      cases hright with
      | binary hfirst hsecond hother =>
          cases hresult <;> cases hother <;>
            · simp only [Predicate.auxiliaries, List.append_assoc] at h
              obtain ⟨rfl, hright⟩ := ihleft hfirst h
              obtain ⟨rfl, hrest⟩ := ihright hsecond hright
              simp_all

theorem eq_of_auxiliaries_eq (hleft : Compiles formula left) (hright : Compiles formula right)
    (h : left.auxiliaries = right.auxiliaries) : left = right :=
  (hleft.eq_of_auxiliaries_append_eq hright (congrArg (· ++ []) h)).1

end Compiles

/-! ## Names -/

/-- The names of the auxiliaries of a predicate, in their order. -/
def Predicate.names (predicate : Predicate) : List String := predicate.auxiliaries.map (·.name)

theorem Auxiliary.eq_of_map_eq {first second : List Auxiliary}
    (hkinds : first.map (·.kind) = second.map (·.kind))
    (hnames : first.map (·.name) = second.map (·.name)) : first = second := by
  induction first generalizing second with
  | nil => exact (List.map_eq_nil_iff.mp hkinds.symm).symm
  | cons auxiliary rest ih =>
      cases second with
      | nil => cases hkinds
      | cons other others =>
          obtain ⟨hkind, hkinds⟩ := List.cons.inj hkinds
          obtain ⟨hname, hnames⟩ := List.cons.inj hnames
          rw [ih hkinds hnames]
          cases auxiliary
          cases other
          simp_all

section

variable {formula : Formula} {left right : Predicate}

theorem Compiles.length_names_eq (hleft : Compiles formula left) (hright : Compiles formula right) :
    left.names.length = right.names.length := by
  have hlengths := congrArg List.length (hleft.kinds_eq hright)
  simpa [Predicate.names] using hlengths

theorem Compiles.eq_of_names_eq (hleft : Compiles formula left) (hright : Compiles formula right)
    (h : left.names = right.names) : left = right :=
  hleft.eq_of_auxiliaries_eq hright (Auxiliary.eq_of_map_eq (hleft.kinds_eq hright) h)

end

/-! ## Recorded calls -/

section

variable {σ : Type} [NameSource σ]

/-- What is issued from a source depends on the kinds of the auxiliaries only. -/
theorem Issued.unique {first second : List Auxiliary} {source later otherLater : σ}
    (hfirst : Issued first source later) (hsecond : Issued second source otherLater)
    (hkinds : first.map (·.kind) = second.map (·.kind)) : first = second ∧ later = otherLater := by
  induction hfirst generalizing second with
  | nil =>
      cases List.map_eq_nil_iff.mp hkinds.symm
      cases hsecond
      exact ⟨rfl, rfl⟩
  | @cons auxiliary rest _ _ _ hfresh _ ih =>
      cases hsecond with
      | nil => cases hkinds
      | @cons other others _ _ _ hother hothers =>
          obtain ⟨hkind, hrest⟩ := List.cons.inj hkinds
          change auxiliary.kind = other.kind at hkind
          rw [hkind, hother] at hfresh
          obtain ⟨hname, rfl⟩ := Prod.mk.inj hfresh
          obtain ⟨rfl, rfl⟩ := ih hothers hrest
          cases auxiliary
          cases other
          simp_all

/-- A source of names together with the names that were issued from it, in the order of the
calls. -/
structure Recorded (σ : Type) where
  names : σ
  issued : List String := []

instance : NameSource (Recorded σ) where
  fresh tag recorded :=
    let (name, names) := NameSource.fresh tag recorded.names
    (name, ⟨names, recorded.issued ++ [name]⟩)
  reserve name recorded := { recorded with names := NameSource.reserve name recorded.names }

namespace Recorded

theorem reserveAll_eq (names : List String) (recorded : Recorded σ) :
    NameSource.reserveAll names recorded =
      ⟨NameSource.reserveAll names recorded.names, recorded.issued⟩ := by
  induction names generalizing recorded with
  | nil => rfl
  | cons name rest ih => exact ih _

/-- Recording changes nothing about what is issued. -/
theorem of_issued {auxiliaries : List Auxiliary} {recorded later : Recorded σ}
    (h : Issued auxiliaries recorded later) :
    Issued auxiliaries recorded.names later.names ∧
      later.issued = recorded.issued ++ auxiliaries.map (·.name) := by
  induction h with
  | nil => exact ⟨.nil _, by simp⟩
  | cons hfresh _ ih =>
      obtain ⟨hissued, hnames⟩ := ih
      obtain ⟨hname, rfl⟩ := Prod.mk.inj hfresh
      refine ⟨.cons (Prod.ext hname rfl) hissued, ?_⟩
      rw [hnames, hname]
      simp

end Recorded

/-- The same predicate is built from a source and from the source with its recorded calls, and what
was recorded are its names. -/
theorem run_parsePredicate_recorded {text : String} {formula : Formula}
    (h : Formula.parse text = .ok formula) (source : σ) :
    ∃ predicate later, (parsePredicate text).run source = (.ok predicate, later) ∧
      (parsePredicate text).run (Recorded.mk source []) =
        (.ok predicate, ⟨later, predicate.names⟩) ∧ Compiles formula predicate := by
  obtain ⟨predicate, later, hrun, hcompiles, hissued⟩ := run_parsePredicate h source
  obtain ⟨other, last, hother, hotherCompiles, hotherIssued⟩ :=
    run_parsePredicate h (Recorded.mk source [])
  rw [Recorded.reserveAll_eq] at hotherIssued
  obtain ⟨hissued', hnames⟩ := Recorded.of_issued hotherIssued
  obtain ⟨hauxiliaries, rfl⟩ := hissued.unique hissued' (hcompiles.kinds_eq hotherCompiles)
  obtain rfl := hcompiles.eq_of_auxiliaries_eq hotherCompiles hauxiliaries
  refine ⟨predicate, _, hrun, ?_, hcompiles⟩
  rw [hother]
  cases last
  simp only [List.nil_append] at hnames
  rw [hnames, Predicate.names]

end

/-! ## Given names -/

/-- Names that were chosen beforehand, to be issued in their order whatever is asked for. -/
structure GivenNames where
  names : List String

instance : NameSource GivenNames where
  fresh _ given := (given.names.headD "", ⟨given.names.tail⟩)
  reserve _ given := given

theorem GivenNames.names_of_issued {auxiliaries : List Auxiliary} {given later : GivenNames}
    (h : Issued auxiliaries given later)
    (hlength : given.names.length = (auxiliaries.map (·.name)).length) :
    auxiliaries.map (·.name) = given.names := by
  induction h with
  | nil => exact (List.length_eq_zero_iff.mp hlength).symm
  | @cons auxiliary rest source _ _ hfresh _ ih =>
      cases source with
      | mk names =>
          cases names with
          | nil => cases hlength
          | cons name others =>
              cases hfresh
              have hrest := ih (Nat.succ.inj hlength)
              simpa using hrest

/-- The predicate of a formula when its auxiliaries get the given names, in their order. -/
def Formula.predicateWith (names : List String) (formula : Formula) :
    Except BuildError Predicate :=
  ((do Build.normalize (← formula.lower) : Build GivenNames Predicate).run ⟨names⟩).1

theorem Compiles.predicateWith_names {text : String} {formula : Formula} {predicate : Predicate}
    (hparse : Formula.parse text = .ok formula) (h : Compiles formula predicate) :
    formula.predicateWith predicate.names = .ok predicate := by
  obtain ⟨value, other, later, hrun, hvalue, -, hother, hissued⟩ :=
    Formula.run_lower (Formula.solid_of_parse hparse) (GivenNames.mk predicate.names)
  have hnames : other.names = predicate.names :=
    GivenNames.names_of_issued hissued (h.length_names_eq hother)
  rw [Formula.predicateWith, run_bind_of_ok hrun, Build.run_normalize hvalue,
    hother.eq_of_names_eq h hnames]

/-! ## Shapes -/

namespace Predicate

/-- The predicate with all its auxiliaries nameless: its operators and terms, in their places. -/
def shape (predicate : Predicate) : Predicate := predicate.mapNames fun _ => ""

variable (rename : String → String) (predicate : Predicate)

theorem display_mapNames : (predicate.mapNames rename).display = predicate.display := by
  induction predicate with
  | term => rfl
  | not _ ih => simp only [mapNames, display, ih]
  | previously _ _ ih => simp only [mapNames, display, ih]
  | connective _ _ _ ihleft ihright => simp only [mapNames, display, ihleft, ihright]
  | since _ _ _ _ ihleft ihright => simp only [mapNames, display, ihleft, ihright]

theorem freeVariables_mapNames :
    (predicate.mapNames rename).freeVariables = predicate.freeVariables := by
  induction predicate with
  | term => rfl
  | not _ ih => exact ih
  | previously _ _ ih => exact ih
  | connective _ _ _ ihleft ihright => simp only [mapNames, freeVariables, ihleft, ihright]
  | since _ _ _ _ ihleft ihright => simp only [mapNames, freeVariables, ihleft, ihright]

theorem mapNames_parenthesized :
    predicate.parenthesized.mapNames rename = (predicate.mapNames rename).parenthesized := by
  cases predicate <;> rfl

theorem auxiliaries_mapNames :
    (predicate.mapNames rename).auxiliaries =
      predicate.auxiliaries.map fun auxiliary => ⟨rename auxiliary.name, auxiliary.kind⟩ := by
  induction predicate with
  | term => rfl
  | not _ ih => exact ih
  | previously _ _ ih => simp [mapNames, auxiliaries, ih]
  | connective _ _ _ ihleft ihright => simp [mapNames, auxiliaries, ihleft, ihright]
  | since _ _ _ _ ihleft ihright => simp [mapNames, auxiliaries, ihleft, ihright]

theorem names_mapNames : (predicate.mapNames rename).names = predicate.names.map rename := by
  simp [names, auxiliaries_mapNames]

end Predicate

theorem Compiles.mapNames {formula : Formula} {predicate : Predicate}
    (h : Compiles formula predicate) (rename : String → String) :
    Compiles formula (predicate.mapNames rename) := by
  induction h with
  | terminal tokens => exact .terminal tokens
  | grouped _ ih =>
      rw [Predicate.mapNames_parenthesized]
      exact .grouped ih
  | unary _ hresult ih =>
      refine .unary ih ?_
      cases hresult <;> constructor
  | binary _ _ hresult ihleft ihright =>
      refine .binary ihleft ihright ?_
      cases hresult <;> constructor

theorem Compiles.shape_eq {formula : Formula} {left right : Predicate}
    (hleft : Compiles formula left) (hright : Compiles formula right) :
    left.shape = right.shape := by
  unfold Predicate.shape
  refine (hleft.mapNames _).eq_of_names_eq (hright.mapNames _) ?_
  rw [Predicate.names_mapNames, Predicate.names_mapNames, List.map_const', List.map_const',
    hleft.length_names_eq hright]

/-! ## Expressions -/

/-- A text with numbered places for names. -/
abbrev Template := List (String ⊕ Nat)

/-- The text with the names in their places. -/
def Template.fill (names : List String) : Template → String
  | [] => ""
  | .inl text :: rest => text ++ fill names rest
  | .inr place :: rest => names.getD place "" ++ fill names rest

theorem Template.fill_append (names : List String) (front back : Template) :
    fill names (front ++ back) = fill names front ++ fill names back := by
  induction front with
  | nil => simp [fill]
  | cons part rest ih => cases part <;> simp [fill, ih, String.append_assoc]

namespace Predicate

/-- The expression of a predicate with places for its names, which are numbered in the order of the
auxiliaries from `first` on. -/
def template (first : Nat) : Predicate → Template
  | term t => [.inl t.expression]
  | not operand => .inl "!(" :: operand.template first ++ [.inl ")"]
  | connective c left right =>
    .inl "(" :: left.template first ++ .inl ")" :: .inl c.symbol :: .inl "(" ::
      right.template (first + left.auxiliaries.length) ++ [.inl ")"]
  | previously operand _ => [.inr (first + operand.auxiliaries.length)]
  | since left right _ _ =>
    let hold := first + (left.auxiliaries.length + right.auxiliaries.length)
    [.inl "(", .inr hold, .inl "&&", .inr (hold + 1), .inl ")"]

theorem template_mapNames (rename : String → String) (predicate : Predicate) (first : Nat) :
    (predicate.mapNames rename).template first = predicate.template first := by
  induction predicate generalizing first with
  | term => rfl
  | not _ ih => simp only [mapNames, template, ih]
  | connective _ _ _ ihleft ihright =>
      simp only [mapNames, template, ihleft, ihright, auxiliaries_mapNames, List.length_map]
  | previously => simp only [mapNames, template, auxiliaries_mapNames, List.length_map]
  | since => simp only [mapNames, template, auxiliaries_mapNames, List.length_map]

/-- The names may stand among others, as they do in a larger predicate. -/
theorem fill_template_among (predicate : Predicate) (before after : List String) :
    Template.fill (before ++ predicate.names ++ after) (predicate.template before.length) =
      predicate.expression := by
  induction predicate generalizing before after with
  | term => simp [template, Template.fill, expression]
  | not operand ih =>
      rw [template, Template.fill_append, Template.fill, expression, ← ih before after]
      simp [Template.fill, names, auxiliaries]
  | connective c left right ihleft ihright =>
      have hleft := ihleft before (right.names ++ after)
      have hright := ihright (before ++ left.names) after
      simp only [names, auxiliaries, List.map_append, List.append_assoc, List.length_append,
        List.length_map] at hleft hright ⊢
      simp [template, Template.fill, Template.fill_append, expression, hleft, hright,
        String.append_assoc]
  | previously operand name =>
      simp [template, Template.fill, expression, names, auxiliaries]
  | since left right hold trail =>
      have hbefore : before.length + (left.auxiliaries.length + right.auxiliaries.length) =
          (before ++ (left.names ++ right.names)).length := by
        simp [names]
      have hnames : before ++ (since left right hold trail).names ++ after =
          (before ++ (left.names ++ right.names)) ++ hold :: trail :: after := by
        simp [names, auxiliaries]
      rw [template, hbefore, hnames]
      generalize before ++ (left.names ++ right.names) = front
      simp [Template.fill, expression, String.append_assoc]

theorem fill_template (predicate : Predicate) :
    Template.fill predicate.names (predicate.template 0) = predicate.expression := by
  simpa using predicate.fill_template_among [] []

/-- The predicates differ in the names of their auxiliaries only. They have the same operators and
terms in the same places, and where one expression has the name of an auxiliary, the other has the
name of the auxiliary with the same number. -/
structure SameButNames (left right : Predicate) : Prop where
  shape : left.shape = right.shape
  display : left.display = right.display
  freeVariables : left.freeVariables = right.freeVariables
  kinds : left.auxiliaries.map (·.kind) = right.auxiliaries.map (·.kind)
  expression : left.expression = Template.fill left.names (left.template 0)
  other : right.expression = Template.fill right.names (left.template 0)

end Predicate

theorem Compiles.sameButNames {formula : Formula} {left right : Predicate}
    (hleft : Compiles formula left) (hright : Compiles formula right) :
    left.SameButNames right := by
  have hshape := hleft.shape_eq hright
  have hdisplay := congrArg Predicate.display hshape
  have hvariables := congrArg Predicate.freeVariables hshape
  have htemplate := congrArg (Predicate.template 0) hshape
  unfold Predicate.shape at hdisplay hvariables htemplate
  rw [Predicate.display_mapNames, Predicate.display_mapNames] at hdisplay
  rw [Predicate.freeVariables_mapNames, Predicate.freeVariables_mapNames] at hvariables
  rw [Predicate.template_mapNames, Predicate.template_mapNames] at htemplate
  exact {
    shape := hshape
    display := hdisplay
    freeVariables := hvariables
    kinds := hleft.kinds_eq hright
    expression := left.fill_template.symm
    other := by rw [htemplate, right.fill_template] }

/-! ## Compilations -/

/-- What auxiliaries a compilation has, from whatever source of names. Their names are those that
the calls to the source returned, in the order of the calls. Their kinds are listed in post-order by
the formula of the text, one for `previously` and two for each of `since`, `once` and `always`. The
predicate is determined by the formula and the names, and from two sources the predicates differ in
the names only. -/
theorem auxiliaries_eq_issued {text : String} {formula : Formula}
    (h : Formula.parse text = .ok formula) :
    (∀ {σ : Type} [NameSource σ] (source : σ), ∃ compilation later,
      (compile text).run source = (.ok compilation, later) ∧
      (compile text).run (Recorded.mk source []) =
        (.ok compilation, ⟨later, compilation.auxiliaries.map (·.name)⟩) ∧
      compilation.auxiliaries.map (·.kind) = formula.auxiliaryKinds ∧
      formula.predicateWith (compilation.auxiliaries.map (·.name)) = .ok compilation.predicate) ∧
    formula.auxiliaryKinds.length = formula.occurrences (.inl .previously) +
      2 * (formula.occurrences (.inr .since) + formula.occurrences (.inl .once) +
        formula.occurrences (.inl .always)) ∧
    ∀ {σ τ : Type} [NameSource σ] [NameSource τ] (source : σ) (other : τ) {first second later last},
      (compile text).run source = (.ok first, later) →
      (compile text).run other = (.ok second, last) →
      first.predicate.SameButNames second.predicate := by
  refine ⟨fun {σ} _ source => ?_, formula.length_auxiliaryKinds, ?_⟩
  · obtain ⟨predicate, later, hrun, hrecorded, hcompiles⟩ := run_parsePredicate_recorded h source
    exact ⟨⟨text, predicate⟩, later, run_bind_of_ok hrun _, run_bind_of_ok hrecorded _,
      hcompiles.map_kind, hcompiles.predicateWith_names h⟩
  · intro σ τ _ _ source other first second later last hfirst hsecond
    obtain ⟨predicate, _, hrun, hcompiles, -⟩ := run_parsePredicate h source
    obtain ⟨predicate', _, hrun', hcompiles', -⟩ := run_parsePredicate h other
    have hfirst' : (compile text).run source = (.ok ⟨text, predicate⟩, _) := run_bind_of_ok hrun _
    have hsecond' : (compile text).run other = (.ok ⟨text, predicate'⟩, _) := run_bind_of_ok hrun' _
    rw [hfirst'] at hfirst
    rw [hsecond'] at hsecond
    cases hfirst
    cases hsecond
    exact hcompiles.sameButNames hcompiles'

set_option maxRecDepth 20000 in
theorem auxiliaries_eq_issued_nested :
    let formula : Formula := .unary .always (.binary .implies (.terminal [.word "a"])
      (.binary .since (.terminal [.word "b"]) (.unary .previously (.terminal [.word "c"]))))
    Formula.parse "always(a -> since(b, previously(c)))" = .ok formula ∧
    formula.auxiliaryKinds = [.previously, .sinceHold, .sinceTrail, .sinceHold, .sinceTrail] ∧
    ∃ compilation later last,
      (compile "always(a -> since(b, previously(c)))").run
          (Recorded.mk (SequentialNames.new "T") []) =
        (.ok compilation, ⟨later, compilation.auxiliaries.map (·.name)⟩) ∧
      formula.predicateWith (compilation.auxiliaries.map (·.name)) = .ok compilation.predicate ∧
      ∃ other, (compile "always(a -> since(b, previously(c)))").run
          (GivenNames.mk ["p", "q", "r", "s", "t"]) = (.ok other, last) ∧
        compilation.predicate.SameButNames other.predicate := by
  intro formula
  have hparse : Formula.parse "always(a -> since(b, previously(c)))" = .ok formula := by
    decide +kernel
  obtain ⟨hcompile, -, hsame⟩ := auxiliaries_eq_issued hparse
  obtain ⟨compilation, later, hrun, hrecorded, -, hpredicate⟩ := hcompile (SequentialNames.new "T")
  obtain ⟨other, last, hother, -⟩ := hcompile (GivenNames.mk ["p", "q", "r", "s", "t"])
  exact ⟨hparse, rfl, compilation, later, last, hrecorded, hpredicate, other, hother,
    hsame _ _ hrun hother⟩

end PastTime

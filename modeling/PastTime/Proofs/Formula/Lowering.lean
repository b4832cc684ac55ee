import PastTime.Compilation
import PastTime.Proofs.Formula.Terminals
import PastTime.Proofs.Names.Freshness

/-!
# What formulas are lowered to

`Compiles` relates a formula to the predicates that it may become, which differ in the names of
their auxiliaries only. Lowering the formula of an accepted text never fails; it gives a predicate
that the relation allows, and the auxiliaries of the predicate are exactly the names that were
issued, in their order.
-/

namespace PastTime

/-- The term that always holds. -/
def Predicate.truth : Predicate := .term ⟨Text.trueLiteral⟩

/-- What an operator of formulas makes of a predicate. -/
inductive UnaryOp.Expands (operand : Predicate) : UnaryOp → Predicate → Prop where
  | not : Expands operand .not (.not operand)
  | previously (name : String) : Expands operand .previously (.previously operand name)
  | once (hold trail : String) : Expands operand .once (.since .truth operand hold trail)
  | always (hold trail : String) :
      Expands operand .always (.not (.since .truth (.not operand) hold trail))

/-- What an operator of formulas makes of two predicates. -/
inductive BinaryOp.Expands (left right : Predicate) : BinaryOp → Predicate → Prop where
  | implies : Expands left right .implies (.connective .or (.not left) right)
  | connective (c : Connective) : Expands left right (.connective c) (.connective c left right)
  | since (hold trail : String) : Expands left right .since (.since left right hold trail)

/-- The formula becomes the predicate, under some names of the auxiliaries. -/
inductive Compiles : Formula → Predicate → Prop where
  | terminal (tokens : List Token) : Compiles (.terminal tokens) (.term ⟨Token.textAll tokens⟩)
  | grouped {inner : Formula} {predicate : Predicate} (hinner : Compiles inner predicate) :
      Compiles (.grouped inner) predicate.parenthesized
  | unary {op : UnaryOp} {operand : Formula} {predicate result : Predicate}
      (hoperand : Compiles operand predicate) (hresult : op.Expands predicate result) :
      Compiles (.unary op operand) result
  | binary {op : BinaryOp} {left right : Formula} {first second result : Predicate}
      (hleft : Compiles left first) (hright : Compiles right second)
      (hresult : op.Expands first second result) : Compiles (.binary op left right) result

theorem Predicate.auxiliaries_parenthesized (predicate : Predicate) :
    predicate.parenthesized.auxiliaries = predicate.auxiliaries := by
  cases predicate <;> rfl

theorem UnaryOp.Expands.parenthesized_eq {op : UnaryOp} {operand result : Predicate}
    (h : op.Expands operand result) : result.parenthesized = result := by
  cases h <;> rfl

theorem BinaryOp.Expands.parenthesized_eq {op : BinaryOp} {left right result : Predicate}
    (h : op.Expands left right result) : result.parenthesized = result := by
  cases h <;> rfl

/-! ## Running a computation that issues names -/

section Run

variable {ε σ α β : Type} {action : ExceptT ε (StateM σ) α} {source later : σ}

theorem run_bind_of_ok {value : α} (h : action.run source = (.ok value, later))
    (next : α → ExceptT ε (StateM σ) β) :
    (action >>= next).run source = (next value).run later := by
  change ExceptT.bindCont next (action.run source).1 (action.run source).2 = _
  rw [h]
  rfl

theorem run_bind_of_error {error : ε} (h : action.run source = (.error error, later))
    (next : α → ExceptT ε (StateM σ) β) : (action >>= next).run source = (.error error, later) := by
  change ExceptT.bindCont next (action.run source).1 (action.run source).2 = _
  rw [h]
  rfl

end Run

variable {σ : Type}

theorem Build.run_normalize {value : Value} {predicate : Predicate}
    (h : value.normalize = .ok predicate) (source : σ) :
    (normalize value).run source = (.ok predicate, source) := by
  rw [normalize, h]
  rfl

theorem Value.normalize_truth : (literal Text.trueLiteral).normalize = .ok .truth := by
  have hsolid : Text.Solid Text.trueLiteral := ⟨by decide, by decide⟩
  rw [normalize, toTerm, flatten]
  change (Term.ofText Text.trueLiteral).map _ = _
  rw [Term.ofText_of_solid hsolid]
  rfl

theorem Serve.run_build {α : Type} {action : Build σ α} {value : α} {source later : σ}
    (h : action.run source = (.ok value, later)) :
    (Serve.build action).run source = (.ok value, later) := by
  change ((action.run source).1.mapError CompileError.build, (action.run source).2) = _
  rw [h]
  rfl

variable [NameSource σ]

theorem Build.run_fresh {kind : AuxiliaryKind} {name : String} {source next : σ}
    (h : NameSource.fresh kind.tag source = (name, next)) :
    (fresh kind).run source = (.ok name, next) := by
  change (Except.ok (NameSource.fresh kind.tag source).1, (NameSource.fresh kind.tag source).2) = _
  rw [h]

namespace Predicate

variable {value other : Value} {operand left right : Predicate}

theorem run_apply_not (h : value.normalize = .ok operand) (source : σ) :
    (apply .not [value]).run source = (.ok (.not operand), source) :=
  run_bind_of_ok (Build.run_normalize h source) _

theorem run_apply_connective (hleft : value.normalize = .ok left)
    (hright : other.normalize = .ok right) (c : Connective) (source : σ) :
    (apply (.connective c) [value, other]).run source =
      (.ok (.connective c left right), source) := by
  apply (run_bind_of_ok (Build.run_normalize hleft source) _).trans
  exact run_bind_of_ok (Build.run_normalize hright source) _

theorem run_apply_previously (h : value.normalize = .ok operand) (source : σ) :
    ∃ name later, (apply .previously [value]).run source = (.ok (.previously operand name), later) ∧
      Issued [⟨name, .previously⟩] source later :=
  ⟨_, _, run_bind_of_ok (Build.run_normalize h source) _, .cons rfl (.nil _)⟩

theorem run_apply_since (hleft : value.normalize = .ok left)
    (hright : other.normalize = .ok right) (source : σ) :
    ∃ hold trail later,
      (apply .since [value, other]).run source = (.ok (.since left right hold trail), later) ∧
      Issued [⟨hold, .sinceHold⟩, ⟨trail, .sinceTrail⟩] source later := by
  obtain ⟨hold, middle, hhold⟩ : ∃ hold middle,
      NameSource.fresh AuxiliaryKind.sinceHold.tag source = (hold, middle) := ⟨_, _, rfl⟩
  obtain ⟨trail, later, htrail⟩ : ∃ trail later,
      NameSource.fresh AuxiliaryKind.sinceTrail.tag middle = (trail, later) := ⟨_, _, rfl⟩
  refine ⟨hold, trail, later, ?_, .cons hhold (.cons htrail (.nil later))⟩
  apply (run_bind_of_ok (Build.run_normalize hleft source) _).trans
  apply (run_bind_of_ok (Build.run_normalize hright source) _).trans
  apply (run_bind_of_ok (Build.run_fresh hhold) _).trans
  exact run_bind_of_ok (Build.run_fresh htrail) _

end Predicate

/-- Applying an operator to a value succeeds, and issues the names of the operator only. -/
theorem UnaryOp.run_apply {value : Value} {operand : Predicate} (h : value.normalize = .ok operand)
    (op : UnaryOp) (source : σ) :
    ∃ result own later, (op.apply value).run source = (.ok result, later) ∧
      op.Expands operand result ∧ result.auxiliaries = operand.auxiliaries ++ own ∧
      Issued own source later := by
  cases op with
  | not =>
      refine ⟨_, [], source, Predicate.run_apply_not h source, .not, ?_, .nil source⟩
      simp [Predicate.auxiliaries]
  | previously =>
      obtain ⟨name, later, hrun, hissued⟩ := Predicate.run_apply_previously h source
      exact ⟨_, _, later, hrun, .previously name, rfl, hissued⟩
  | once =>
      obtain ⟨hold, trail, later, hrun, hissued⟩ :=
        Predicate.run_apply_since Value.normalize_truth h source
      exact ⟨_, _, later, hrun, .once hold trail, rfl, hissued⟩
  | always =>
      obtain ⟨hold, trail, later, hsince, hissued⟩ :=
        Predicate.run_apply_since Value.normalize_truth
          (rfl : (Value.predicate (.not operand)).normalize = _) source
      refine ⟨_, _, later, ?_, .always hold trail, rfl, hissued⟩
      apply (run_bind_of_ok (Predicate.run_apply_not h source) _).trans
      apply (run_bind_of_ok hsince _).trans
      exact Predicate.run_apply_not rfl later

theorem BinaryOp.run_apply {value other : Value} {left right : Predicate}
    (hleft : value.normalize = .ok left) (hright : other.normalize = .ok right) (op : BinaryOp)
    (source : σ) :
    ∃ result own later, (op.apply value other).run source = (.ok result, later) ∧
      op.Expands left right result ∧
      result.auxiliaries = left.auxiliaries ++ right.auxiliaries ++ own ∧
      Issued own source later := by
  cases op with
  | implies =>
      refine ⟨_, [], source, ?_, .implies, ?_, .nil source⟩
      · apply (run_bind_of_ok (Predicate.run_apply_not hleft source) _).trans
        exact Predicate.run_apply_connective rfl hright .or source
      · simp [Predicate.auxiliaries]
  | connective c =>
      refine ⟨_, [], source, Predicate.run_apply_connective hleft hright c source, .connective c,
        ?_, .nil source⟩
      simp [Predicate.auxiliaries]
  | since =>
      obtain ⟨hold, trail, later, hrun, hissued⟩ := Predicate.run_apply_since hleft hright source
      exact ⟨_, _, later, hrun, .since hold trail, rfl, hissued⟩

/-- Lowering succeeds on terminals that are terms. The value is normalized to a predicate of the
formula, also in a further pair of parentheses, and its auxiliaries were issued in their order. -/
theorem Formula.run_lower {formula : Formula}
    (hsolid : ∀ tokens ∈ formula.terminals, Text.Solid (Token.textAll tokens)) (source : σ) :
    ∃ value predicate later, formula.lower.run source = (.ok value, later) ∧
      value.normalize = .ok predicate ∧
      (Value.grouped value).normalize = .ok predicate.parenthesized ∧
      Compiles formula predicate ∧ Issued predicate.auxiliaries source later := by
  induction formula generalizing source with
  | terminal tokens =>
      have hterm : (Value.sequence (Token.toValues tokens)).normalize =
          .ok (.term ⟨Token.textAll tokens⟩) := by
        rw [Value.normalize, Value.toTerm, Value.flatten, Token.flattenAll_toValues]
        change (Term.ofText (Token.textAll tokens)).map _ = _
        rw [Term.ofText_of_solid (hsolid tokens List.mem_cons_self)]
        rfl
      refine ⟨_, _, source, rfl, hterm, ?_, .terminal tokens, .nil source⟩
      rw [Value.normalize, hterm]
      · rfl
      · simp
  | grouped inner ih =>
      obtain ⟨value, predicate, later, hrun, -, hgrouped, hcompiles, hissued⟩ := ih hsolid source
      -- in the definition of normalization, two pairs of parentheses peel off one at a time
      refine ⟨.grouped value, _, later, run_bind_of_ok hrun _, hgrouped, ?_, .grouped hcompiles, ?_⟩
      · rw [Value.normalize, hgrouped]
        · rfl
        · simp
      · rwa [Predicate.auxiliaries_parenthesized]
  | unary op operand ih =>
      obtain ⟨value, predicate, middle, hrun, hvalue, -, hcompiles, hissued⟩ := ih hsolid source
      obtain ⟨result, own, later, happly, hexpands, hauxiliaries, hown⟩ :=
        op.run_apply hvalue middle
      refine ⟨.predicate result, result, later, ?_, rfl, ?_, .unary hcompiles hexpands, ?_⟩
      · exact (run_bind_of_ok hrun _).trans (run_bind_of_ok happly _)
      · rw [hexpands.parenthesized_eq]
        rfl
      · rw [hauxiliaries]
        exact hissued.append hown
  | binary op left right ihleft ihright =>
      obtain ⟨value, first, middle, hleftRun, hleft, -, hleftCompiles, hleftIssued⟩ :=
        ihleft (fun tokens htokens => hsolid tokens (List.mem_append_left _ htokens)) source
      obtain ⟨other, second, next, hrightRun, hright, -, hrightCompiles, hrightIssued⟩ :=
        ihright (fun tokens htokens => hsolid tokens (List.mem_append_right _ htokens)) middle
      obtain ⟨result, own, later, happly, hexpands, hauxiliaries, hown⟩ :=
        op.run_apply hleft hright next
      refine ⟨.predicate result, result, later, ?_, rfl, ?_,
        .binary hleftCompiles hrightCompiles hexpands, ?_⟩
      · apply (run_bind_of_ok hleftRun _).trans
        exact (run_bind_of_ok hrightRun _).trans (run_bind_of_ok happly _)
      · rw [hexpands.parenthesized_eq]
        rfl
      · rw [hauxiliaries]
        exact (hleftIssued.append hrightIssued).append hown

/-! ## Compilation -/

/-- The predicate of an accepted text is that of its formula, lowered after the identifiers of the
text were reserved. -/
theorem run_parsePredicate_of_lower {text : String} {formula : Formula}
    (h : Formula.parse text = .ok formula) {source later : σ} {value : Value}
    {predicate : Predicate}
    (hrun : formula.lower.run (NameSource.reserveAll (Text.identifiers text) source) =
      (.ok value, later)) (hvalue : value.normalize = .ok predicate) :
    (parsePredicate text).run source = (.ok predicate, later) := by
  have hparse : (Serve.parse text : Serve σ Formula).run source = (.ok formula, source) := by
    rw [Serve.parse, h]
    rfl
  apply (run_bind_of_ok hparse _).trans
  apply (run_bind_of_ok rfl _).trans
  exact Serve.run_build ((run_bind_of_ok hrun _).trans (Build.run_normalize hvalue later))

/-- An accepted text is compiled, with names that are issued after its identifiers were
reserved. -/
theorem run_parsePredicate {text : String} {formula : Formula}
    (h : Formula.parse text = .ok formula) (source : σ) :
    ∃ predicate later, (parsePredicate text).run source = (.ok predicate, later) ∧
      Compiles formula predicate ∧
      Issued predicate.auxiliaries (NameSource.reserveAll (Text.identifiers text) source)
        later := by
  obtain ⟨value, predicate, later, hrun, hvalue, -, hcompiles, hissued⟩ :=
    Formula.run_lower (Formula.solid_of_parse h)
      (NameSource.reserveAll (Text.identifiers text) source)
  exact ⟨predicate, later, run_parsePredicate_of_lower h hrun hvalue, hcompiles, hissued⟩

/-- A rejected text leaves the names as they are. -/
theorem run_parsePredicate_of_error {text : String} {error : GrammarError}
    (h : Formula.parse text = .error error) (source : σ) :
    (parsePredicate text).run source = (.error (.grammar error), source) := by
  refine run_bind_of_error ?_ _
  rw [Serve.parse, h]
  rfl

/-- A text with a predicate was read as a formula of which the predicate is one, and the auxiliaries
of the predicate were issued after the identifiers of the text were reserved. -/
theorem issued_of_run_parsePredicate {text : String} {predicate : Predicate} {source later : σ}
    (h : (parsePredicate text).run source = (.ok predicate, later)) :
    ∃ formula, Formula.parse text = .ok formula ∧ Compiles formula predicate ∧
      Issued predicate.auxiliaries (NameSource.reserveAll (Text.identifiers text) source)
        later := by
  cases hparse : Formula.parse text with
  | error error =>
      rw [run_parsePredicate_of_error hparse source] at h
      cases h
  | ok formula =>
      obtain ⟨found, _, hrun, hcompiles, hissued⟩ := run_parsePredicate hparse source
      rw [hrun] at h
      cases h
      exact ⟨formula, rfl, hcompiles, hissued⟩

end PastTime

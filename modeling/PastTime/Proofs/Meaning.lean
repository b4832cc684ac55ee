import Mathlib.Data.List.Nodup
import Mathlib.Logic.Function.Basic
import PastTime.Proofs.Formula.Lowering

/-!
# The meaning of compiled predicates

A trace gives every term a truth value at every step. A formula then has a past-time meaning, which
looks at all steps up to the current one. Its compiled expression looks at the current step only; it
reads auxiliary variables, whose contracts say how they depend on earlier steps. Under these
contracts the expression has the meaning of the formula, and the contracts can always be met,
because no two auxiliaries of a predicate have the same name.
-/

namespace PastTime

/-- The value of every term at every step. Parentheses around a term do not change its value. -/
structure Trace where
  value : String → Nat → Bool
  value_true : ∀ t, value Text.trueLiteral t = true
  value_parenthesized : ∀ text t, value ("(" ++ text ++ ")") t = value text t

/-- A trace with the given values, which are looked up without parentheses. -/
def Trace.ofValues (value : String → Nat → Bool) : Trace where
  value text t :=
    let bare := String.ofList (text.toList.filter fun c => c ≠ '(' ∧ c ≠ ')')
    bare == Text.trueLiteral || value bare t
  value_true t := by simp [Text.trueLiteral]
  value_parenthesized text t := by simp

/-- The values of the auxiliary variables, by name and step. -/
abbrev Valuation := String → Nat → Bool

/-! ## Formulas -/

/-- At step `t`, `right` held at some step up to now and `left` at every step after that one. -/
def Since (left right : Nat → Prop) (t : Nat) : Prop :=
  ∃ s ≤ t, right s ∧ ∀ u, s < u → u ≤ t → left u

/-- The operator applied to a formula that holds at the given steps. -/
def UnaryOp.Holds (operand : Nat → Prop) : UnaryOp → Nat → Prop
  | not, t => ¬ operand t
  | previously, 0 => False
  | previously, t + 1 => operand t
  | once, t => ∃ s ≤ t, operand s
  | always, t => ∀ s ≤ t, operand s

/-- The operator applied to two formulas that hold at the given steps. -/
def BinaryOp.Holds (left right : Nat → Prop) : BinaryOp → Nat → Prop
  | implies, t => left t → right t
  | connective .and, t => left t ∧ right t
  | connective .or, t => left t ∨ right t
  | connective .equal, t => left t ↔ right t
  | connective .notEqual, t => ¬ (left t ↔ right t)
  | since, t => Since left right t

/-- The formula holds at a step of a trace. -/
def Formula.Holds (trace : Trace) : Formula → Nat → Prop
  | terminal tokens => fun t => trace.value (Token.textAll tokens) t = true
  | grouped inner => inner.Holds trace
  | unary op operand => op.Holds (operand.Holds trace)
  | binary op left right => op.Holds (left.Holds trace) (right.Holds trace)

/-! ## Expressions -/

/-- A boolean expression over terms and auxiliary variables. -/
inductive Code where
  | term (text : String)
  | read (name : String)
  | not (operand : Code)
  | connective (connective : Connective) (left right : Code)
  /-- A conjunction with one pair of parentheses around it. -/
  | both (left right : Code)

/-- The connective as an operation on truth values. -/
def Connective.eval (left right : Bool) : Connective → Bool
  | and => left && right
  | or => left || right
  | equal => left == right
  | notEqual => left != right

namespace Code

/-- The text of an expression. -/
def render : Code → String
  | term text => text
  | read name => name
  | not operand => "!(" ++ operand.render ++ ")"
  | connective c left right => "(" ++ left.render ++ ")" ++ c.symbol ++ "(" ++ right.render ++ ")"
  | both left right => "(" ++ left.render ++ "&&" ++ right.render ++ ")"

/-- The value of an expression at a step. Terms have their value from the trace, variables from the
valuation. -/
def eval (trace : Trace) (valuation : Valuation) (t : Nat) : Code → Bool
  | term text => trace.value text t
  | read name => valuation name t
  | not operand => !operand.eval trace valuation t
  | connective c left right => c.eval (left.eval trace valuation t) (right.eval trace valuation t)
  | both left right => left.eval trace valuation t && right.eval trace valuation t

end Code

namespace Predicate

/-- The expression of a predicate, with its terms and variables told apart. -/
def code : Predicate → Code
  | term t => .term t.expression
  | not operand => .not operand.code
  | connective c left right => .connective c left.code right.code
  | previously _ name => .read name
  | since _ _ hold trail => .both (.read hold) (.read trail)

theorem render_code (predicate : Predicate) : predicate.code.render = predicate.expression := by
  induction predicate with
  | term t => rfl
  | not operand ih => rw [code, Code.render, ih, expression]
  | connective c left right ihleft ihright => rw [code, Code.render, ihleft, ihright, expression]
  | previously operand name => rfl
  | since left right hold trail => rfl

/-- The expression of the predicate is true at a step. -/
def Holds (trace : Trace) (valuation : Valuation) (predicate : Predicate) (t : Nat) : Prop :=
  predicate.code.eval trace valuation t = true

/-- Every auxiliary variable of the predicate keeps to its contract: that of `previously` has the
value of the operand at the step before, and those of `since` together hold when the right operand
held at some step and the left operand at every step since. -/
def Contract (trace : Trace) (valuation : Valuation) : Predicate → Prop
  | term _ => True
  | not operand => operand.Contract trace valuation
  | connective _ left right => left.Contract trace valuation ∧ right.Contract trace valuation
  | previously operand name =>
    operand.Contract trace valuation ∧ valuation name 0 = false ∧
      ∀ t, valuation name (t + 1) = operand.code.eval trace valuation t
  | since left right hold trail =>
    left.Contract trace valuation ∧ right.Contract trace valuation ∧
      ∀ t, (valuation hold t && valuation trail t) = true ↔
        Since (left.Holds trace valuation) (right.Holds trace valuation) t

end Predicate

/-! ## The expression means the formula -/

variable {trace : Trace} {valuation other : Valuation}

namespace Predicate

theorem holds_truth (t : Nat) : truth.Holds trace valuation t := trace.value_true t

theorem holds_not (operand : Predicate) (t : Nat) :
    (not operand).Holds trace valuation t ↔ ¬ operand.Holds trace valuation t := by
  simp [Holds, code, Code.eval]

theorem holds_connective (c : Connective) (left right : Predicate) (t : Nat) :
    (connective c left right).Holds trace valuation t ↔
      (BinaryOp.connective c).Holds (left.Holds trace valuation) (right.Holds trace valuation)
        t := by
  cases c <;> simp [Holds, code, Code.eval, Connective.eval, BinaryOp.Holds]

theorem holds_parenthesized (predicate : Predicate) (t : Nat) :
    predicate.parenthesized.Holds trace valuation t ↔ predicate.Holds trace valuation t := by
  cases predicate with
  | term found =>
      change trace.value ("(" ++ found.expression ++ ")") t = true ↔ _
      rw [trace.value_parenthesized]
      rfl
  | not | connective | previously | since => rfl

theorem contract_parenthesized (predicate : Predicate) :
    predicate.parenthesized.Contract trace valuation ↔ predicate.Contract trace valuation := by
  cases predicate <;> rfl

end Predicate

/-- If the left operand always holds, `since` asks for one step of the right operand. -/
theorem since_truth (right : Nat → Prop) (t : Nat) :
    Since (Predicate.truth.Holds trace valuation) right t ↔ ∃ s ≤ t, right s := by
  constructor
  · intro h
    obtain ⟨s, hs, hright, -⟩ := h
    exact ⟨s, hs, hright⟩
  · intro h
    obtain ⟨s, hs, hright⟩ := h
    exact ⟨s, hs, hright, fun u _ _ => Predicate.holds_truth u⟩

theorem UnaryOp.Expands.holds_iff {op : UnaryOp} {operand result : Predicate}
    (h : op.Expands operand result) (hcontract : result.Contract trace valuation) :
    operand.Contract trace valuation ∧ ∀ t,
      result.Holds trace valuation t ↔ op.Holds (operand.Holds trace valuation) t := by
  cases h with
  | not => exact ⟨hcontract, Predicate.holds_not operand⟩
  | previously name =>
      obtain ⟨hoperand, hzero, hsucc⟩ := hcontract
      refine ⟨hoperand, fun t => ?_⟩
      cases t with
      | zero => simp [Predicate.Holds, Predicate.code, Code.eval, UnaryOp.Holds, hzero]
      | succ t => simp [Predicate.Holds, Predicate.code, Code.eval, UnaryOp.Holds, hsucc]
  | once hold trail =>
      obtain ⟨-, hoperand, hsince⟩ := hcontract
      exact ⟨hoperand, fun t => (hsince t).trans (since_truth _ t)⟩
  | always hold trail =>
      obtain ⟨-, hoperand, hsince⟩ := hcontract
      refine ⟨hoperand, fun t => ?_⟩
      -- the expression denies that the operand failed at some step
      have hfailed : (Predicate.since .truth (.not operand) hold trail).Holds trace valuation t ↔
          ∃ s ≤ t, ¬ operand.Holds trace valuation s := by
        simp only [← Predicate.holds_not]
        exact (hsince t).trans (since_truth _ t)
      rw [Predicate.holds_not, hfailed]
      simp [UnaryOp.Holds]

theorem BinaryOp.Expands.holds_iff {op : BinaryOp} {left right result : Predicate}
    (h : op.Expands left right result) (hcontract : result.Contract trace valuation) :
    left.Contract trace valuation ∧ right.Contract trace valuation ∧ ∀ t,
      result.Holds trace valuation t ↔
        op.Holds (left.Holds trace valuation) (right.Holds trace valuation) t := by
  cases h with
  | implies =>
      refine ⟨hcontract.1, hcontract.2, fun t => ?_⟩
      rw [Predicate.holds_connective]
      change (Predicate.not left).Holds trace valuation t ∨ right.Holds trace valuation t ↔
        (left.Holds trace valuation t → right.Holds trace valuation t)
      rw [Predicate.holds_not, imp_iff_not_or]
  | connective c => exact ⟨hcontract.1, hcontract.2, Predicate.holds_connective c left right⟩
  | since hold trail => exact hcontract

/-- Under the contracts of its auxiliaries, a predicate means what its formula means. -/
theorem Compiles.holds_eq {formula : Formula} {predicate : Predicate}
    (h : Compiles formula predicate) (hcontract : predicate.Contract trace valuation) :
    predicate.Holds trace valuation = formula.Holds trace := by
  induction h with
  | terminal tokens => rfl
  | grouped hinner ih =>
      funext t
      rw [propext (Predicate.holds_parenthesized _ t),
        ih ((Predicate.contract_parenthesized _).mp hcontract)]
      rfl
  | unary hoperand hresult ih =>
      obtain ⟨hcontract, hiff⟩ := hresult.holds_iff hcontract
      funext t
      rw [propext (hiff t), ih hcontract]
      rfl
  | binary hleft hright hresult ihleft ihright =>
      obtain ⟨hleftContract, hrightContract, hiff⟩ := hresult.holds_iff hcontract
      funext t
      rw [propext (hiff t), ihleft hleftContract, ihright hrightContract]
      rfl

/-! ## The contracts can be met -/

namespace Predicate

theorem eval_congr {predicate : Predicate}
    (h : ∀ name ∈ predicate.auxiliaries.map (·.name), valuation name = other name) (t : Nat) :
    predicate.code.eval trace valuation t = predicate.code.eval trace other t := by
  induction predicate with
  | term found => rfl
  | not operand ih => rw [code, Code.eval, ih h, Code.eval]
  | connective c left right ihleft ihright =>
      simp only [auxiliaries, List.map_append, List.forall_mem_append] at h
      rw [code, Code.eval, ihleft h.1, ihright h.2, Code.eval]
  | previously operand name =>
      simp only [code, Code.eval]
      rw [h name (by simp [auxiliaries])]
  | since left right hold trail =>
      simp only [code, Code.eval]
      rw [h hold (by simp [auxiliaries]), h trail (by simp [auxiliaries])]

theorem holds_congr {predicate : Predicate}
    (h : ∀ name ∈ predicate.auxiliaries.map (·.name), valuation name = other name) :
    predicate.Holds trace valuation = predicate.Holds trace other := by
  funext t
  rw [Holds, eval_congr h, Holds]

/-- Whether a contract is met depends on the names of the predicate only. -/
theorem Contract.congr {predicate : Predicate} (hcontract : predicate.Contract trace valuation)
    (h : ∀ name ∈ predicate.auxiliaries.map (·.name), valuation name = other name) :
    predicate.Contract trace other := by
  induction predicate with
  | term found => trivial
  | not operand ih => exact ih hcontract h
  | connective c left right ihleft ihright =>
      simp only [auxiliaries, List.map_append, List.forall_mem_append] at h
      exact ⟨ihleft hcontract.1 h.1, ihright hcontract.2 h.2⟩
  | previously operand name ih =>
      simp only [auxiliaries, List.map_append, List.forall_mem_append] at h
      obtain ⟨hoperand, hzero, hsucc⟩ := hcontract
      have hname : valuation name = other name := h.2 name (by simp)
      refine ⟨ih hoperand h.1, ?_, ?_⟩
      · rwa [← hname]
      · intro t
        rw [← hname, hsucc, eval_congr h.1]
  | since left right hold trail ihleft ihright =>
      simp only [auxiliaries, List.map_append, List.forall_mem_append] at h
      obtain ⟨hleft, hright, hsince⟩ := hcontract
      refine ⟨ihleft hleft h.1.1, ihright hright h.1.2, ?_⟩
      intro t
      have hhold : valuation hold = other hold := h.2 hold (by simp)
      have htrail : valuation trail = other trail := h.2 trail (by simp)
      rw [← hhold, ← htrail, ← holds_congr h.1.1, ← holds_congr h.1.2]
      exact hsince t

/-- The values one step later, and false at the first step. -/
def delay (values : Nat → Bool) : Nat → Bool
  | 0 => false
  | t + 1 => values t

/-- Two predicates without common names can be met by one valuation. -/
theorem exists_contract_both {left right : Predicate}
    (hdisjoint : (left.auxiliaries.map (·.name)).Disjoint (right.auxiliaries.map (·.name)))
    (hleft : left.Contract trace valuation) (hright : right.Contract trace other) :
    ∃ both, left.Contract trace both ∧ right.Contract trace both := by
  refine ⟨fun name => if name ∈ left.auxiliaries.map (·.name) then valuation name else other name,
    hleft.congr ?_, hright.congr ?_⟩
  · intro name hname
    rw [if_pos hname]
  · intro name hname
    rw [if_neg fun h => hdisjoint h hname]

theorem agrees_update {names : List String} {name : String} (hname : name ∉ names)
    (values : Nat → Bool) :
    ∀ found ∈ names, valuation found = Function.update valuation name values found := by
  intro found hfound
  rw [Function.update_of_ne]
  rintro rfl
  exact hname hfound

/-- If no two auxiliaries share a name, their contracts can be met. -/
theorem exists_contract (trace : Trace) {predicate : Predicate}
    (h : (predicate.auxiliaries.map (·.name)).Nodup) :
    ∃ valuation, predicate.Contract trace valuation := by
  induction predicate with
  | term found => exact ⟨fun _ _ => false, trivial⟩
  | not operand ih => exact ih h
  | connective c left right ihleft ihright =>
      rw [auxiliaries, List.map_append, List.nodup_append'] at h
      obtain ⟨valuation, hleft⟩ := ihleft h.1
      obtain ⟨other, hright⟩ := ihright h.2.1
      exact exists_contract_both h.2.2 hleft hright
  | previously operand name ih =>
      rw [auxiliaries, List.map_append, List.nodup_append'] at h
      obtain ⟨valuation, hoperand⟩ := ih h.1
      have hagrees := @agrees_update valuation _ name fun hname => h.2.2 hname (by simp)
      refine ⟨Function.update valuation name (delay (operand.code.eval trace valuation)),
        hoperand.congr (hagrees _), ?_, ?_⟩
      · rw [Function.update_self, delay]
      · intro t
        rw [Function.update_self, delay, eval_congr (hagrees _)]
  | since left right hold trail ihleft ihright =>
      rw [auxiliaries, List.map_append, List.map_append, List.nodup_append',
        List.nodup_append'] at h
      obtain ⟨⟨hleftNodup, hrightNodup, hdisjoint⟩, hown, hfresh⟩ := h
      obtain ⟨valuation, hleft⟩ := ihleft hleftNodup
      obtain ⟨other, hright⟩ := ihright hrightNodup
      obtain ⟨both, hleft, hright⟩ := exists_contract_both hdisjoint hleft hright
      have hne : trail ≠ hold := by
        rintro rfl
        simp at hown
      -- the first variable carries the whole value and the second is always true
      classical
      let held (t : Nat) : Bool :=
        decide (Since (left.Holds trace both) (right.Holds trace both) t)
      have hagrees : ∀ found ∈ left.auxiliaries.map (·.name) ++ right.auxiliaries.map (·.name),
          both found =
            Function.update (Function.update both trail fun _ => true) hold held found := by
        intro found hfound
        rw [← agrees_update (fun hname => hfresh hname (by simp)) held found hfound]
        exact agrees_update (fun hname => hfresh hname (by simp)) _ found hfound
      obtain ⟨hleftAgrees, hrightAgrees⟩ := List.forall_mem_append.mp hagrees
      refine ⟨_, hleft.congr hleftAgrees, hright.congr hrightAgrees, fun t => ?_⟩
      rw [← holds_congr hleftAgrees, ← holds_congr hrightAgrees, Function.update_self,
        Function.update_of_ne hne, Function.update_self, Bool.and_true, decide_eq_true_eq]

end Predicate

/-- On every trace, the expression of the predicate has the value of the formula at every step,
whenever its auxiliary variables keep to their contracts, and they can keep to them. -/
def Predicate.Means (predicate : Predicate) (formula : Formula) : Prop :=
  ∀ trace : Trace,
    (∀ valuation, predicate.Contract trace valuation →
      ∀ t, predicate.code.eval trace valuation t = true ↔ formula.Holds trace t) ∧
    ∃ valuation, predicate.Contract trace valuation

/-- An accepted text is compiled, under names of either kind in any state, to an expression that
means what the formula means. -/
theorem parsePredicate_preserves_meaning {text : String} {formula : Formula}
    (h : Formula.parse text = .ok formula) (names : Names) :
    ∃ predicate later, (parsePredicate text).run names = (.ok predicate, later) ∧
      predicate.code.render = predicate.expression ∧ predicate.Means formula := by
  obtain ⟨predicate, later, hrun, hcompiles, hissued⟩ := run_parsePredicate h names
  refine ⟨predicate, later, hrun, predicate.render_code, fun trace => ⟨?_, ?_⟩⟩
  · intro valuation hcontract t
    exact iff_of_eq (congrFun (hcompiles.holds_eq hcontract) t)
  · exact Predicate.exists_contract trace hissued.nodup

set_option maxRecDepth 20000 in
theorem parsePredicate_preserves_meaning_nested :
    let trace := Trace.ofValues fun name t => name == "c" && t == 0
    ∃ formula predicate later valuation,
      Formula.parse "always(a -> since((b), previously(((c)))))" = .ok formula ∧
      (parsePredicate "always(a -> since((b), previously(((c)))))").run
        (Names.sequential (.new "T")) = (.ok predicate, later) ∧
      predicate.code.render = predicate.expression ∧ predicate.Contract trace valuation ∧
      ∀ t, predicate.code.eval trace valuation t = true ↔ formula.Holds trace t := by
  intro trace
  have h : Formula.parse "always(a -> since((b), previously(((c)))))" =
      .ok (.unary .always (.binary .implies (.terminal [.word "a"])
        (.binary .since (.grouped (.terminal [.word "b"]))
          (.unary .previously (.grouped (.grouped (.terminal [.word "c"]))))))) := by
    decide +kernel
  obtain ⟨predicate, later, hrun, hrender, hmeans⟩ :=
    parsePredicate_preserves_meaning h (.sequential (.new "T"))
  obtain ⟨hiff, valuation, hcontract⟩ := hmeans trace
  exact ⟨_, predicate, later, valuation, h, hrun, hrender, hcontract, hiff valuation hcontract⟩

end PastTime

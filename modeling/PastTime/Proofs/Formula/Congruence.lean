import PastTime.Formula.Grammar

/-!
# The grammar keeps relations

The rules of the grammar are put together from the operations of `Parsing` and from nothing else. So
a relation between two instances that every operation keeps is kept by every rule: of related
parsers a rule makes related parsers. This is proved here once, with a law for each rule. To compare
two readings of the grammar it is then enough to look at the operations.
-/

namespace PastTime

/-- The operations of the two instances take related arguments to related results. -/
structure Congruence (m n : Type → Type) [Parsing m] [Parsing n]
    (Related : ⦃α : Type⦄ → m α → n α → Prop) : Prop where
  pure {α : Type} (value : α) : Related (pure value) (pure value)
  bind {α β : Type} {parser : m α} {parser' : n α} {next : α → m β} {next' : α → n β} :
    Related parser parser' → (∀ value, Related (next value) (next' value)) →
      Related (parser >>= next) (parser' >>= next')
  mismatch {α : Type} : Related (Parsing.mismatch : m α) Parsing.mismatch
  tooDeep {α : Type} : Related (Parsing.tooDeep : m α) Parsing.tooDeep
  orElse {α : Type} {first second : m α} {first' second' : n α} :
    Related first first' → Related second second' →
      Related (first <|> second) (first' <|> second')
  next {α : Type} (meaning : Lexeme → Option α) :
    Related (Parsing.next meaning) (Parsing.next meaning)
  optional {α : Type} {parser : m α} {parser' : n α} :
    Related parser parser' → Related (Parsing.optional parser) (Parsing.optional parser')
  notFollowedBy {α : Type} {parser : m α} {parser' : n α} :
    Related parser parser' → Related (Parsing.notFollowedBy parser) (Parsing.notFollowedBy parser')
  collect {α : Type} {step : m (Option α)} {step' : n (Option α)} :
    Related step step' → Related (Parsing.collect step) (Parsing.collect step')

namespace Congruence

open PastTime.Parser PastTime.Grammar

variable {m n : Type → Type} [Parsing m] [Parsing n] {Related : ⦃α : Type⦄ → m α → n α → Prop}

section

variable {α : Type} {parser : m α} {parser' : n α}

theorem map (h : Congruence m n Related) (hparser : Related parser parser') {β : Type} (f : α → β) :
    Related (do let value ← parser; return f value) (do let value ← parser'; return f value) :=
  h.bind hparser fun value => h.pure (f value)

theorem expect (h : Congruence m n Related) (lexeme : Lexeme) :
    Related (expect lexeme) (expect lexeme) :=
  h.next _

theorem many (h : Congruence m n Related) (hparser : Related parser parser') :
    Related (many parser) (many parser') :=
  h.collect (h.optional hparser)

theorem many1 (h : Congruence m n Related) (hparser : Related parser parser') :
    Related (many1 parser) (many1 parser') :=
  h.bind hparser fun first => h.map (h.many hparser) (first :: ·)

end

/-! ## Terminals -/

section

variable {inside token piece : m Token} {inside' token' piece' : n Token}

theorem tokenOf (h : Congruence m n Related) (marks : List String)
    (hinside : Related inside inside') : Related (tokenOf marks inside) (tokenOf marks inside') :=
  h.orElse hinside (h.orElse (h.next _) (h.next _))

theorem delimited (h : Congruence m n Related) (bracket : Bracket) (htoken : Related token token') :
    Related (delimited bracket token) (delimited bracket token') :=
  h.bind (h.expect _) fun _ => h.bind (h.many htoken) fun tokens =>
    h.map (h.expect _) fun _ => Token.group bracket tokens

theorem groupOf (h : Congruence m n Related) (hinside : Related inside inside') :
    Related (groupOf inside) (groupOf inside') :=
  h.orElse (h.delimited _ (h.tokenOf _ hinside)) (h.delimited _ (h.tokenOf _ hinside))

theorem noGroup (h : Congruence m n Related) : Related (noGroup : m Token) noGroup :=
  h.bind (h.orElse (h.notFollowedBy (h.next _)) h.tooDeep) fun _ => h.mismatch

theorem terminal (h : Congruence m n Related) (hpiece : Related piece piece') :
    Related (terminal piece) (terminal piece') :=
  h.map (h.many1 hpiece) Formula.terminal

end

/-! ## Operators -/

section

variable {operand unary predicate : m Formula} {operand' unary' predicate' : n Formula}
  {group piece : m Token} {group' piece' : n Token}

theorem link (h : Congruence m n Related) (connectives : List Connective)
    (hoperand : Related operand operand') :
    Related (link connectives operand) (link connectives operand') := by
  refine h.bind (h.optional (h.next _)) fun found => ?_
  cases found with
  | none => exact h.pure none
  | some c => exact h.map hoperand fun right => some (c, right)

theorem chain (h : Congruence m n Related) (connectives : List Connective)
    (hoperand : Related operand operand') :
    Related (chain connectives operand) (chain connectives operand') :=
  h.bind hoperand fun _ => h.map (h.collect (h.link connectives hoperand)) _

theorem implication (h : Congruence m n Related) (hunary : Related unary unary')
    (hpredicate : Related predicate predicate') :
    Related (implication unary predicate) (implication unary' predicate') := by
  have hdisjunction : Related (disjunction unary) (disjunction unary') :=
    h.chain _ (h.chain _ (h.chain _ hunary))
  refine h.bind hdisjunction fun left =>
    h.bind (h.optional (h.bind (h.expect _) fun _ => hpredicate)) fun found => ?_
  cases found with
  | none => exact h.pure left
  | some right => exact h.pure (Formula.binary .implies left right)

theorem negation (h : Congruence m n Related) (hunary : Related unary unary') :
    Related (negation unary) (negation unary') :=
  h.bind (h.expect _) fun _ => h.map hunary _

theorem application (h : Congruence m n Related) (keyword : String) (op : UnaryOp)
    (hpredicate : Related predicate predicate') :
    Related (application keyword op predicate) (application keyword op predicate') :=
  h.bind (h.expect _) fun _ => h.bind (h.expect _) fun _ => h.bind hpredicate fun operand =>
    h.map (h.expect _) fun _ => Formula.unary op operand

theorem since (h : Congruence m n Related) (hpredicate : Related predicate predicate') :
    Related (since predicate) (since predicate') :=
  h.bind (h.expect _) fun _ => h.bind (h.expect _) fun _ => h.bind hpredicate fun left =>
    h.bind (h.expect _) fun _ => h.bind hpredicate fun right =>
      h.map (h.expect _) fun _ => Formula.binary .since left right

theorem temporal (h : Congruence m n Related) (hpredicate : Related predicate predicate') :
    Related (temporal predicate) (temporal predicate') :=
  h.orElse (h.application _ _ hpredicate) (h.orElse (h.application _ _ hpredicate)
    (h.orElse (h.application _ _ hpredicate) (h.since hpredicate)))

theorem grouped (h : Congruence m n Related) (hpredicate : Related predicate predicate')
    (hpiece : Related piece piece') :
    Related (grouped predicate piece) (grouped predicate' piece') :=
  h.bind (h.expect _) fun _ => h.bind hpredicate fun inner => h.bind (h.expect _) fun _ =>
    h.map (h.notFollowedBy hpiece) fun _ => Formula.grouped inner

theorem unaryOf (h : Congruence m n Related) (hgroup : Related group group')
    (hunary : Related unary unary') (hpredicate : Related predicate predicate') :
    Related (unaryOf group unary predicate) (unaryOf group' unary' predicate') :=
  h.orElse (h.negation hunary) (h.orElse (h.temporal hpredicate)
    (h.orElse (h.grouped hpredicate (h.tokenOf _ hgroup)) (h.terminal (h.tokenOf _ hgroup))))

end

end Congruence

end PastTime

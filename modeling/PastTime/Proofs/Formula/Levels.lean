import PastTime.Proofs.Formula.Rooms
import PastTime.Proofs.Formula.Soundness

/-!
# Levels

How deep a formula nests. A parser with room for some levels returns only formulas with fewer
levels, and apart from this bound the room does not show in what is read: a parser that sits deeper
below the root replies as one further up does, or gives up the whole reading.
-/

namespace PastTime

/-! ## Counting levels -/

namespace Token

mutual

/-- How many brackets of the token stand inside each other. -/
def levels : Token → Nat
  | word _ | symbol _ => 0
  | group _ tokens => levelsAll tokens + 1

/-- The most levels of any of the tokens. -/
def levelsAll : List Token → Nat
  | [] => 0
  | token :: rest => max token.levels (levelsAll rest)

end

theorem levelsAll_le_iff {tokens : List Token} {bound : Nat} :
    levelsAll tokens ≤ bound ↔ ∀ token ∈ tokens, token.levels ≤ bound := by
  induction tokens with
  | nil => simp [levelsAll]
  | cons token rest ih => rw [levelsAll, Nat.max_le, ih, List.forall_mem_cons]

end Token

/-- How many levels a formula opens on one path: negation, a temporal operator, parentheses, a pair
of brackets and the right side of an implication open one each. -/
def Formula.levels : Formula → Nat
  | terminal tokens => Token.levelsAll tokens
  | grouped inner => inner.levels + 1
  | unary _ operand => operand.levels + 1
  | binary .implies left right => max left.levels (right.levels + 1)
  | binary (.connective _) left right => max left.levels right.levels
  | binary .since left right => max left.levels right.levels + 1

namespace Grammar

open PastTime.Parser

/-! ## Properties of what is read -/

/-- A property of the formulas that are read with a given room, which every operator hands on from
its operands. A terminal is only read where no formula in parentheses is. -/
structure Hereditary (Good : Nat → Formula → Prop) : Prop where
  terminal {room : Nat} {input rest : List Lexeme} {tokens : List Token} :
    Refuses (grouped (predicate room) (piece room)) input →
      many1 (piece room) input = .ok tokens rest → Good (room + 1) (.terminal tokens)
  grouped {room : Nat} {inner : Formula} : Good room inner → Good (room + 1) (.grouped inner)
  unary {room : Nat} {operand : Formula} (op : UnaryOp) :
    Good room operand → Good (room + 1) (.unary op operand)
  implies {room : Nat} {left right : Formula} :
    Good (room + 1) left → Good room right → Good (room + 1) (.binary .implies left right)
  connective {room : Nat} {left right : Formula} (c : Connective) :
    Good room left → Good room right → Good room (.binary (.connective c) left right)
  since {room : Nat} {left right : Formula} :
    Good room left → Good room right → Good (room + 1) (.binary .since left right)

namespace Hereditary

variable {Good : Nat → Formula → Prop} {room : Nat}

theorem returns_chain (hgood : Hereditary Good) {operand : Parser Formula}
    (h : Returns operand (Good room)) (connectives : List Connective) :
    Returns (chain connectives operand) (Good room) := by
  have hlink : Returns (link connectives operand) fun found =>
      ∀ link ∈ found, Good room link.2 := by
    refine Returns.skip_bind fun found => ?_
    cases found with
    | none => exact Returns.pure (by simp)
    | some c => exact h.bind fun right hright => Returns.pure (by simpa using hright)
  have hjoined (links : List (Connective × Formula)) (hlinks : ∀ link ∈ links, Good room link.2)
      (first : Formula) (hfirst : Good room first) :
      Good room
        (links.foldl (fun left link => .binary (.connective link.1) left link.2) first) := by
    induction links generalizing first with
    | nil => exact hfirst
    | cons link links ih =>
        obtain ⟨hlink, hlinks⟩ := List.forall_mem_cons.mp hlinks
        exact ih hlinks _ (hgood.connective link.1 hfirst hlink)
  exact h.bind fun first hfirst => hlink.collect.bind fun links hlinks =>
    Returns.pure (hjoined links hlinks first hfirst)

theorem returns_temporal (hgood : Hereditary Good) {predicate : Parser Formula}
    (h : Returns predicate (Good room)) : Returns (temporal predicate) (Good (room + 1)) := by
  have happlication (keyword : String) (op : UnaryOp) :
      Returns (application keyword op predicate) (Good (room + 1)) :=
    Returns.skip_bind fun _ => Returns.skip_bind fun _ => h.bind fun operand hoperand =>
      Returns.skip_bind fun _ => Returns.pure (hgood.unary op hoperand)
  have hsince : Returns (Grammar.since predicate) (Good (room + 1)) :=
    Returns.skip_bind fun _ => Returns.skip_bind fun _ => h.bind fun left hleft =>
      Returns.skip_bind fun _ => h.bind fun right hright =>
        Returns.skip_bind fun _ => Returns.pure (hgood.since hleft hright)
  exact (happlication _ _).orElse ((happlication _ _).orElse ((happlication _ _).orElse hsince))

theorem returns_implication (hgood : Hereditary Good) {unary predicate : Parser Formula}
    (hunary : Returns unary (Good (room + 1))) (hpredicate : Returns predicate (Good room)) :
    Returns (implication unary predicate) (Good (room + 1)) := by
  have hdisjunction : Returns (disjunction unary) (Good (room + 1)) :=
    hgood.returns_chain (hgood.returns_chain (hgood.returns_chain hunary _) _) _
  have hright : Returns (do expect (.mark "->"); predicate) (Good room) :=
    Returns.skip_bind fun _ => hpredicate
  refine hdisjunction.bind fun left hleft => hright.optional.bind fun found hfound => ?_
  cases found with
  | none => exact Returns.pure hleft
  | some right => exact Returns.pure (hgood.implies hleft (hfound right rfl))

theorem returns_unary (hgood : Hereditary Good) (hunary : Returns (Grammar.unary room) (Good room))
    (hpredicate : Returns (predicate room) (Good room)) :
    Returns (Grammar.unary (room + 1)) (Good (room + 1)) := by
  have hnegation : Returns (negation (Grammar.unary room)) (Good (room + 1)) :=
    Returns.skip_bind fun _ => hunary.bind fun operand hoperand =>
      Returns.pure (hgood.unary .not hoperand)
  have hgrouped : Returns (Grammar.grouped (predicate room) (piece room)) (Good (room + 1)) :=
    Returns.skip_bind fun _ => hpredicate.bind fun inner hinner => Returns.skip_bind fun _ =>
      Returns.skip_bind fun _ => Returns.pure (hgood.grouped hinner)
  intro input formula rest hok
  -- which alternative is read says also that those before it are refused
  rcases orElse_ok_cases hok with hok | ⟨-, hok⟩
  · exact hnegation _ _ _ hok
  rcases orElse_ok_cases hok with hok | ⟨-, hok⟩
  · exact hgood.returns_temporal hpredicate _ _ _ hok
  rcases orElse_ok_cases hok with hok | ⟨hrefused, hok⟩
  · exact hgrouped _ _ _ hok
  · obtain ⟨tokens, _, htokens, hformula⟩ := bind_eq_ok.mp hok
    obtain ⟨rfl, rfl⟩ := pure_eq_ok.mp hformula
    exact hgood.terminal hrefused htokens

/-- The property holds of whatever the two parsers of a level return. -/
theorem returns_level (hgood : Hereditary Good) (room : Nat) :
    Returns (Grammar.unary room) (Good room) ∧ Returns (predicate room) (Good room) := by
  induction room with
  | zero => exact ⟨Returns.tooDeep, Returns.tooDeep⟩
  | succ room ih =>
      obtain ⟨hunary, hpredicate⟩ := ih
      have hnext := hgood.returns_unary hunary hpredicate
      exact ⟨hnext, hgood.returns_implication hnext hpredicate⟩

end Hereditary

/-! ## The bound on levels -/

theorem levels_word : Returns word fun token => token.levels = 0 := by
  refine Returns.next fun lexeme token hlexeme => ?_
  cases lexeme with
  | word text =>
      simp only [Option.ite_none_left_eq_some, Option.some.injEq] at hlexeme
      obtain ⟨-, rfl⟩ := hlexeme
      rfl
  | mark text => cases hlexeme

theorem levels_markAmong (marks : List String) :
    Returns (markAmong marks) fun token => token.levels = 0 := by
  refine Returns.next fun lexeme token hlexeme => ?_
  cases lexeme with
  | word text => cases hlexeme
  | mark text =>
      simp only [Option.ite_none_right_eq_some, Option.some.injEq] at hlexeme
      obtain ⟨-, rfl⟩ := hlexeme
      rfl

theorem levels_tokenOf (marks : List String) {room : Nat} {inside : Parser Token}
    (h : Returns inside fun token => token.levels ≤ room) :
    Returns (tokenOf marks inside) fun token => token.levels ≤ room :=
  h.orElse ((levels_word.orElse (levels_markAmong _)).mono fun token htoken => by omega)

theorem levels_group (room : Nat) : Returns (group room) fun token => token.levels ≤ room := by
  induction room with
  | zero => exact Returns.skip_bind fun _ => Returns.mismatch
  | succ room ih =>
      have hdelimited (bracket : Bracket) :
          Returns (delimited bracket (groupToken room)) fun token => token.levels ≤ room + 1 := by
        refine Returns.skip_bind fun _ => (levels_tokenOf _ ih).many.bind fun tokens htokens => ?_
        refine Returns.skip_bind fun _ => Returns.pure ?_
        rw [Token.levels]
        exact Nat.succ_le_succ (Token.levelsAll_le_iff.mpr htokens)
      exact (hdelimited .round).orElse (hdelimited .square)

theorem levels_piece (room : Nat) : Returns (piece room) fun token => token.levels ≤ room :=
  levels_tokenOf symbols (levels_group room)

/-- What is read with some room has fewer levels than there is room. -/
theorem hereditary_levels : Hereditary fun room formula => formula.levels < room where
  terminal _ htokens :=
    Nat.lt_succ_of_le (Token.levelsAll_le_iff.mpr ((levels_piece _).many1 _ _ _ htokens))
  grouped hinner := Nat.succ_lt_succ hinner
  unary _ hoperand := Nat.succ_lt_succ hoperand
  implies hleft hright := Nat.max_lt.mpr ⟨hleft, Nat.succ_lt_succ hright⟩
  connective _ hleft hright := Nat.max_lt.mpr ⟨hleft, hright⟩
  since hleft hright := Nat.succ_lt_succ (Nat.max_lt.mpr ⟨hleft, hright⟩)

/-! ## Depths -/

/-- The room of a parser that sits the given number of levels below the root. -/
def roomAt (depth : Nat) : Nat := maxDepth + 1 - depth

theorem levels_of_predicate {depth : Nat} {input rest : List Lexeme} {formula : Formula}
    (h : predicate (roomAt depth) input = .ok formula rest) :
    depth + formula.levels ≤ maxDepth := by
  have hlevels : formula.levels < roomAt depth :=
    (hereditary_levels.returns_level _).2 _ _ _ h
  unfold roomAt at hlevels
  omega

/-- Where a parser does not give up, it replies as it does with more room. -/
theorem eq_of_depth_le {α : Type} {parser : Nat → Parser α}
    (hstep : ∀ room, Below (parser room) (parser (room + 1))) {depth deeper : Nat}
    (h : depth ≤ deeper) {input : List Lexeme}
    (hne : ∀ left, parser (roomAt deeper) input ≠ .tooDeep left) :
    parser (roomAt depth) input = parser (roomAt deeper) input := by
  have hroom : roomAt deeper ≤ roomAt depth := by
    unfold roomAt
    omega
  exact ((Below.of_le hstep hroom input).eq_of_ne hne).symm

/-- The limit on levels only guards: deeper below the root a parser replies as it does further up,
with the same value and the same lexemes left or the same mismatch, unless it gives up there. What
is read at some depth fits under the limit with all its levels, and so does every accepted text. -/
theorem levels_only_guard {depth deeper : Nat} (h : depth ≤ deeper) (input : List Lexeme) :
    ((∀ left, predicate (roomAt deeper) input ≠ .tooDeep left) →
      predicate (roomAt depth) input = predicate (roomAt deeper) input) ∧
    ((∀ left, unary (roomAt deeper) input ≠ .tooDeep left) →
      unary (roomAt depth) input = unary (roomAt deeper) input) ∧
    ((∀ left, group (roomAt deeper) input ≠ .tooDeep left) →
      group (roomAt depth) input = group (roomAt deeper) input) ∧
    ((∀ left, piece (roomAt deeper) input ≠ .tooDeep left) →
      piece (roomAt depth) input = piece (roomAt deeper) input) ∧
    (∀ formula rest, predicate (roomAt depth) input = .ok formula rest →
      depth + formula.levels ≤ maxDepth) ∧
    ∀ text formula, Formula.parse text = .ok formula → formula.levels ≤ maxDepth := by
  refine ⟨?_, ?_, ?_, ?_, ?_, ?_⟩
  · exact eq_of_depth_le (fun room => (below_level room).2) h
  · exact eq_of_depth_le (fun room => (below_level room).1) h
  · exact eq_of_depth_le below_group h
  · exact eq_of_depth_le below_piece h
  · intro formula rest hread
    exact levels_of_predicate hread
  · intro text formula hparse
    have hread : predicate (roomAt 0) (Lexeme.lexemes text) = .ok formula [] :=
      Formula.parseWithin_eq_ok_iff.mp hparse
    have hlevels := levels_of_predicate hread
    omega

/-- Two levels just fit at depth 98. -/
theorem levels_only_guard_negation :
    predicate (roomAt 98) (Lexeme.lexemes "!(a) == b") =
        .ok (.binary (.connective .equal) (.unary .not (.grouped (.terminal [.word "a"])))
          (.terminal [.word "b"])) [] ∧
      predicate (roomAt 0) (Lexeme.lexemes "!(a) == b") =
        predicate (roomAt 98) (Lexeme.lexemes "!(a) == b") ∧
      98 + (Formula.binary (.connective .equal) (.unary .not (.grouped (.terminal [.word "a"])))
        (.terminal [.word "b"])).levels ≤ maxDepth := by
  have hread : predicate (roomAt 98) (Lexeme.lexemes "!(a) == b") =
      .ok (.binary (.connective .equal) (.unary .not (.grouped (.terminal [.word "a"])))
        (.terminal [.word "b"])) [] := by
    decide +kernel
  have hsame := (@levels_only_guard 0 98 (by decide) (Lexeme.lexemes "!(a) == b")).1
  obtain ⟨-, -, -, -, hbound, -⟩ :=
    @levels_only_guard 98 98 (by decide) (Lexeme.lexemes "!(a) == b")
  refine ⟨hread, hsame ?_, hbound _ _ hread⟩
  intro left
  rw [hread]
  simp

end Grammar

end PastTime

import PastTime.Proofs.Formula.Brackets
import PastTime.Proofs.Formula.Soundness
import PastTime.Proofs.Parser.Takes

/-!
# Completeness of the grammar

A derivable sequence of lexemes is read to its end, or nests too deep. The parsers choose an
alternative by looking at the next lexemes only; none of these choices loses a derivation, because
of what can stand behind each kind of formula.
-/

namespace PastTime

namespace Grammar

open PastTime.Parser

/-! ## What stands behind a formula -/

/-- The rest is empty or begins with one of the marks. -/
def Follow (marks : List String) (rest : List Lexeme) : Prop :=
  ∀ lexeme ∈ rest.head?, ∃ text ∈ marks, lexeme = .mark text

/-- The marks behind a whole formula. -/
def behindPredicate : List String := [")", ","]

/-- The marks behind the left side of an implication. -/
def behindDisjunction : List String := "->" :: behindPredicate

/-- The marks behind an operand of `||`. -/
def behindConjunction : List String := "||" :: behindDisjunction

/-- The marks behind an operand of `&&`. -/
def behindEquality : List String := "&&" :: behindConjunction

/-- The marks behind a formula without outer connectives. -/
def behindUnary : List String := "==" :: "!=" :: behindEquality

theorem follow_nil (marks : List String) : Follow marks [] := by
  intro lexeme h
  cases h

theorem follow_cons {marks : List String} {text : String} (h : text ∈ marks) (rest : List Lexeme) :
    Follow marks (.mark text :: rest) := by
  intro lexeme hlexeme
  cases hlexeme
  exact ⟨text, h, rfl⟩

theorem Follow.mono {marks more : List String} (hsubset : marks ⊆ more) {rest : List Lexeme}
    (h : Follow marks rest) : Follow more rest := by
  intro lexeme hlexeme
  obtain ⟨text, htext, rfl⟩ := h lexeme hlexeme
  exact ⟨text, hsubset htext, rfl⟩

/-! ## Refused lexemes -/

/-- The lexeme begins no token, whichever of the given marks are allowed. -/
def BeginsNoToken (marks : List String) (lexeme : Lexeme) : Prop :=
  ∃ text, lexeme = .mark text ∧ text ∉ marks ∧ opening? (.mark text) = none

theorem refuses_group (room : Nat) {input : List Lexeme}
    (h : ∀ lexeme ∈ input.head?, opening? lexeme = none) : Refuses (group room) input := by
  cases input with
  | nil => cases room <;> exact ⟨[], rfl⟩
  | cons lexeme rest => exact ⟨_, group_of_opening?_eq_none (h lexeme rfl) room rest⟩

theorem refuses_token (room : Nat) {marks : List String} {input : List Lexeme}
    (h : ∀ lexeme ∈ input.head?, BeginsNoToken marks lexeme) :
    Refuses (tokenOf marks (group room)) input := by
  refine (refuses_group room ?_).orElse ((refuses_next ?_).orElse (refuses_next ?_))
  all_goals
    intro lexeme hlexeme
    obtain ⟨text, rfl, hmarks, hopening⟩ := h lexeme hlexeme
  · exact hopening
  · rfl
  · exact if_neg hmarks

theorem refuses_piece (room : Nat) {rest : List Lexeme} (h : Follow behindUnary rest) :
    Refuses (piece room) rest := by
  apply refuses_token room
  intro lexeme hlexeme
  obtain ⟨text, htext, rfl⟩ := h lexeme hlexeme
  have hnone : ∀ text ∈ behindUnary, text ∉ symbols ∧ opening? (.mark text) = none := by decide
  exact ⟨text, rfl, hnone text htext⟩

/-! ## Terminals -/

/-- What every parser of a kind of token takes: the sequence is not empty and needs no
look-ahead. -/
def TakenBy (parser : Nat → Parser Token) (used : List Lexeme) : Prop :=
  used ≠ [] ∧ ∀ room rest, Takes (parser room) used rest

theorem takes_word {text : String} (h : text ∉ keywords) (rest : List Lexeme) :
    Takes word [.word text] rest :=
  Takes.next (if_neg h) rest

theorem takes_markAmong {marks : List String} {text : String} (h : text ∈ marks)
    (rest : List Lexeme) : Takes (markAmong marks) [.mark text] rest :=
  Takes.next (if_pos h) rest

theorem takenBy_of_word {text : String} (h : text ∉ keywords) (marks : List String) :
    TakenBy (fun room => tokenOf marks (group room)) [.word text] := by
  refine ⟨by simp, fun room rest => ?_⟩
  refine Takes.orElse_right (refuses_group room ?_) ((takes_word h rest).orElse_left _)
  rintro lexeme ⟨⟩
  rfl

theorem takenBy_of_mark {marks : List String} {text : String} (h : text ∈ marks)
    (hopening : opening? (.mark text) = none) :
    TakenBy (fun room => tokenOf marks (group room)) [.mark text] := by
  refine ⟨by simp, fun room rest => ?_⟩
  refine Takes.orElse_right (refuses_group room ?_)
    (Takes.orElse_right (refuses_next ?_) (takes_markAmong h rest))
  all_goals rintro lexeme ⟨⟩
  · exact hopening
  · rfl

theorem takenBy_of_group {used : List Lexeme} (h : TakenBy group used) (marks : List String) :
    TakenBy (fun room => tokenOf marks (group room)) used :=
  ⟨h.1, fun room rest => (h.2 room rest).orElse_left _⟩

theorem refuses_groupToken_closing (room : Nat) (bracket : Bracket) (rest : List Lexeme) :
    Refuses (groupToken room) (.mark bracket.closing :: rest) := by
  apply refuses_token room
  rintro lexeme ⟨⟩
  cases bracket with
  | round => exact ⟨_, rfl, by decide, by decide⟩
  | square => exact ⟨_, rfl, by decide, by decide⟩

theorem refuses_delimited_round (token : Parser Token) (rest : List Lexeme) :
    Refuses (delimited .round token) (.mark Bracket.square.opening :: rest) :=
  ⟨_, delimited_of_ne (by decide) token rest⟩

/-- A group is read up to its closing bracket, which begins no token. -/
theorem takenBy_group (bracket : Bracket) {parts : List (List Lexeme)}
    (hparts : ∀ part ∈ parts, TakenBy groupToken part) :
    TakenBy group (.mark bracket.opening :: parts.flatten ++ [.mark bracket.closing]) := by
  refine ⟨by simp, fun room rest => ?_⟩
  cases room with
  | zero =>
      right
      exact ⟨_, group_zero_of_opening? (opening?_opening bracket) _⟩
  | succ room =>
      have hstop := refuses_groupToken_closing room bracket rest
      have htokens : Takes (many (groupToken room)) parts.flatten
          ([.mark bracket.closing] ++ rest) :=
        Takes.many hstop fun part hpart => ⟨(hparts part hpart).1, (hparts part hpart).2 room⟩
      have hdelimited : Takes (delimited bracket (groupToken room))
          (.mark bracket.opening :: parts.flatten ++ [.mark bracket.closing]) rest :=
        Takes.expect_bind (htokens.bind fun tokens =>
          (Takes.expect _ rest).map fun _ => Token.group bracket tokens)
      cases bracket with
      | round => exact hdelimited.orElse_left _
      | square => exact Takes.orElse_right (refuses_delimited_round _ _) hdelimited

/-- The sequence is a token of a terminal. A terminal that begins with a parenthesis is told from a
formula in parentheses by what stands behind the matching one. -/
inductive IsPiece : List Lexeme → Prop
  | word {text : String} (h : text ∉ keywords) : IsPiece [.word text]
  | symbol {text : String} (h : text ∈ symbols) : IsPiece [.mark text]
  | group (bracket : Bracket) {inner : List Lexeme} (hinner : Balanced inner)
      (h : TakenBy group (.mark bracket.opening :: inner ++ [.mark bracket.closing])) :
      IsPiece (.mark bracket.opening :: inner ++ [.mark bracket.closing])

theorem IsPiece.takenBy {used : List Lexeme} (h : IsPiece used) : TakenBy piece used := by
  cases h with
  | word h => exact takenBy_of_word h symbols
  | symbol h =>
      have hopening : ∀ text ∈ symbols, opening? (.mark text) = none := by decide
      exact takenBy_of_mark h (hopening _ h)
  | group bracket _ h => exact takenBy_of_group h symbols

/-- Pieces are read up to the first lexeme that can stand behind a terminal. -/
theorem takes_terminal {first : List Lexeme} {others : List (List Lexeme)} (hfirst : IsPiece first)
    (hothers : ∀ other ∈ others, IsPiece other) (room : Nat) {rest : List Lexeme}
    (hrest : Follow behindUnary rest) :
    Takes (terminal (piece room)) (first ++ others.flatten) rest := by
  have hmany : Takes (many (piece room)) others.flatten rest :=
    Takes.many (refuses_piece room hrest) fun other hother =>
      ⟨(hothers other hother).takenBy.1, (hothers other hother).takenBy.2 room⟩
  exact Takes.map (Takes.bind (hfirst.takenBy.2 room _) fun token => hmany.map (token :: ·))
    Formula.terminal

/-! ## Parentheses -/

/-- A formula in parentheses is read step by step. -/
theorem grouped_cons (room : Nat) (tail : List Lexeme) :
    grouped (predicate room) (piece room) (.mark "(" :: tail) =
      (predicate room tail).andThen fun formula behind =>
        ((expect (.mark ")") : Parser Unit) behind).andThen fun _ behind =>
          (notFollowedBy (piece room) behind).andThen fun _ behind =>
            .ok (.grouped formula) behind := by
  rw [grouped, bind_apply, expect_cons]
  rfl

/-- Where a terminal begins with a parenthesis, a formula in parentheses is tried first. It is
either read instead of the terminal, and then it is the whole terminal, or it is refused. -/
theorem grouped_of_terminal {inner : List Lexeme} {others : List (List Lexeme)}
    (hinner : Balanced inner) (hothers : ∀ other ∈ others, IsPiece other) (room : Nat)
    {rest : List Lexeme} (hrest : Follow behindUnary rest) :
    Takes (grouped (predicate room) (piece room))
        (.mark "(" :: inner ++ [.mark ")"] ++ others.flatten) rest ∨
      Refuses (grouped (predicate room) (piece room))
        (.mark "(" :: inner ++ [.mark ")"] ++ others.flatten ++ rest) := by
  have hinput : .mark "(" :: inner ++ [.mark ")"] ++ others.flatten ++ rest =
      .mark "(" :: (inner ++ .mark ")" :: (others.flatten ++ rest)) := by simp
  unfold Takes Refuses
  rw [hinput, grouped_cons]
  cases hpredicate : predicate room (inner ++ .mark ")" :: (others.flatten ++ rest)) with
  | mismatch left => exact Or.inr ⟨left, rfl⟩
  | tooDeep left => exact Or.inl (Or.inr ⟨left, rfl⟩)
  | ok formula left =>
      by_cases hclosed : left.head? = some (.mark ")")
      · obtain ⟨behind, rfl⟩ : ∃ behind, left = .mark ")" :: behind := by
          cases left with
          | nil => cases hclosed
          | cons lexeme behind => cases hclosed; exact ⟨behind, rfl⟩
        obtain ⟨used, hused, rfl, hformula, _⟩ := (reads_level room).2 _ _ _ hpredicate
        -- The formula is balanced too, so its parenthesis is the one that closes the group.
        have hbalanced := (derives_of_wellFormed hformula).balanced
        have hsame : inner = formula.lexemes :=
          hinner.eq_of_closing hbalanced .round .round hused
        rw [hsame] at hused
        have hbehind := (List.cons.inj (List.append_cancel_left hused)).2
        subst hbehind
        simp only [Reply.andThen, expect_cons]
        cases others with
        | nil =>
            obtain ⟨left, hrefused⟩ := refuses_piece room hrest
            refine Or.inl (Or.inl ⟨.grouped formula, ?_⟩)
            simp [notFollowedBy, hrefused]
        | cons other others =>
            have hpiece := (hothers other List.mem_cons_self).takenBy
            have hother := hpiece.2 room (others.flatten ++ rest)
            rw [List.flatten_cons, List.append_assoc]
            rcases hother with ⟨token, htoken⟩ | ⟨left, htoken⟩
            · refine Or.inr ⟨other ++ (others.flatten ++ rest), ?_⟩
              simp [notFollowedBy, htoken]
            · refine Or.inl (Or.inr ⟨left, ?_⟩)
              simp [notFollowedBy, htoken]
      · obtain ⟨behind, hrefused⟩ := refuses_expect hclosed
        refine Or.inr ⟨behind, ?_⟩
        simp only [Reply.andThen, hrefused]

/-! ## Formulas without outer connectives -/

/-- The parser takes the lexemes in front of the end and of each of the marks. -/
def TakenBefore (marks : List String) (parser : Nat → Parser Formula) (used : List Lexeme) : Prop :=
  ∀ room rest, Follow marks rest → Takes (parser room) used rest

/-- What is known of the sequences that each rule derives. -/
def Taken : Rule → List Lexeme → Prop
  | .predicate | .implication => TakenBefore behindPredicate predicate
  | .disjunction => TakenBefore behindDisjunction fun room => disjunction (unary room)
  | .conjunction =>
    TakenBefore behindConjunction fun room => chain [.and] (chain [.equal, .notEqual] (unary room))
  | .equality => TakenBefore behindEquality fun room => chain [.equal, .notEqual] (unary room)
  | .unary | .temporal | .primary | .terminal => TakenBefore behindUnary unary
  | .piece => IsPiece
  | .group => fun used => ∃ (bracket : Bracket) (inner : List Lexeme),
    used = .mark bracket.opening :: inner ++ [.mark bracket.closing] ∧ Balanced inner ∧
      TakenBy group used
  | .groupToken => fun used => Balanced used ∧ TakenBy groupToken used
  | .word => fun used => ∃ text, text ∉ keywords ∧ used = [.word text]
  | .symbol => fun used => ∃ text ∈ symbols, used = [.mark text]

/-- Without room the parser gives up, so only its alternatives with room are to be looked at. -/
theorem takenBefore_unary {used : List Lexeme}
    (h : ∀ room rest, Follow behindUnary rest →
      Takes (unaryOf (group room) (unary room) (predicate room)) used rest) :
    TakenBefore behindUnary unary used := by
  intro room rest hrest
  cases room with
  | zero => exact Takes.tooDeep used rest
  | succ room => exact h room rest hrest

theorem refuses_negation {input : List Lexeme} (h : input.head? ≠ some (.mark "!"))
    (unary : Parser Formula) : Refuses (negation unary) input :=
  (refuses_expect h).bind _

theorem refuses_temporal {input : List Lexeme}
    (h : ∀ keyword ∈ keywords, input.head? ≠ some (.word keyword)) (predicate : Parser Formula) :
    Refuses (temporal predicate) input := by
  have hrefused (keyword : String) (hkeyword : keyword ∈ keywords) :
      Refuses (expect (.word keyword)) input := refuses_expect (h keyword hkeyword)
  exact ((hrefused "previously" (by decide)).bind _).orElse
    (((hrefused "once" (by decide)).bind _).orElse
      (((hrefused "always" (by decide)).bind _).orElse ((hrefused "since" (by decide)).bind _)))

theorem refuses_grouped {input : List Lexeme} (h : input.head? ≠ some (.mark "("))
    (predicate : Parser Formula) (piece : Parser Token) :
    Refuses (grouped predicate piece) input :=
  (refuses_expect h).bind _

theorem takenBefore_terminal {first : List Lexeme} {others : List (List Lexeme)}
    (hfirst : IsPiece first) (hothers : ∀ other ∈ others, IsPiece other) :
    TakenBefore behindUnary unary (first ++ others.flatten) := by
  apply takenBefore_unary
  intro room rest hrest
  have hterminal := takes_terminal hfirst hothers room hrest
  cases hfirst with
  | @word text hword =>
      refine Takes.orElse_right (refuses_negation (by simp) _) (Takes.orElse_right
        (refuses_temporal ?_ _) (Takes.orElse_right (refuses_grouped (by simp) _ _) hterminal))
      rintro keyword hkeyword ⟨⟩
      exact hword hkeyword
  | @symbol text hsymbol =>
      have hne : ∀ text ∈ symbols, text ≠ "!" ∧ text ≠ "(" := by decide
      obtain ⟨hbang, hparen⟩ := hne text hsymbol
      exact Takes.orElse_right (refuses_negation (by simpa using hbang) _) (Takes.orElse_right
        (refuses_temporal (by simp) _)
        (Takes.orElse_right (refuses_grouped (by simpa using hparen) _ _) hterminal))
  | group bracket hinner _ =>
      cases bracket with
      | square =>
          exact Takes.orElse_right (refuses_negation (by simp [Bracket.opening]) _)
            (Takes.orElse_right (refuses_temporal (by simp) _)
              (Takes.orElse_right (refuses_grouped (by simp [Bracket.opening]) _ _) hterminal))
      | round =>
          refine Takes.orElse_right (refuses_negation (by simp [Bracket.opening]) _)
            (Takes.orElse_right (refuses_temporal (by simp) _) ?_)
          rcases grouped_of_terminal hinner hothers room hrest with htaken | hrefused
          · exact htaken.orElse_left _
          · exact Takes.orElse_right hrefused hterminal

theorem takenBefore_not {operand : List Lexeme} (hoperand : TakenBefore behindUnary unary operand) :
    TakenBefore behindUnary unary (.mark "!" :: operand) := by
  refine takenBefore_unary fun room rest hrest => Takes.orElse_left ?_ _
  exact Takes.expect_bind ((hoperand room rest hrest).map (Formula.unary .not))

theorem takenBefore_grouped {inner : List Lexeme}
    (hinner : TakenBefore behindPredicate predicate inner) :
    TakenBefore behindUnary unary (.mark "(" :: inner ++ [.mark ")"]) := by
  refine takenBefore_unary fun room rest hrest => Takes.orElse_right (refuses_negation (by simp) _)
    (Takes.orElse_right (refuses_temporal (by simp) _) (Takes.orElse_left ?_ _))
  have hclosed : Follow behindPredicate ([.mark ")"] ++ rest) := follow_cons (by decide) rest
  refine Takes.expect_bind ((hinner room _ hclosed).bind fun formula => Takes.expect_bind ?_)
  exact (Takes.notFollowedBy (refuses_piece room hrest)).map fun _ => Formula.grouped formula

theorem takes_application {operand : List Lexeme}
    (hoperand : TakenBefore behindPredicate predicate operand) (keyword : String) (op : UnaryOp)
    (room : Nat) (rest : List Lexeme) :
    Takes (application keyword op (predicate room)) (Lexeme.call keyword operand) rest := by
  have hclosed : Follow behindPredicate ([.mark ")"] ++ rest) := follow_cons (by decide) rest
  exact Takes.expect_bind (Takes.expect_bind ((hoperand room _ hclosed).bind fun formula =>
    (Takes.expect _ rest).map fun _ => Formula.unary op formula))

theorem takes_since {left right : List Lexeme}
    (hleft : TakenBefore behindPredicate predicate left)
    (hright : TakenBefore behindPredicate predicate right) (room : Nat) (rest : List Lexeme) :
    Takes (since (predicate room)) (Lexeme.call "since" (left ++ .mark "," :: right)) rest := by
  have hclosed : Follow behindPredicate ([.mark ")"] ++ rest) := follow_cons (by decide) rest
  have hcomma : Follow behindPredicate (.mark "," :: (right ++ [.mark ")"]) ++ rest) :=
    follow_cons (by decide) _
  have hshape : Lexeme.call "since" (left ++ .mark "," :: right) =
      .word "since" :: .mark "(" :: (left ++ .mark "," :: (right ++ [.mark ")"])) := by
    simp [Lexeme.call]
  rw [hshape]
  refine Takes.expect_bind (Takes.expect_bind ((hleft room _ hcomma).bind fun first => ?_))
  exact Takes.expect_bind ((hright room _ hclosed).bind fun second =>
    (Takes.expect _ rest).map fun _ => Formula.binary .since first second)

theorem refuses_application {keyword other : String} (h : keyword ≠ other) (op : UnaryOp)
    (predicate : Parser Formula) (operands rest : List Lexeme) :
    Refuses (application other op predicate) (Lexeme.call keyword operands ++ rest) :=
  (refuses_expect (by simpa [Lexeme.call] using h)).bind _

theorem takenBefore_temporal {used : List Lexeme}
    (h : Rule.temporal.definition.Matches Taken used) :
    TakenBefore behindUnary unary used := by
  have hcall {keyword : String} {operands : Ebnf} {used : List Lexeme}
      (h : (Ebnf.call keyword operands).Matches Taken used) :
      ∃ inner, operands.Matches Taken inner ∧ used = Lexeme.call keyword inner := by
    obtain ⟨_, _, rfl, rfl, _, _, rfl, rfl, inner, _, rfl, hinner, rfl⟩ := h
    exact ⟨inner, hinner, rfl⟩
  apply takenBefore_unary
  intro room rest hrest
  rcases h with h | h | h | h
  all_goals
    obtain ⟨inner, hinner, rfl⟩ := hcall h
    refine Takes.orElse_right (refuses_negation (by simp [Lexeme.call]) _) (Takes.orElse_left ?_ _)
  · exact (takes_application hinner _ _ room rest).orElse_left _
  · exact Takes.orElse_right (refuses_application (by decide) _ _ _ _)
      ((takes_application hinner _ _ room rest).orElse_left _)
  · exact Takes.orElse_right (refuses_application (by decide) _ _ _ _)
      (Takes.orElse_right (refuses_application (by decide) _ _ _ _)
        ((takes_application hinner _ _ room rest).orElse_left _))
  · obtain ⟨left, _, rfl, hleft, _, right, rfl, rfl, hright⟩ := hinner
    exact Takes.orElse_right (refuses_application (by decide) _ _ _ _)
      (Takes.orElse_right (refuses_application (by decide) _ _ _ _)
        (Takes.orElse_right (refuses_application (by decide) _ _ _ _)
          (takes_since hleft hright room rest)))

/-! ## Connectives -/

theorem symbol_injective {c other : Connective} (h : c.symbol = other.symbol) : c = other := by
  revert h
  cases c <;> cases other <;> decide

/-- A connective is found by its symbol. -/
theorem optional_connective {connectives : List Connective} {c : Connective}
    (hc : c ∈ connectives) (input : List Lexeme) :
    Parser.optional (next fun lexeme => connectives.find? fun other => lexeme = .mark other.symbol)
      (.mark c.symbol :: input) = .ok (some c) input := by
  have hfind : (connectives.find? fun other => Lexeme.mark c.symbol = .mark other.symbol) =
      some c := by
    obtain ⟨found, hfound⟩ := Option.isSome_iff_exists.mp
      (List.find?_isSome.mpr ⟨c, hc, by simp⟩ :
        (connectives.find? fun other => Lexeme.mark c.symbol = .mark other.symbol).isSome)
    have hsymbol : c.symbol = found.symbol := by simpa using List.find?_some hfound
    rw [hfound, symbol_injective hsymbol]
  simp only [Parser.optional, next, hfind]

theorem link_cons {connectives : List Connective} {c : Connective} (hc : c ∈ connectives)
    (operand : Parser Formula) (input : List Lexeme) :
    link connectives operand (.mark c.symbol :: input) =
      (do let right ← operand; return some (c, right)) input :=
  bind_of_ok (optional_connective hc input) _

/-- A connective is taken together with its right operand. -/
theorem takesOne_link {connectives : List Connective} {c : Connective} (hc : c ∈ connectives)
    {operand : Parser Formula} {right rest : List Lexeme} (hright : Takes operand right rest) :
    TakesOne (link connectives operand) (.mark c.symbol :: right) rest := by
  unfold TakesOne
  rw [List.cons_append, link_cons hc]
  rcases hright with ⟨value, h⟩ | ⟨left, h⟩
  · refine Or.inl ⟨(c, value), ?_⟩
    rw [bind_apply, h]
    rfl
  · refine Or.inr ⟨left, ?_⟩
    rw [bind_apply, h]
    rfl

theorem link_of_follow {connectives : List Connective} {marks : List String}
    (hmarks : ∀ c ∈ connectives, c.symbol ∉ marks) (operand : Parser Formula) {rest : List Lexeme}
    (hrest : Follow marks rest) : link connectives operand rest = .ok none rest := by
  have hrefused : Refuses (next fun lexeme => connectives.find? fun c => lexeme = .mark c.symbol)
      rest := by
    apply refuses_next
    intro lexeme hlexeme
    obtain ⟨text, htext, rfl⟩ := hrest lexeme hlexeme
    refine List.find?_eq_none.mpr fun c hc => ?_
    simp only [Lexeme.mark.injEq, decide_eq_true_eq]
    rintro rfl
    exact hmarks c hc htext
  exact bind_of_ok (optional_of_refuses hrefused) _

/-- A chain goes on as long as its connectives stand behind its operands. -/
theorem takenBefore_chain {connectives : List Connective} {marks : List String}
    (hmarks : ∀ c ∈ connectives, c.symbol ∉ marks) {operand : Nat → Parser Formula}
    {first : List Lexeme} {parts : List (List Lexeme)}
    (hfirst : TakenBefore (connectives.map (·.symbol) ++ marks) operand first)
    (hparts : ∀ part ∈ parts, ∃ c ∈ connectives, ∃ right, part = .mark c.symbol :: right ∧
      TakenBefore (connectives.map (·.symbol) ++ marks) operand right) :
    TakenBefore marks (fun room => chain connectives (operand room)) (first ++ parts.flatten) := by
  intro room rest hrest
  have hbehind : Follow (connectives.map (·.symbol) ++ marks) rest :=
    hrest.mono (List.subset_append_right _ _)
  have hround : ∀ part ∈ parts, part ≠ [] ∧
      ∀ tail, Follow (connectives.map (·.symbol) ++ marks) tail →
      Follow (connectives.map (·.symbol) ++ marks) (part ++ tail) ∧
        TakesOne (link connectives (operand room)) part tail := by
    intro part hpart
    obtain ⟨c, hc, right, rfl, hright⟩ := hparts part hpart
    refine ⟨by simp, fun tail htail => ⟨?_, takesOne_link hc (hright room tail htail)⟩⟩
    exact follow_cons (List.mem_append_left _ (List.mem_map_of_mem hc)) _
  have hlinks := Takes.collect _ hbehind (link_of_follow hmarks (operand room) hrest) hround
  have hnext : Follow (connectives.map (·.symbol) ++ marks) (parts.flatten ++ rest) := by
    cases parts with
    | nil => exact hbehind
    | cons part parts =>
        obtain ⟨c, hc, right, rfl, _⟩ := hparts part List.mem_cons_self
        exact follow_cons (List.mem_append_left _ (List.mem_map_of_mem hc)) _
  exact (hfirst room _ hnext).bind fun left => hlinks.map _

theorem takenBefore_joined {connectives : List Connective} {marks : List String}
    (hmarks : ∀ c ∈ connectives, c.symbol ∉ marks) {operand : Nat → Parser Formula} {name : Rule}
    (hname : Taken name = TakenBefore (connectives.map (·.symbol) ++ marks) operand)
    {used : List Lexeme} (h : (Ebnf.joined name (connectives.map (·.symbol))).Matches Taken used) :
    TakenBefore marks (fun room => chain connectives (operand room)) used := by
  obtain ⟨first, _, rfl, hfirst, parts, rfl, hparts⟩ := h
  apply takenBefore_chain hmarks (hname ▸ hfirst)
  intro part hpart
  obtain ⟨_, right, rfl, ⟨text, htext, rfl⟩, hright⟩ := hparts part hpart
  obtain ⟨c, hc, rfl⟩ := List.mem_map.mp htext
  exact ⟨c, hc, right, rfl, hname ▸ hright⟩

theorem takenBefore_predicate {used : List Lexeme}
    (h : ∀ room rest, Follow behindPredicate rest →
      Takes (implication (unary (room + 1)) (predicate room)) used rest) :
    TakenBefore behindPredicate predicate used := by
  intro room rest hrest
  cases room with
  | zero => exact Takes.tooDeep used rest
  | succ room => exact h room rest hrest

theorem takes_implication {unary consequent : Parser Formula} {left back rest : List Lexeme}
    (hleft : Takes (disjunction unary) left (back ++ rest))
    (hback : Takes (Parser.optional (do expect (.mark "->"); consequent)) back rest) :
    Takes (implication unary consequent) (left ++ back) rest := by
  apply hleft.bind
  intro formula
  rw [← List.append_nil back]
  apply Takes.bind hback
  intro found
  cases found with
  | none => exact Takes.pure formula rest
  | some right => exact Takes.pure (Formula.binary .implies formula right) rest

/-- No arrow stands behind a whole formula. -/
theorem refuses_arrow {rest : List Lexeme} (h : Follow behindPredicate rest)
    (consequent : Parser Formula) : Refuses (do expect (.mark "->"); consequent) rest := by
  refine (refuses_expect ?_).bind _
  intro harrow
  obtain ⟨text, htext, hmark⟩ := h _ harrow
  cases hmark
  exact absurd htext (by decide)

/-- A disjunction is taken as a whole formula where no arrow stands behind it. -/
theorem takenBefore_disjunction {left : List Lexeme}
    (hleft : TakenBefore behindDisjunction (fun room => disjunction (unary room)) left) :
    TakenBefore behindPredicate predicate left := by
  apply takenBefore_predicate
  intro room rest hrest
  have hno := refuses_arrow hrest (predicate room)
  have hbehind : Follow behindDisjunction rest := hrest.mono (List.subset_cons_self _ _)
  rw [← List.append_nil left]
  exact takes_implication (hleft (room + 1) rest hbehind) (Or.inl ⟨none, optional_of_refuses hno⟩)

theorem takenBefore_implies {left right : List Lexeme}
    (hleft : TakenBefore behindDisjunction (fun room => disjunction (unary room)) left)
    (hright : TakenBefore behindPredicate predicate right) :
    TakenBefore behindPredicate predicate (left ++ .mark "->" :: right) := by
  apply takenBefore_predicate
  intro room rest hrest
  have harrow : Follow behindDisjunction (.mark "->" :: right ++ rest) := follow_cons (by decide) _
  exact takes_implication (hleft (room + 1) _ harrow)
    (Takes.expect_bind (hright room rest hrest)).optional_some

/-! ## All rules -/

theorem taken_group {bracket : Bracket} {used : List Lexeme}
    (h : (Ebnf.enclosed bracket (.repeated (.rule .groupToken))).Matches Taken used) :
    Taken .group used := by
  obtain ⟨_, _, rfl, rfl, _, _, rfl, ⟨parts, rfl, hparts⟩, rfl⟩ := h
  have hinner : Balanced parts.flatten := Balanced.flatten fun part hpart => (hparts part hpart).1
  exact ⟨bracket, parts.flatten, rfl, hinner,
    takenBy_group bracket fun part hpart => (hparts part hpart).2⟩

theorem taken_groupToken {used : List Lexeme} (h : Rule.groupToken.definition.Matches Taken used) :
    Taken .groupToken used := by
  rcases h with ⟨text, htext, rfl⟩ | ⟨bracket, inner, rfl, hinner, htaken⟩ |
    ⟨text, htext, rfl⟩ | ⟨text, htext, rfl⟩
  · exact ⟨.plain (isPlain_word text) .nil, takenBy_of_word htext _⟩
  · exact ⟨hinner.brackets bracket, takenBy_of_group htaken _⟩
  all_goals
    have hmark : text ∈ innerSymbols ++ symbols := by
      first
        | exact List.mem_append_left _ htext
        | exact List.mem_append_right _ htext
    have hplain : ∀ text ∈ innerSymbols ++ symbols,
        text ∉ ["(", ")", "[", "]"] ∧ opening? (.mark text) = none := by decide
    obtain ⟨hbracket, hopening⟩ := hplain text hmark
    exact ⟨.plain (isPlain_mark hbracket) .nil, takenBy_of_mark hmark hopening⟩

/-- What is known of the rules is kept by every rule of the grammar. -/
theorem taken_closed (name : Rule) (used : List Lexeme) (h : name.definition.Matches Taken used) :
    Taken name used := by
  cases name with
  | predicate => exact h
  | implication =>
      obtain ⟨left, _, rfl, hleft, rfl | ⟨_, right, rfl, rfl, hright⟩⟩ := h
      · rw [List.append_nil]
        exact takenBefore_disjunction hleft
      · exact takenBefore_implies hleft hright
  | disjunction => exact @takenBefore_joined [.or] _ (by decide) _ .conjunction rfl _ h
  | conjunction => exact @takenBefore_joined [.and] _ (by decide) _ .equality rfl _ h
  | equality => exact @takenBefore_joined [.equal, .notEqual] _ (by decide) _ .unary rfl _ h
  | unary =>
      rcases h with ⟨_, operand, rfl, rfl, hoperand⟩ | h | h
      · exact takenBefore_not hoperand
      · exact h
      · exact h
  | temporal => exact takenBefore_temporal h
  | primary =>
      rcases h with ⟨_, _, rfl, rfl, inner, _, rfl, hinner, rfl⟩ | h
      · exact takenBefore_grouped hinner
      · exact h
  | terminal =>
      obtain ⟨first, _, rfl, hfirst, others, rfl, hothers⟩ := h
      exact takenBefore_terminal hfirst hothers
  | piece =>
      rcases h with ⟨text, htext, rfl⟩ | ⟨text, htext, rfl⟩ | ⟨bracket, inner, rfl, hinner, htaken⟩
      · exact .word htext
      · exact .symbol htext
      · exact .group bracket hinner htaken
  | group => rcases h with h | h <;> exact taken_group h
  | groupToken => exact taken_groupToken h
  | word => exact h
  | symbol => exact h

/-- A derivable formula is read to its end in front of the end of the text, unless it nests too
deep. -/
theorem takes_predicate_of_derives {used : List Lexeme} (h : Derives (.rule .predicate) used)
    (room : Nat) : Takes (predicate room) used [] :=
  h.matches taken_closed room [] (follow_nil _)

end Grammar

namespace Formula

/-- A text that the grammar derives is accepted, or it nests too deep. It is never rejected for a
mismatch or for what is left over. -/
theorem parse_of_derives {text : String}
    (h : Grammar.Derives (.rule .predicate) (Lexeme.lexemes text)) :
    (∃ formula, parse text = .ok formula) ∨ ∃ place, parse text = .error (.tooDeep place) := by
  unfold parse parseWithin
  rcases Grammar.takes_predicate_of_derives h (Grammar.maxDepth + 1) with
    ⟨formula, hread⟩ | ⟨left, hread⟩
  · rw [List.append_nil] at hread
    exact Or.inl ⟨formula, by rw [hread]⟩
  · rw [List.append_nil] at hread
    exact Or.inr ⟨_, by rw [hread]⟩

set_option maxRecDepth 20000 in
theorem parse_of_derives_parenthesized :
    Grammar.Derives (.rule .predicate) (Lexeme.lexemes "(a && b) || (c + (d)) * e -> ((f, g))") ∧
      ((∃ formula, parse "(a && b) || (c + (d)) * e -> ((f, g))" = .ok formula) ∨
        ∃ place, parse "(a && b) || (c + (d)) * e -> ((f, g))" = .error (.tooDeep place)) := by
  let formula : Formula := .binary .implies
    (.binary (.connective .or)
      (.grouped (.binary (.connective .and) (.terminal [.word "a"]) (.terminal [.word "b"])))
      (.terminal [.group .round [.word "c", .symbol "+", .group .round [.word "d"]], .symbol "*",
        .word "e"]))
    (.terminal [.group .round [.group .round [.word "f", .symbol ",", .word "g"]]])
  have hlexemes : Lexeme.lexemes "(a && b) || (c + (d)) * e -> ((f, g))" = formula.lexemes := by
    decide +kernel
  have h : Grammar.Derives (.rule .predicate)
      (Lexeme.lexemes "(a && b) || (c + (d)) * e -> ((f, g))") := by
    rw [hlexemes]
    exact Grammar.derives_predicate (by decide)
  exact ⟨h, parse_of_derives h⟩

end Formula

end PastTime

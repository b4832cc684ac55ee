import PastTime.Proofs.Formula.Completeness

/-!
# What stands behind a balanced sequence

On a balanced sequence of lexemes a parser of the grammar looks at most at the one lexeme behind it,
and if this lexeme can end the sequence it is refused like the end of the text. What is read, and
where a mismatch arises, is therefore the same whatever stands behind. A repetition or a choice that
was made in a text is made again where the text is part of a longer one.
-/

namespace PastTime

variable {α β : Type}

/-- The reply with further lexemes behind those that are left. -/
def Reply.behind (tail : List Lexeme) : Reply α → Reply α
  | ok value rest => ok value (rest ++ tail)
  | mismatch rest => mismatch (rest ++ tail)
  | tooDeep rest => tooDeep (rest ++ tail)

namespace Grammar

open PastTime.Parser

/-- What the parser makes of a balanced sequence does not depend on what stands behind it, be it
nothing or one of the marks. What it leaves of the sequence is balanced. -/
structure Local (marks : List String) (parser : Parser α) : Prop where
  behind {inner tail : List Lexeme} : Balanced inner → Follow marks tail →
    parser (inner ++ tail) = (parser inner).behind tail
  balanced {inner rest : List Lexeme} {value : α} : Balanced inner →
    parser inner = .ok value rest → Balanced rest

/-- The same of a parser that starts inside a bracket and reads its closing bracket. -/
structure Closes (bracket : Bracket) (marks : List String) (parser : Parser α) : Prop where
  behind {inner after tail : List Lexeme} : Balanced inner → Balanced after → Follow marks tail →
    parser (inner ++ .mark bracket.closing :: (after ++ tail)) =
      (parser (inner ++ .mark bracket.closing :: after)).behind tail
  balanced {inner after rest : List Lexeme} {value : α} : Balanced inner → Balanced after →
    parser (inner ++ .mark bracket.closing :: after) = .ok value rest → Balanced rest

/-! ## Single lexemes -/

theorem next_behind {marks : List String} {meaning : Lexeme → Option α}
    (hmarks : ∀ text ∈ marks, meaning (.mark text) = none) (inner : List Lexeme)
    {tail : List Lexeme} (htail : Follow marks tail) :
    next meaning (inner ++ tail) = (next meaning inner).behind tail := by
  cases inner with
  | nil =>
      cases tail with
      | nil => rfl
      | cons lexeme rest =>
          obtain ⟨text, htext, rfl⟩ := htail lexeme rfl
          simp [next, hmarks text htext, Reply.behind]
  | cons lexeme rest =>
      cases hmeaning : meaning lexeme with
      | none => simp [next, hmeaning, Reply.behind]
      | some value => simp [next, hmeaning, Reply.behind]

namespace Local

variable {marks : List String} {parser : Parser α}

theorem pure (value : α) : Local marks (pure value) where
  behind _ _ := rfl
  balanced hinner hok := by
    obtain ⟨-, rfl⟩ := pure_eq_ok.mp hok
    exact hinner

theorem mismatch : Local marks (mismatch : Parser α) where
  behind _ _ := rfl
  balanced _ hok := by cases hok

theorem tooDeep : Local marks (tooDeep : Parser α) where
  behind _ _ := rfl
  balanced _ hok := by cases hok

/-- One lexeme that is no bracket. -/
theorem next {meaning : Lexeme → Option α} (hmarks : ∀ text ∈ marks, meaning (.mark text) = none)
    (hplain : ∀ lexeme value, meaning lexeme = some value → IsPlain lexeme) :
    Local marks (Parser.next meaning) where
  behind _ htail := next_behind hmarks _ htail
  balanced hinner hok := by
    obtain ⟨lexeme, rfl, hmeaning⟩ := next_eq_ok hok
    exact hinner.of_plain (hplain lexeme _ hmeaning)

theorem expect {lexeme : Lexeme} (hmarks : ∀ text ∈ marks, .mark text ≠ lexeme)
    (hplain : IsPlain lexeme) : Local marks (expect lexeme) := by
  refine Local.next (fun text htext => if_neg (hmarks text htext)) ?_
  intro found value hfound
  split at hfound
  next heq => exact heq ▸ hplain
  next => cases hfound

/-! ## Combinators -/

theorem bind {next : α → Parser β} (hparser : Local marks parser)
    (hnext : ∀ value, Local marks (next value)) : Local marks (parser >>= next) where
  behind {inner tail} hinner htail := by
    rw [bind_apply, bind_apply, hparser.behind hinner htail]
    cases hreply : parser inner with
    | ok value rest => exact (hnext value).behind (hparser.balanced hinner hreply) htail
    | mismatch rest => rfl
    | tooDeep rest => rfl
  balanced hinner hok := by
    obtain ⟨value, middle, hvalue, hrest⟩ := bind_eq_ok.mp hok
    exact (hnext value).balanced (hparser.balanced hinner hvalue) hrest

theorem map (hparser : Local marks parser) (f : α → β) :
    Local marks (do let value ← parser; return f value) :=
  hparser.bind fun value => pure (f value)

theorem orElse {first second : Parser α} (hfirst : Local marks first)
    (hsecond : Local marks second) : Local marks (first <|> second) where
  behind {inner tail} hinner htail := by
    change Parser.orElse first second _ = (Parser.orElse first second _).behind tail
    unfold Parser.orElse
    rw [hfirst.behind hinner htail]
    cases first inner with
    | ok value rest => rfl
    | mismatch rest => exact hsecond.behind hinner htail
    | tooDeep rest => rfl
  balanced hinner hok := by
    rcases orElse_eq_ok hok with hok | hok
    · exact hfirst.balanced hinner hok
    · exact hsecond.balanced hinner hok

theorem optional (hparser : Local marks parser) : Local marks (optional parser) where
  behind {inner tail} hinner htail := by
    unfold Parser.optional
    rw [hparser.behind hinner htail]
    cases parser inner <;> rfl
  balanced hinner hok := by
    rcases optional_eq_ok hok with ⟨value, -, hvalue⟩ | ⟨-, rfl⟩
    · exact hparser.balanced hinner hvalue
    · exact hinner

/-- A look-ahead may also be at a bracket, since it takes nothing. -/
theorem notFollowedBy
    (hbehind : ∀ {inner tail}, Balanced inner → Follow marks tail →
      parser (inner ++ tail) = (parser inner).behind tail) :
    Local marks (notFollowedBy parser) where
  behind {inner tail} hinner htail := by
    unfold Parser.notFollowedBy
    rw [hbehind hinner htail]
    cases parser inner <;> rfl
  balanced hinner hok := by
    cases notFollowedBy_eq_ok hok
    exact hinner

theorem collect {step : Parser (Option α)} (hstep : Local marks step) :
    Local marks (collect step) where
  behind {inner tail} hinner htail := by
    induction hlength : inner.length using Nat.strongRecOn generalizing inner with
    | ind length ih =>
        rw [Parser.collect, Parser.collect, hstep.behind hinner htail]
        cases hreply : step inner with
        | mismatch rest => rfl
        | tooDeep rest => rfl
        | ok found rest =>
            cases found with
            | none => rfl
            | some value =>
                simp only [Reply.behind, List.length_append, Nat.add_lt_add_iff_right]
                split
                next hlt =>
                  rw [ih rest.length (hlength ▸ hlt) (hstep.balanced hinner hreply) rfl]
                  cases Parser.collect step rest <;> rfl
                next => rfl
  balanced {inner rest values} hinner hok := by
    fun_induction Parser.collect step inner generalizing rest values with
    | case1 inner left heq =>
        cases hok
        exact hstep.balanced hinner heq
    | case2 inner value left heq hlt ih =>
        cases hleft : Parser.collect step left with
        | ok others last =>
            rw [hleft] at hok
            cases hok
            exact ih (hstep.balanced hinner heq) hleft
        | mismatch last => rw [hleft] at hok; cases hok
        | tooDeep last => rw [hleft] at hok; cases hok
    | case3 | case4 | case5 => cases hok

theorem many (hparser : Local marks parser) : Local marks (many parser) := hparser.optional.collect

theorem many1 (hparser : Local marks parser) : Local marks (many1 parser) :=
  hparser.bind fun first => hparser.many.map (first :: ·)

end Local

/-! ## Brackets -/

namespace Closes

variable {bracket : Bracket} {marks : List String}

/-- What is left before the closing bracket is refused; else the reading goes on behind it. -/
theorem expect {next : Unit → Parser α} (hnext : Local marks (next ())) :
    Closes bracket marks (expect (.mark bracket.closing) >>= next) where
  behind {inner after tail} hinner hafter htail := by
    rw [bind_apply, bind_apply]
    cases inner with
    | nil =>
        rw [List.nil_append, List.nil_append, expect_cons, expect_cons]
        exact hnext.behind hafter htail
    | cons lexeme inner =>
        have hne := hinner.head_ne_closing bracket
        rw [List.cons_append, List.cons_append, expect_cons_of_ne hne, expect_cons_of_ne hne]
        simp [Reply.andThen, Reply.behind]
  balanced {inner after rest value} hinner hafter hok := by
    obtain ⟨_, middle, hclosing, hrest⟩ := bind_eq_ok.mp hok
    cases inner with
    | nil =>
        rw [List.nil_append, expect_cons] at hclosing
        cases hclosing
        exact hnext.balanced hafter hrest
    | cons lexeme inner =>
        rw [List.cons_append, expect_cons_of_ne (hinner.head_ne_closing bracket)] at hclosing
        cases hclosing

theorem bind {inside : List String} {parser : Parser α} {next : α → Parser β}
    (hparser : Local inside parser) (hclosing : bracket.closing ∈ inside)
    (hnext : ∀ value, Closes bracket marks (next value)) :
    Closes bracket marks (parser >>= next) where
  behind {inner after tail} hinner hafter htail := by
    rw [bind_apply, bind_apply, hparser.behind hinner (follow_cons hclosing _),
      hparser.behind hinner (follow_cons hclosing _)]
    cases hreply : parser inner with
    | ok value rest =>
        exact (hnext value).behind (hparser.balanced hinner hreply) hafter htail
    | mismatch rest => simp [Reply.andThen, Reply.behind]
    | tooDeep rest => simp [Reply.andThen, Reply.behind]
  balanced {inner after rest value} hinner hafter hok := by
    rw [bind_apply, hparser.behind hinner (follow_cons hclosing _)] at hok
    cases hreply : parser inner with
    | ok value left =>
        rw [hreply] at hok
        exact (hnext value).balanced (hparser.balanced hinner hreply) hafter hok
    | mismatch left => rw [hreply] at hok; cases hok
    | tooDeep left => rw [hreply] at hok; cases hok

end Closes

/-- A bracket together with what it encloses. -/
theorem Local.bracket (bracket : Bracket) {marks : List String} {next : Unit → Parser α}
    (hmarks : bracket.opening ∉ marks) (hnext : Closes bracket marks (next ())) :
    Local marks (Parser.expect (.mark bracket.opening) >>= next) where
  behind {inner tail} hinner htail := by
    cases inner with
    | nil =>
        cases tail with
        | nil => rfl
        | cons lexeme rest =>
            obtain ⟨text, htext, rfl⟩ := htail lexeme rfl
            have hne : Lexeme.mark text ≠ .mark bracket.opening := by
              rintro ⟨⟩
              exact hmarks htext
            rw [List.nil_append, bind_apply, expect_cons_of_ne hne]
            rfl
    | cons lexeme inner =>
        by_cases hopening : lexeme = .mark bracket.opening
        · obtain ⟨inner, after, rfl, hinner, hafter⟩ := (hopening ▸ hinner).of_opening
          rw [List.cons_append, List.append_assoc, List.cons_append, hopening, bind_apply,
            bind_apply, expect_cons, expect_cons]
          exact hnext.behind hinner hafter htail
        · rw [List.cons_append, bind_apply, bind_apply, expect_cons_of_ne hopening,
            expect_cons_of_ne hopening]
          rfl
  balanced {inner rest value} hinner hok := by
    obtain ⟨_, middle, hopening, hrest⟩ := bind_eq_ok.mp hok
    obtain ⟨lexeme, rfl, hlexeme⟩ := next_eq_ok hopening
    obtain rfl : lexeme = .mark bracket.opening := by simpa using hlexeme
    obtain ⟨inner, after, rfl, hinner, hafter⟩ := hinner.of_opening
    exact hnext.balanced hinner hafter hrest

/-! ## Terminals -/

theorem local_word (marks : List String) : Local marks word := by
  refine Local.next (fun _ _ => rfl) ?_
  intro lexeme token hlexeme
  cases lexeme with
  | word text => exact isPlain_word text
  | mark text => cases hlexeme

theorem local_markAmong {marks allowed : List String} (hmarks : ∀ text ∈ marks, text ∉ allowed)
    (hallowed : ∀ text ∈ allowed, text ∉ ["(", ")", "[", "]"]) :
    Local marks (markAmong allowed) := by
  refine Local.next (fun text htext => if_neg (hmarks text htext)) ?_
  intro lexeme token hlexeme
  cases lexeme with
  | word text => cases hlexeme
  | mark text =>
      simp only [Option.ite_none_right_eq_some] at hlexeme
      exact isPlain_mark (hallowed text hlexeme.1)

theorem local_tokenOf {marks allowed : List String} {inside : Parser Token}
    (hinside : Local marks inside) (hmarks : ∀ text ∈ marks, text ∉ allowed)
    (hallowed : ∀ text ∈ allowed, text ∉ ["(", ")", "[", "]"]) :
    Local marks (tokenOf allowed inside) :=
  hinside.orElse ((local_word _).orElse (local_markAmong hmarks hallowed))

theorem local_delimited (bracket : Bracket) {marks : List String}
    (hopening : bracket.opening ∉ marks) {token : Parser Token} (htoken : Local [")", "]"] token) :
    Local marks (delimited bracket token) := by
  refine Local.bracket bracket hopening (Closes.bind htoken.many ?_ fun tokens => ?_)
  · cases bracket <;> decide
  · exact Closes.expect (Local.pure _)

theorem local_group (room : Nat) {marks : List String}
    (hmarks : ∀ text ∈ marks, opening? (.mark text) = none) : Local marks (group room) := by
  induction room generalizing marks with
  | zero =>
      have hlook : Local marks (notFollowedBy (next opening?)) :=
        Local.notFollowedBy fun _ htail => next_behind hmarks _ htail
      exact (hlook.orElse Local.tooDeep).bind fun _ => Local.mismatch
  | succ room ih =>
      have htoken : Local [")", "]"] (groupToken room) :=
        local_tokenOf (ih (by decide)) (by decide) (by decide)
      have hopening (bracket : Bracket) : bracket.opening ∉ marks :=
        fun hmem => ne_opening (hmarks _ hmem) bracket rfl
      exact (local_delimited .round (hopening _) htoken).orElse
        (local_delimited .square (hopening _) htoken)

theorem local_groupToken (room : Nat) : Local [")", "]"] (groupToken room) :=
  local_tokenOf (local_group room (by decide)) (by decide) (by decide)

theorem local_piece (room : Nat) : Local behindPredicate (piece room) :=
  local_tokenOf (local_group room (by decide)) (by decide) (by decide)

theorem local_terminal (room : Nat) : Local behindPredicate (terminal (piece room)) :=
  (local_piece room).many1.map Formula.terminal

/-! ## Operators -/

/-- A connective is no bracket. -/
theorem isPlain_of_find? {connectives : List Connective} {lexeme : Lexeme} {c : Connective}
    (h : (connectives.find? fun c => lexeme = .mark c.symbol) = some c) : IsPlain lexeme := by
  have hlexeme : lexeme = .mark c.symbol := by simpa using List.find?_some h
  rw [hlexeme]
  exact isPlain_mark (by cases c <;> decide)

section

variable {unary predicate operand : Parser Formula}

theorem local_link (h : Local behindPredicate operand) (connectives : List Connective) :
    Local behindPredicate (link connectives operand) := by
  have hconnective : Local behindPredicate
      (next fun lexeme => connectives.find? fun c => lexeme = .mark c.symbol) := by
    refine Local.next ?_ ?_
    · intro text htext
      refine List.find?_eq_none.mpr fun c _ => ?_
      simp only [Lexeme.mark.injEq, decide_eq_true_eq]
      rintro rfl
      exact absurd htext (by cases c <;> decide)
    · exact fun lexeme c hfound => isPlain_of_find? hfound
  refine hconnective.optional.bind fun found => ?_
  cases found with
  | none => exact Local.pure none
  | some c => exact h.map fun right => some (c, right)

theorem local_chain (h : Local behindPredicate operand) (connectives : List Connective) :
    Local behindPredicate (chain connectives operand) :=
  h.bind fun _ => (local_link h connectives).collect.map _

theorem local_implication (hunary : Local behindPredicate unary)
    (hpredicate : Local behindPredicate predicate) :
    Local behindPredicate (implication unary predicate) := by
  have hdisjunction : Local behindPredicate (disjunction unary) :=
    local_chain (local_chain (local_chain hunary _) _) _
  have harrow : Local behindPredicate (expect (.mark "->")) :=
    Local.expect (by decide) (isPlain_mark (by decide))
  refine hdisjunction.bind fun left =>
    (harrow.bind fun _ => hpredicate).optional.bind fun found => ?_
  cases found with
  | none => exact Local.pure left
  | some right => exact Local.pure (Formula.binary .implies left right)

theorem local_negation (h : Local behindPredicate unary) : Local behindPredicate (negation unary) :=
  (Local.expect (by decide) (isPlain_mark (by decide))).bind fun _ => h.map _

theorem local_application (h : Local behindPredicate predicate) (keyword : String) (op : UnaryOp) :
    Local behindPredicate (application keyword op predicate) :=
  (Local.expect (by simp) (isPlain_word keyword)).bind fun _ =>
    Local.bracket .round (by decide) <| Closes.bind h (by decide) fun _ =>
      Closes.expect (Local.pure _)

theorem local_since (h : Local behindPredicate predicate) :
    Local behindPredicate (since predicate) := by
  have hcomma : Local [")"] (expect (.mark ",")) :=
    Local.expect (by decide) (isPlain_mark (by decide))
  refine (Local.expect (by simp) (isPlain_word "since")).bind fun _ =>
    Local.bracket .round (by decide) ?_
  refine Closes.bind h (by decide) fun left => Closes.bind hcomma (by decide) fun _ => ?_
  exact Closes.bind h (by decide) fun right => Closes.expect (Local.pure _)

theorem local_temporal (h : Local behindPredicate predicate) :
    Local behindPredicate (temporal predicate) :=
  (local_application h _ _).orElse ((local_application h _ _).orElse
    ((local_application h _ _).orElse (local_since h)))

theorem local_grouped (h : Local behindPredicate predicate) (room : Nat) :
    Local behindPredicate (grouped predicate (piece room)) := by
  have hlook : Local behindPredicate (notFollowedBy (piece room)) :=
    Local.notFollowedBy (local_piece room).behind
  exact Local.bracket .round (by decide) <| Closes.bind h (by decide) fun inner =>
    Closes.expect (hlook.map fun _ => Formula.grouped inner)

end

/-! ## Levels -/

theorem local_level (room : Nat) :
    Local behindPredicate (unary room) ∧ Local behindPredicate (predicate room) := by
  induction room with
  | zero => exact ⟨Local.tooDeep, Local.tooDeep⟩
  | succ room ih =>
      obtain ⟨hunary, hpredicate⟩ := ih
      have hnext : Local behindPredicate (unary (room + 1)) :=
        (local_negation hunary).orElse ((local_temporal hpredicate).orElse
          ((local_grouped hpredicate room).orElse (local_terminal room)))
      exact ⟨hnext, local_implication hnext hpredicate⟩

end Grammar

end PastTime

import PastTime.Proofs.Formula.Locality
import PastTime.Proofs.Formula.Rooms

/-!
# Reading a formula again

A formula that was read from a text is read again wherever its lexemes stand in front of something
that can end a formula, unless there is too little room. From this it follows how formulas are read
that are put together from formulas of accepted texts.
-/

namespace PastTime

namespace Grammar

open PastTime.Parser

/-- In front of the end and of each of the marks, the parser reads the formula from its lexemes,
unless it gives up. -/
def Rereads (marks : List String) (parser : Parser Formula) (formula : Formula) : Prop :=
  ∀ rest, Follow marks rest → (parser (formula.lexemes ++ rest)).Below (.ok formula rest)

/-- What was read to the end of a text is read again with no more room than there was. -/
theorem rereads_predicate_of_ok {room more : Nat} {formula : Formula} (hroom : room ≤ more)
    (h : predicate more formula.lexemes = .ok formula []) :
    Rereads behindPredicate (predicate room) formula := by
  intro rest hrest
  obtain ⟨_, _, _, hformula, _⟩ := (reads_level more).2 _ _ _ h
  have hbalanced := (derives_of_wellFormed hformula).balanced
  have hmore := (local_level more).2.behind hbalanced hrest
  rw [h] at hmore
  have hbelow := below_predicate hroom (formula.lexemes ++ rest)
  rw [hmore] at hbelow
  exact hbelow

/-! ## Formulas without outer connectives -/

section

variable {room : Nat} {formula : Formula}

theorem rereads_grouped (h : Rereads behindPredicate (predicate room) formula) :
    Rereads behindUnary (unary (room + 1)) (.grouped formula) := by
  intro rest hrest
  have hshape : (Formula.grouped formula).lexemes ++ rest =
      .mark "(" :: (formula.lexemes ++ .mark ")" :: rest) := by
    simp [Formula.lexemes]
  rw [unary_succ, hshape]
  refine orElse_below_right (refuses_negation (by simp) _) (orElse_below_right
    (refuses_temporal (by simp) _) (orElse_below_left ?_))
  refine expect_bind_below (bind_below (h _ (follow_cons (by decide) rest)) ?_)
  have hlook := notFollowedBy_of_refuses (refuses_piece room hrest)
  exact expect_bind_below (bind_below (Or.inl hlook) (Reply.Below.refl _))

theorem rereads_not (h : Rereads behindUnary (unary room) formula) :
    Rereads behindUnary (unary (room + 1)) (.unary .not formula) := by
  intro rest hrest
  rw [unary_succ]
  exact orElse_below_left (expect_bind_below (bind_below (h rest hrest) (Reply.Below.refl _)))

theorem application_below (h : Rereads behindPredicate (predicate room) formula) (keyword : String)
    (op : UnaryOp) (rest : List Lexeme) :
    (application keyword op (predicate room) (Lexeme.call keyword formula.lexemes ++ rest)).Below
      (.ok (.unary op formula) rest) := by
  have hshape : Lexeme.call keyword formula.lexemes ++ rest =
      .word keyword :: .mark "(" :: (formula.lexemes ++ .mark ")" :: rest) := by
    simp [Lexeme.call]
  rw [hshape]
  refine expect_bind_below (expect_bind_below (bind_below (h _ (follow_cons (by decide) rest)) ?_))
  exact expect_bind_below (Reply.Below.refl _)

theorem rereads_once (h : Rereads behindPredicate (predicate room) formula) :
    Rereads behindUnary (unary (room + 1)) (.unary .once formula) := by
  intro rest _
  rw [unary_succ]
  refine orElse_below_right (refuses_negation (by simp [Formula.lexemes, UnaryOp.write,
    Lexeme.call]) _) (orElse_below_left (orElse_below_right ?_ (orElse_below_left ?_)))
  · exact refuses_application (by decide) _ _ _ _
  · exact application_below h _ _ rest

theorem rereads_always (h : Rereads behindPredicate (predicate room) formula) :
    Rereads behindUnary (unary (room + 1)) (.unary .always formula) := by
  intro rest _
  rw [unary_succ]
  refine orElse_below_right (refuses_negation (by simp [Formula.lexemes, UnaryOp.write,
    Lexeme.call]) _) (orElse_below_left (orElse_below_right ?_ (orElse_below_right ?_
      (orElse_below_left ?_))))
  · exact refuses_application (by decide) _ _ _ _
  · exact refuses_application (by decide) _ _ _ _
  · exact application_below h _ _ rest

theorem rereads_since {left right : Formula}
    (hleft : Rereads behindPredicate (predicate room) left)
    (hright : Rereads behindPredicate (predicate room) right) :
    Rereads behindUnary (unary (room + 1)) (.binary .since left right) := by
  intro rest _
  have hrefused (keyword : String) (hkeyword : "since" ≠ keyword) (op : UnaryOp) :
      Refuses (application keyword op (predicate room))
        ((Formula.binary .since left right).lexemes ++ rest) :=
    refuses_application hkeyword op _ _ rest
  rw [unary_succ]
  refine orElse_below_right (refuses_negation (by simp [Formula.lexemes, BinaryOp.write,
    Lexeme.call]) _) (orElse_below_left ?_)
  refine orElse_below_right (hrefused _ (by decide) _) (orElse_below_right
    (hrefused _ (by decide) _) (orElse_below_right (hrefused _ (by decide) _) ?_))
  have hshape : (Formula.binary .since left right).lexemes ++ rest =
      .word "since" :: .mark "(" :: (left.lexemes ++ .mark "," ::
        (right.lexemes ++ .mark ")" :: rest)) := by
    simp [Formula.lexemes, BinaryOp.write, Lexeme.call]
  rw [hshape]
  refine expect_bind_below (expect_bind_below (bind_below (hleft _ (follow_cons (by decide) _)) ?_))
  refine expect_bind_below (bind_below (hright _ (follow_cons (by decide) rest)) ?_)
  exact expect_bind_below (Reply.Below.refl _)

/-- A word that is no keyword, as a terminal of its own. -/
theorem rereads_word {text : String} (h : text ∉ keywords) :
    Rereads behindUnary (unary (room + 1)) (.terminal [.word text]) := by
  intro rest hrest
  have hpiece : piece room (.word text :: rest) = .ok (.word text) rest := by
    obtain ⟨left, hgroup⟩ := @refuses_group room (.word text :: rest) (by rintro _ ⟨⟩; rfl)
    change orElse (group room) (orElse word (markAmong symbols)) _ = _
    simp [orElse, hgroup, word, Parsing.next, next, h]
  have hmany : many (piece room) rest = .ok [] rest := many_of_refuses (refuses_piece room hrest)
  rw [unary_succ]
  refine orElse_below_right (refuses_negation (by simp [Formula.lexemes, Token.lexemesAll,
    Token.lexemes]) _) (orElse_below_right (refuses_temporal ?_ _) (orElse_below_right
      (refuses_grouped (by simp [Formula.lexemes, Token.lexemesAll, Token.lexemes]) _ _) ?_))
  · rintro keyword hkeyword ⟨⟩
    exact h hkeyword
  · refine bind_below (bind_below (Or.inl hpiece) ?_) (Reply.Below.refl _)
    exact bind_below (Or.inl hmany) (Reply.Below.refl _)

end

/-! ## Connectives -/

section

variable {connectives : List Connective} {marks : List String} {operand : Parser Formula}

/-- A connective is read together with its right operand. -/
theorem link_below {c : Connective} (hc : c ∈ connectives) {right : Formula}
    {input rest : List Lexeme} (hright : (operand input).Below (.ok right rest)) :
    (link connectives operand (.mark c.symbol :: input)).Below (.ok (some (c, right)) rest) := by
  refine bind_below (Or.inl (optional_connective hc input)) ?_
  exact bind_below hright (Reply.Below.refl _)

/-- Behind an operand stands the next connective, or what stands behind the chain. -/
theorem follow_links {links : List (Connective × Formula)}
    (hlinks : ∀ link ∈ links, link.1 ∈ connectives) {rest : List Lexeme}
    (hrest : Follow marks rest) :
    Follow (connectives.map (·.symbol) ++ marks) (links.flatMap linkLexemes ++ rest) := by
  cases links with
  | nil => exact hrest.mono (List.subset_append_right _ _)
  | cons link links =>
      have hlink := hlinks link List.mem_cons_self
      exact follow_cons (List.mem_append_left _ (List.mem_map_of_mem hlink)) _

theorem collect_links_below (hmarks : ∀ c ∈ connectives, c.symbol ∉ marks)
    {links : List (Connective × Formula)}
    (hlinks : ∀ link ∈ links, link.1 ∈ connectives ∧
      Rereads (connectives.map (·.symbol) ++ marks) operand link.2)
    {rest : List Lexeme} (hrest : Follow marks rest) :
    (collect (link connectives operand) (links.flatMap linkLexemes ++ rest)).Below
      (.ok links rest) := by
  induction links with
  | nil =>
      rw [List.flatMap_nil, List.nil_append, collect, link_of_follow hmarks operand hrest]
      exact Reply.Below.refl _
  | cons link links ih =>
      obtain ⟨⟨hc, hright⟩, hlinks⟩ := List.forall_mem_cons.mp hlinks
      have hbehind := follow_links (fun other hother => (hlinks other hother).1) hrest
      have hinput : (link :: links).flatMap linkLexemes ++ rest = .mark link.1.symbol ::
          (link.2.lexemes ++ (links.flatMap linkLexemes ++ rest)) := by
        simp [linkLexemes]
      rw [hinput, collect]
      rcases link_below hc (hright _ hbehind) with hlink | ⟨left, hlink⟩
      · rw [hlink]
        have hlt : (links.flatMap linkLexemes ++ rest).length < (Lexeme.mark link.1.symbol ::
            (link.2.lexemes ++ (links.flatMap linkLexemes ++ rest))).length := by
          simp only [List.length_cons, List.length_append]
          omega
        simp only [hlt, ↓reduceIte]
        exact (ih hlinks).andThen_ok (Reply.Below.refl _)
      · rw [hlink]
        exact Or.inr ⟨left, rfl⟩

/-- The formula of a chain. -/
def joined (first : Formula) (links : List (Connective × Formula)) : Formula :=
  links.foldl (fun left (c, right) => .binary (.connective c) left right) first

theorem lexemes_joined (first : Formula) (links : List (Connective × Formula)) :
    (joined first links).lexemes = first.lexemes ++ links.flatMap linkLexemes := by
  induction links generalizing first with
  | nil => simp [joined]
  | cons link links ih =>
      change (joined (.binary (.connective link.1) first link.2) links).lexemes = _
      rw [ih]
      simp [Formula.lexemes, BinaryOp.write, linkLexemes]

theorem rereads_chain (hmarks : ∀ c ∈ connectives, c.symbol ∉ marks) {first : Formula}
    {links : List (Connective × Formula)}
    (hfirst : Rereads (connectives.map (·.symbol) ++ marks) operand first)
    (hlinks : ∀ link ∈ links, link.1 ∈ connectives ∧
      Rereads (connectives.map (·.symbol) ++ marks) operand link.2) :
    Rereads marks (chain connectives operand) (joined first links) := by
  intro rest hrest
  have hbehind := follow_links (fun link hlink => (hlinks link hlink).1) hrest
  rw [lexemes_joined, List.append_assoc]
  refine bind_below (hfirst _ hbehind) ?_
  exact bind_below (collect_links_below hmarks hlinks hrest) (Reply.Below.refl _)

end

/-! ## Whole formulas -/

section

variable {room : Nat} {formula : Formula}

theorem rereads_conjunction (h : Rereads behindUnary (unary room) formula) :
    Rereads behindConjunction (chain [.and] (chain [.equal, .notEqual] (unary room))) formula := by
  have hequality := @rereads_chain [.equal, .notEqual] behindEquality _ (by decide) _ [] h (by simp)
  exact @rereads_chain [.and] behindConjunction _ (by decide) _ [] hequality (by simp)

theorem rereads_disjunction (h : Rereads behindUnary (unary room) formula) :
    Rereads behindDisjunction (disjunction (unary room)) formula :=
  @rereads_chain [.or] behindDisjunction _ (by decide) _ [] (rereads_conjunction h) (by simp)

theorem rereads_or {left right : Formula} (hleft : Rereads behindUnary (unary room) left)
    (hright : Rereads behindUnary (unary room) right) :
    Rereads behindDisjunction (disjunction (unary room))
      (.binary (.connective .or) left right) := by
  refine @rereads_chain [.or] behindDisjunction _ (by decide) _ [(.or, right)]
    (rereads_conjunction hleft) ?_
  intro link hlink
  rw [List.mem_singleton] at hlink
  subst hlink
  exact ⟨List.mem_cons_self, rereads_conjunction hright⟩

/-- A formula that begins with no implication is a whole formula. -/
theorem rereads_predicate (h : Rereads behindDisjunction (disjunction (unary (room + 1))) formula) :
    Rereads behindPredicate (predicate (room + 1)) formula := by
  intro rest hrest
  have hno := refuses_arrow hrest (predicate room)
  have hbehind : Follow behindDisjunction rest := hrest.mono (List.subset_cons_self _ _)
  rw [predicate_succ]
  refine bind_below (h rest hbehind) ?_
  exact bind_below (Or.inl (optional_of_refuses hno)) (Reply.Below.refl _)

theorem rereads_implies {left right : Formula}
    (hleft : Rereads behindDisjunction (disjunction (unary (room + 1))) left)
    (hright : Rereads behindPredicate (predicate room) right) :
    Rereads behindPredicate (predicate (room + 1)) (.binary .implies left right) := by
  intro rest hrest
  have hshape : (Formula.binary .implies left right).lexemes ++ rest =
      left.lexemes ++ .mark "->" :: (right.lexemes ++ rest) := by
    simp [Formula.lexemes, BinaryOp.write]
  rw [predicate_succ, hshape]
  refine bind_below (hleft _ (follow_cons (by decide) _)) ?_
  exact bind_below (optional_below (expect_bind_below (hright rest hrest))) (Reply.Below.refl _)

end

end Grammar

/-! ## Texts -/

namespace Formula

open Grammar

/-- The formula of an accepted text is read again with no more room than a whole text has. -/
theorem rereads_of_parse {text : String} {formula : Formula} (h : parse text = .ok formula)
    {room : Nat} (hroom : room ≤ maxDepth + 1) :
    Rereads behindPredicate (predicate room) formula := by
  apply rereads_predicate_of_ok hroom
  rw [(lexemes_of_parseWithin h).1]
  exact parseWithin_eq_ok_iff.mp h

/-- A text with the lexemes of such a formula is accepted as this formula, or it nests too deep. -/
theorem parse_of_rereads {text : String} {formula : Formula}
    (h : Rereads behindPredicate (predicate (maxDepth + 1)) formula)
    (hlexemes : Lexeme.lexemes text = formula.lexemes) :
    parse text = .ok formula ∨ ∃ place, parse text = .error (.tooDeep place) := by
  have hread := h [] (follow_nil _)
  rw [List.append_nil, ← hlexemes] at hread
  unfold parse parseWithin
  rcases hread with heq | ⟨left, heq⟩
  · exact Or.inl (by rw [heq])
  · exact Or.inr ⟨_, by rw [heq]⟩

end Formula

end PastTime

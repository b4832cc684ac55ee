import PastTime.Formula.Parse
import PastTime.Proofs.Formula.Ebnf
import PastTime.Proofs.Parser.Reads

/-!
# Soundness of the grammar

What a parser of the grammar returns is written with the lexemes that it has taken, and it is well
formed. A text that is read as a formula therefore has exactly the lexemes of the formula.
-/

namespace PastTime

namespace Grammar

open PastTime.Parser

/-! ## Terminals -/

theorem reads_word (marks : List String) :
    Reads word (Printed Token.lexemes (Token.WellFormed marks)) := by
  apply (Reads.next _).mono
  intro token used h
  obtain ⟨lexeme, rfl, hmeaning⟩ := h
  cases lexeme with
  | word text =>
      simp only [Option.ite_none_left_eq_some, Option.some.injEq] at hmeaning
      obtain ⟨hkeyword, rfl⟩ := hmeaning
      exact ⟨rfl, hkeyword⟩
  | mark text => cases hmeaning

theorem reads_markAmong (marks : List String) :
    Reads (markAmong marks) (Printed Token.lexemes (Token.WellFormed marks)) := by
  apply (Reads.next _).mono
  intro token used h
  obtain ⟨lexeme, rfl, hmeaning⟩ := h
  cases lexeme with
  | word text => cases hmeaning
  | mark text =>
      simp only [Option.ite_none_right_eq_some, Option.some.injEq] at hmeaning
      obtain ⟨hmark, rfl⟩ := hmeaning
      exact ⟨rfl, hmark⟩

theorem reads_tokenOf {marks : List String} {inside : Parser Token}
    (h : Reads inside (Printed Token.lexemes (Token.WellFormed marks))) :
    Reads (tokenOf marks inside) (Printed Token.lexemes (Token.WellFormed marks)) :=
  h.orElse ((reads_word marks).orElse (reads_markAmong marks))

theorem reads_delimited (bracket : Bracket) (marks : List String) {token : Parser Token}
    (h : Reads token (Printed Token.lexemes (Token.WellFormed (innerSymbols ++ symbols)))) :
    Reads (delimited bracket token) (Printed Token.lexemes (Token.WellFormed marks)) := by
  apply ((h.many.bind fun tokens => (Reads.pure _).expect_bind _).expect_bind _).mono
  intro found used hused
  obtain ⟨_, rfl, tokens, _, _, rfl, ⟨rfl, htokens⟩, _, rfl, rfl, rfl⟩ := hused
  refine ⟨?_, Token.allWellFormed_iff.mpr htokens⟩
  simp [Token.lexemes, Token.lexemesAll_eq_flatMap]

/-- A group is well formed wherever it stands. -/
theorem reads_group (room : Nat) (marks : List String) :
    Reads (group room) (Printed Token.lexemes (Token.WellFormed marks)) := by
  induction room generalizing marks with
  | zero =>
      apply (((Reads.notFollowedBy _).orElse Reads.tooDeep).bind fun _ => Reads.mismatch).mono
      intro token used h
      obtain ⟨_, _, _, _, _, himpossible⟩ := h
      exact himpossible.elim
  | succ room ih =>
      have htoken := reads_tokenOf (ih (innerSymbols ++ symbols))
      exact (reads_delimited .round marks htoken).orElse (reads_delimited .square marks htoken)

theorem reads_piece (room : Nat) :
    Reads (piece room) (Printed Token.lexemes (Token.WellFormed symbols)) :=
  reads_tokenOf (reads_group room symbols)

theorem reads_groupToken (room : Nat) :
    Reads (groupToken room)
      (Printed Token.lexemes (Token.WellFormed (innerSymbols ++ symbols))) :=
  reads_tokenOf (reads_group room _)

/-! ## Operators -/

/-- The formula is written with the lexemes, is well formed, and binds at least as tightly. -/
abbrev Written (tightness : Nat) : Formula → List Lexeme → Prop :=
  Printed Formula.lexemes fun formula => formula.WellFormed ∧ tightness ≤ formula.tightness

theorem reads_terminal {piece : Parser Token}
    (hpiece : Reads piece (Printed Token.lexemes (Token.WellFormed symbols))) :
    Reads (terminal piece) (Written 4) := by
  apply (hpiece.many1.map Formula.terminal).mono
  intro formula used h
  obtain ⟨tokens, rfl, rfl, hne, htokens⟩ := h
  refine ⟨?_, ⟨hne, Token.allWellFormed_iff.mpr htokens⟩, Nat.le_refl _⟩
  rw [Formula.lexemes, Token.lexemesAll_eq_flatMap]

/-- A connective with the right operand that it is followed by. -/
def linkLexemes (link : Connective × Formula) : List Lexeme :=
  .mark link.1.symbol :: link.2.lexemes

/-- The connective is one of those that bind so tightly, and the operand binds tighter. -/
def LinkAllowed (tightness : Nat) (link : Connective × Formula) : Prop :=
  link.1.tightness = tightness ∧ link.2.WellFormed ∧ tightness < link.2.tightness

theorem reads_link {connectives : List Connective} {operand : Parser Formula} {tightness : Nat}
    (hconnectives : ∀ c ∈ connectives, c.tightness = tightness)
    (hoperand : Reads operand (Written (tightness + 1))) :
    Reads (link connectives operand) fun found used =>
      found.elim (used = []) (Printed linkLexemes (LinkAllowed tightness) · used) := by
  refine Reads.mono (Reads.optional_bind (Reads.next _) (Reads.pure none)
    fun c => hoperand.map fun right => some (c, right)) ?_
  intro result used h
  rcases h with ⟨rfl, rfl⟩ | ⟨c, _, _, rfl, ⟨lexeme, rfl, hfind⟩, right, rfl, rfl, hright⟩
  · rfl
  · have hsymbol : lexeme = .mark c.symbol := by simpa using List.find?_some hfind
    cases hsymbol
    exact ⟨rfl, hconnectives c (List.mem_of_find?_eq_some hfind), hright⟩

/-- Folding links to the left writes them behind each other. -/
theorem written_foldl {tightness : Nat} (links : List (Connective × Formula))
    (hlinks : ∀ link ∈ links, LinkAllowed tightness link) (first : Formula)
    (hfirst : first.WellFormed ∧ tightness ≤ first.tightness) :
    Written tightness
      (links.foldl (fun left (c, right) => .binary (.connective c) left right) first)
      (first.lexemes ++ links.flatMap linkLexemes) := by
  induction links generalizing first with
  | nil => exact ⟨List.append_nil _, hfirst⟩
  | cons link links ih =>
      obtain ⟨c, right⟩ := link
      obtain ⟨rfl, hright, htighter⟩ := hlinks _ List.mem_cons_self
      have hlater := ih (fun link hlink => hlinks link (List.mem_cons_of_mem _ hlink))
        (.binary (.connective c) first right)
        ⟨⟨hfirst.1, hright, hfirst.2, htighter⟩, Nat.le_refl _⟩
      refine ⟨?_, hlater.2⟩
      rw [List.foldl_cons, ← hlater.1]
      simp [Formula.lexemes, BinaryOp.write, linkLexemes]

theorem reads_chain {connectives : List Connective} {operand : Parser Formula} {tightness : Nat}
    (hconnectives : ∀ c ∈ connectives, c.tightness = tightness)
    (hoperand : Reads operand (Written (tightness + 1))) :
    Reads (chain connectives operand) (Written tightness) := by
  apply (hoperand.bind fun first => (reads_link hconnectives hoperand).collect.map _).mono
  intro formula used h
  obtain ⟨first, _, _, rfl, ⟨rfl, hfirst⟩, links, rfl, rfl, hlinks⟩ := h
  exact written_foldl links hlinks first ⟨hfirst.1, Nat.le_of_succ_le hfirst.2⟩

theorem reads_disjunction {unary : Parser Formula} (hunary : Reads unary (Written 4)) :
    Reads (disjunction unary) (Written 1) := by
  refine reads_chain (by decide) (reads_chain (by decide) (reads_chain (by decide) hunary))

theorem reads_implication {unary consequent : Parser Formula} (hunary : Reads unary (Written 4))
    (hconsequent : Reads consequent (Written 0)) :
    Reads (implication unary consequent) (Written 0) := by
  refine Reads.mono (Reads.bind (reads_disjunction hunary) fun left =>
    Reads.optional_bind (hconsequent.expect_bind _) (Reads.pure left)
      fun right => Reads.pure (Formula.binary .implies left right)) ?_
  intro formula used h
  obtain ⟨left, _, _, rfl, ⟨rfl, hleft⟩, hrest⟩ := h
  rcases hrest with ⟨rfl, rfl⟩ | ⟨right, _, _, rfl, ⟨_, rfl, rfl, hright⟩, rfl, rfl⟩
  · exact ⟨by simp, hleft.1, Nat.zero_le _⟩
  · refine ⟨?_, ⟨hleft.1, hright.1, hleft.2⟩, Nat.zero_le _⟩
    simp [Formula.lexemes, BinaryOp.write]

theorem reads_negation {unary : Parser Formula} (hunary : Reads unary (Written 4)) :
    Reads (negation unary) (Written 4) := by
  apply ((hunary.map (Formula.unary .not)).expect_bind _).mono
  intro formula used h
  obtain ⟨_, rfl, operand, rfl, rfl, hoperand⟩ := h
  refine ⟨?_, ⟨hoperand.1, Nat.le_antisymm operand.tightness_le hoperand.2⟩, Nat.le_refl _⟩
  simp [Formula.lexemes, UnaryOp.write]

/-- The law of `previously`, `once` and `always`. -/
theorem reads_application (keyword : String) (op : UnaryOp) {predicate : Parser Formula}
    (hwrite : ∀ operand, op.write operand = Lexeme.call keyword operand)
    (hallowed : ∀ operand : Formula, operand.WellFormed → (Formula.unary op operand).WellFormed)
    (hpredicate : Reads predicate (Written 0)) :
    Reads (application keyword op predicate) (Written 4) := by
  apply (((hpredicate.bind fun operand => (Reads.pure _).expect_bind _).expect_bind _).expect_bind
    _).mono
  intro formula used h
  obtain ⟨_, rfl, _, rfl, operand, _, _, rfl, ⟨rfl, hoperand⟩, _, rfl, rfl, rfl⟩ := h
  refine ⟨?_, hallowed operand hoperand.1, Nat.le_refl _⟩
  simp [Formula.lexemes, hwrite, Lexeme.call]

theorem reads_since {predicate : Parser Formula} (hpredicate : Reads predicate (Written 0)) :
    Reads (since predicate) (Written 4) := by
  have hsecond (left : Formula) := (hpredicate.bind fun right =>
    (Reads.pure (Formula.binary .since left right)).expect_bind (.mark ")")).expect_bind (.mark ",")
  apply (((hpredicate.bind hsecond).expect_bind _).expect_bind _).mono
  intro formula used h
  obtain ⟨_, rfl, _, rfl, left, _, _, rfl, ⟨rfl, hleft⟩, _, rfl, right, _, _, rfl, ⟨rfl, hright⟩,
    _, rfl, rfl, rfl⟩ := h
  refine ⟨?_, ⟨hleft.1, hright.1⟩, Nat.le_refl _⟩
  simp [Formula.lexemes, BinaryOp.write, Lexeme.call]

theorem reads_temporal {predicate : Parser Formula} (hpredicate : Reads predicate (Written 0)) :
    Reads (temporal predicate) (Written 4) := by
  have hpreviously := reads_application "previously" .previously (fun _ => rfl) (fun _ h => h)
    hpredicate
  have honce := reads_application "once" .once (fun _ => rfl) (fun _ h => h) hpredicate
  have halways := reads_application "always" .always (fun _ => rfl) (fun _ h => h) hpredicate
  exact hpreviously.orElse (honce.orElse (halways.orElse (reads_since hpredicate)))

theorem reads_grouped {predicate : Parser Formula} (hpredicate : Reads predicate (Written 0))
    (piece : Parser Token) : Reads (grouped predicate piece) (Written 4) := by
  apply ((hpredicate.bind fun inner =>
    ((Reads.notFollowedBy _).map fun _ => Formula.grouped inner).expect_bind _).expect_bind _).mono
  intro formula used h
  obtain ⟨_, rfl, inner, _, _, rfl, ⟨rfl, hinner⟩, _, rfl, _, rfl, rfl⟩ := h
  refine ⟨?_, hinner.1, Nat.le_refl _⟩
  simp [Formula.lexemes]

/-! ## Levels -/

/-- Whatever room is left, both parsers of a level return well-formed formulas. -/
theorem reads_level (room : Nat) :
    Reads (unary room) (Written 4) ∧ Reads (predicate room) (Written 0) := by
  induction room with
  | zero => exact ⟨Reads.tooDeep, Reads.tooDeep⟩
  | succ room ih =>
      obtain ⟨hunary, hpredicate⟩ := ih
      have hnext : Reads (unary (room + 1)) (Written 4) :=
        (reads_negation hunary).orElse ((reads_temporal hpredicate).orElse
          ((reads_grouped hpredicate _).orElse (reads_terminal (reads_piece room))))
      exact ⟨hnext, reads_implication hnext hpredicate⟩

end Grammar

namespace Formula

theorem parseWithin_eq_ok_iff {room : Nat} {text : String} {formula : Formula} :
    parseWithin room text = .ok formula ↔
      Grammar.predicate room (Lexeme.lexemes text) = .ok formula [] := by
  constructor
  · intro h
    unfold parseWithin at h
    split at h
    next found heq =>
      cases h
      exact heq
    all_goals cases h
  · intro h
    simp only [parseWithin, h]

/-- A text with room for enough levels is read as a formula that is written with exactly its
lexemes and is well formed. -/
theorem lexemes_of_parseWithin {room : Nat} {text : String} {formula : Formula}
    (h : parseWithin room text = .ok formula) :
    formula.lexemes = Lexeme.lexemes text ∧ formula.WellFormed := by
  obtain ⟨used, hused, rfl, hformula, _⟩ :=
    (Grammar.reads_level room).2 _ _ _ (parseWithin_eq_ok_iff.mp h)
  rw [List.append_nil] at hused
  exact ⟨hused.symm, hformula⟩

/-- An accepted text has exactly the lexemes of its formula, in their order. The formula has the
precedence of the grammar, its terminals hold only what may stand in them, and the grammar derives
the text. -/
theorem lexemes_of_parse {text : String} {formula : Formula} (h : parse text = .ok formula) :
    formula.lexemes = Lexeme.lexemes text ∧ formula.WellFormed ∧
      Grammar.Derives (.rule .predicate) (Lexeme.lexemes text) := by
  obtain ⟨hlexemes, hformula⟩ := lexemes_of_parseWithin h
  refine ⟨hlexemes, hformula, ?_⟩
  rw [← hlexemes]
  exact Grammar.derives_predicate hformula

set_option maxRecDepth 20000 in
theorem lexemes_of_parse_nested :
    ∃ formula, parse "a||b && !(c [1,!d]+e) != f->since(g h,previously (i))" = .ok formula ∧
      formula.lexemes = Lexeme.lexemes "a||b && !(c [1,!d]+e) != f->since(g h,previously (i))" ∧
      formula.WellFormed ∧ Grammar.Derives (.rule .predicate)
        (Lexeme.lexemes "a||b && !(c [1,!d]+e) != f->since(g h,previously (i))") := by
  have h : parse "a||b && !(c [1,!d]+e) != f->since(g h,previously (i))" =
      .ok (.binary .implies
        (.binary (.connective .or) (.terminal [.word "a"])
          (.binary (.connective .and) (.terminal [.word "b"])
            (.binary (.connective .notEqual)
              (.unary .not (.grouped (.terminal [.word "c",
                .group .square [.word "1", .symbol ",", .symbol "!", .word "d"], .symbol "+",
                .word "e"])))
              (.terminal [.word "f"]))))
        (.binary .since (.terminal [.word "g", .word "h"])
          (.unary .previously (.terminal [.word "i"])))) :=
    parseWithin_eq_ok_iff.mpr (by decide +kernel)
  exact ⟨_, h, lexemes_of_parse h⟩

end Formula

end PastTime

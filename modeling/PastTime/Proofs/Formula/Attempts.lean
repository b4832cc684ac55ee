import PastTime.Proofs.Formula.Levels
import PastTime.Proofs.Formula.Locality

/-!
# Attempts at formulas in parentheses

Parentheses at the beginning of a terminal are first tried as a formula in parentheses, and this
attempt can open more levels than the terminal has. A formula is read with some room if and only if
its levels fit and each of these attempts comes to an end.
-/

namespace PastTime

namespace Formula

/-- With the given room, no attempt to read the parentheses that begin a terminal as a formula gives
up the whole reading. -/
def AttemptsFit : Formula → (room : Nat) → Prop
  | terminal (.group .round tokens :: _), room =>
    ∀ left, Grammar.predicate (room - 1) (Token.lexemesAll tokens) ≠ .tooDeep left
  | terminal _, _ => True
  | grouped inner, room => inner.AttemptsFit (room - 1)
  | unary _ operand, room => operand.AttemptsFit (room - 1)
  | binary .implies left right, room => left.AttemptsFit room ∧ right.AttemptsFit (room - 1)
  | binary (.connective _) left right, room => left.AttemptsFit room ∧ right.AttemptsFit room
  | binary .since left right, room =>
    left.AttemptsFit (room - 1) ∧ right.AttemptsFit (room - 1)

/-- The formula can be read with the given room. -/
structure Fits (formula : Formula) (room : Nat) : Prop where
  levels : formula.levels < room
  attempts : formula.AttemptsFit room

namespace Fits

variable {room : Nat} {inner operand left right : Formula}

theorem of_grouped (h : (grouped inner).Fits (room + 1)) : inner.Fits room :=
  ⟨Nat.lt_of_succ_lt_succ h.levels, h.attempts⟩

theorem of_unary {op : UnaryOp} (h : (unary op operand).Fits (room + 1)) : operand.Fits room :=
  ⟨Nat.lt_of_succ_lt_succ h.levels, h.attempts⟩

theorem of_implies (h : (binary .implies left right).Fits (room + 1)) :
    left.Fits (room + 1) ∧ right.Fits room := by
  obtain ⟨hleft, hright⟩ := Nat.max_lt.mp h.levels
  exact ⟨⟨hleft, h.attempts.1⟩, ⟨Nat.lt_of_succ_lt_succ hright, h.attempts.2⟩⟩

theorem of_connective {c : Connective} (h : (binary (.connective c) left right).Fits room) :
    left.Fits room ∧ right.Fits room := by
  obtain ⟨hleft, hright⟩ := Nat.max_lt.mp h.levels
  exact ⟨⟨hleft, h.attempts.1⟩, ⟨hright, h.attempts.2⟩⟩

theorem of_since (h : (binary .since left right).Fits (room + 1)) :
    left.Fits room ∧ right.Fits room := by
  obtain ⟨hleft, hright⟩ := Nat.max_lt.mp (Nat.lt_of_succ_lt_succ h.levels)
  exact ⟨⟨hleft, h.attempts.1⟩, ⟨hright, h.attempts.2⟩⟩

theorem of_links {first : Formula} {links : List (Connective × Formula)}
    (h : (links.foldl (fun left (c, right) => binary (.connective c) left right) first).Fits room) :
    first.Fits room ∧ ∀ link ∈ links, link.2.Fits room := by
  induction links generalizing first with
  | nil => exact ⟨h, by simp⟩
  | cons link links ih =>
      obtain ⟨hbinary, hlinks⟩ := ih h
      obtain ⟨hfirst, hlink⟩ := hbinary.of_connective
      exact ⟨hfirst, List.forall_mem_cons.mpr ⟨hlink, hlinks⟩⟩

end Fits

end Formula

namespace Grammar

open PastTime.Parser

/-! ## What was read fits -/

theorem balanced_lexemesAll {tokens : List Token}
    (h : Token.AllWellFormed (innerSymbols ++ symbols) tokens) :
    Balanced (Token.lexemesAll tokens) :=
  balanced_repeated ((derives_groupTokens h).matches balanced_closed)

theorem lexemes_round_append (tokens : List Token) (tail : List Lexeme) :
    (Token.group .round tokens).lexemes ++ tail =
      .mark "(" :: (Token.lexemesAll tokens ++ .mark ")" :: tail) := by
  simp [Token.lexemes, Bracket.opening, Bracket.closing]

/-- The attempt looks at what the parentheses enclose, and then at the closing one. -/
theorem predicate_enclosed {tokens : List Token}
    (h : Token.AllWellFormed (innerSymbols ++ symbols) tokens) (room : Nat) (tail : List Lexeme) :
    predicate room (Token.lexemesAll tokens ++ .mark ")" :: tail) =
      (predicate room (Token.lexemesAll tokens)).behind (.mark ")" :: tail) :=
  (local_level room).2.behind (balanced_lexemesAll h) (follow_cons (by decide) tail)

/-- A terminal that begins with parentheses was read only after the attempt at them was refused. -/
theorem hereditary_attemptsFit : Hereditary fun room formula => formula.AttemptsFit room where
  terminal {room input rest tokens} hrefused htokens := by
    obtain ⟨first, middle, hfirst, hothers⟩ := bind_eq_ok.mp htokens
    obtain ⟨others, _, _, htokens⟩ := bind_eq_ok.mp hothers
    obtain ⟨rfl, rfl⟩ := pure_eq_ok.mp htokens
    obtain ⟨_, rfl, rfl, hwellFormed⟩ := reads_piece room _ _ _ hfirst
    cases first with
    | word text => trivial
    | symbol text => trivial
    | group bracket tokens =>
        cases bracket with
        | square => trivial
        | round =>
            intro left hdeep
            obtain ⟨behind, hrefused⟩ := hrefused
            rw [Nat.add_sub_cancel] at hdeep
            rw [lexemes_round_append, grouped_cons, predicate_enclosed hwellFormed, hdeep]
              at hrefused
            cases hrefused
  grouped hinner := hinner
  unary _ hoperand := hoperand
  implies hleft hright := ⟨hleft, hright⟩
  connective _ hleft hright := ⟨hleft, hright⟩
  since hleft hright := ⟨hleft, hright⟩

theorem fits_of_predicate {room : Nat} {input rest : List Lexeme} {formula : Formula}
    (h : predicate room input = .ok formula rest) : formula.Fits room :=
  ⟨(hereditary_levels.returns_level room).2 _ _ _ h,
    (hereditary_attemptsFit.returns_level room).2 _ _ _ h⟩

/-! ## Repetitions -/

/-- A repetition of a step goes on as one of another step did, and stops where it stopped. `Behind`
is what every round may rely on about the lexemes behind it; a round of the other step shows it of
the lexemes in front. -/
theorem collect_of_collect {α : Type} {step other : Parser (Option α)} (Behind : List Lexeme → Prop)
    {Small : α → Prop} {rest : List Lexeme} (hrest : Behind rest)
    (hstop : step rest = .ok none rest)
    (hnone : ∀ input left, other input = .ok none left → left = input)
    (hone : ∀ input value left, other input = .ok (some value) left →
      Behind input ∧ (Behind left → Small value → step input = .ok (some value) left))
    {input : List Lexeme} {values : List α} (hok : collect other input = .ok values rest)
    (hvalues : ∀ value ∈ values, Small value) :
    Behind input ∧ collect step input = .ok values rest := by
  fun_induction collect other input generalizing values with
  | case1 input left heq =>
      cases hok
      cases hnone _ _ heq
      refine ⟨hrest, ?_⟩
      rw [collect, hstop]
  | case2 input value left heq hlt ih =>
      cases hleft : collect other left with
      | ok others last =>
          rw [hleft] at hok
          cases hok
          obtain ⟨hvalue, hothers⟩ := List.forall_mem_cons.mp hvalues
          obtain ⟨hbehind, hcollect⟩ := ih hleft hothers
          obtain ⟨hinput, hstep⟩ := hone _ _ _ heq
          refine ⟨hinput, ?_⟩
          rw [collect, hstep hbehind hvalue]
          simp only [hlt, ↓reduceIte, hcollect]
          rfl
      | mismatch last => rw [hleft] at hok; cases hok
      | tooDeep last => rw [hleft] at hok; cases hok
  | case3 | case4 | case5 => cases hok

theorem many_of_many {α : Type} {parser other : Parser α} {Small : α → Prop}
    {input rest : List Lexeme} {values : List α} (hstop : Refuses parser rest)
    (hone : ∀ input value left, other input = .ok value left → Small value →
      parser input = .ok value left)
    (hok : many other input = .ok values rest) (hvalues : ∀ value ∈ values, Small value) :
    many parser input = .ok values rest := by
  refine (collect_of_collect (fun _ => True) trivial (optional_of_refuses hstop) ?_ ?_ hok
    hvalues).2
  · intro input left hnone
    rcases optional_eq_ok hnone with ⟨_, hsome, _⟩ | ⟨-, hleft⟩
    · cases hsome
    · exact hleft
  · intro input value left hsome
    refine ⟨trivial, fun _ hvalue => ?_⟩
    rcases optional_eq_ok hsome with ⟨_, ⟨⟩, hread⟩ | ⟨hnone, -⟩
    · exact optional_of_ok (hone _ _ _ hread hvalue)
    · cases hnone

/-! ## Terminals that fit are read -/

/-- A word or a mark that is no bracket is no group, whatever the room. -/
theorem refuses_group_of_plain {marks : List String}
    (hmarks : ∀ text ∈ marks, opening? (.mark text) = none) {input rest : List Lexeme}
    {token : Token} (h : (word <|> markAmong marks : Parser Token) input = .ok token rest)
    (room : Nat) : Refuses (group room) input := by
  apply refuses_group
  intro found hfound
  rcases orElse_eq_ok h with h | h
  · obtain ⟨lexeme, rfl, hlexeme⟩ := next_eq_ok h
    cases hfound
    cases found with
    | word text => rfl
    | mark text => cases hlexeme
  · obtain ⟨lexeme, rfl, hlexeme⟩ := next_eq_ok h
    cases hfound
    cases found with
    | word text => cases hlexeme
    | mark text =>
        simp only [Option.ite_none_right_eq_some] at hlexeme
        exact hmarks text hlexeme.1

/-- A token is read with less room if its groups are. -/
theorem token_of_token {marks : List String}
    (hmarks : ∀ text ∈ marks, opening? (.mark text) = none) {room more : Nat}
    {input rest : List Lexeme} {token : Token}
    (hgroup : group more input = .ok token rest → group room input = .ok token rest)
    (hok : tokenOf marks (group more) input = .ok token rest) :
    tokenOf marks (group room) input = .ok token rest := by
  rcases orElse_ok_cases hok with hok | ⟨-, hok⟩
  · exact orElse_of_ok (hgroup hok) _
  · exact (orElse_of_refuses (refuses_group_of_plain hmarks hok room) _).trans hok

theorem delimited_eq_ok_iff {bracket : Bracket} {token : Parser Token} {input rest : List Lexeme}
    {value : Token} :
    delimited bracket token input = .ok value rest ↔
      ∃ middle tokens, input = .mark bracket.opening :: middle ∧
        many token middle = .ok tokens (.mark bracket.closing :: rest) ∧
          value = .group bracket tokens := by
  constructor
  · intro hok
    obtain ⟨_, middle, hopening, hok⟩ := bind_eq_ok.mp hok
    obtain ⟨tokens, last, htokens, hok⟩ := bind_eq_ok.mp hok
    obtain ⟨_, behind, hclosing, hok⟩ := bind_eq_ok.mp hok
    obtain ⟨rfl, rfl⟩ := pure_eq_ok.mp hok
    obtain ⟨_, rfl, rfl⟩ := Reads.expect _ _ _ _ hopening
    obtain ⟨_, rfl, rfl⟩ := Reads.expect _ _ _ _ hclosing
    exact ⟨middle, tokens, rfl, htokens, rfl⟩
  · rintro ⟨middle, tokens, rfl, htokens, rfl⟩
    exact bind_eq_ok.mpr ⟨(), middle, expect_cons _ _, bind_eq_ok.mpr ⟨tokens, _, htokens,
      bind_eq_ok.mpr ⟨(), rest, expect_cons _ _, rfl⟩⟩⟩

/-- The two kinds of brackets do not get into each other's way. -/
theorem groupOf_eq_ok_iff {inside : Parser Token} {input rest : List Lexeme} {value : Token} :
    groupOf inside input = .ok value rest ↔
      ∃ bracket, delimited bracket (tokenOf (innerSymbols ++ symbols) inside) input =
        .ok value rest := by
  constructor
  · intro hok
    rcases orElse_eq_ok hok with hok | hok
    · exact ⟨.round, hok⟩
    · exact ⟨.square, hok⟩
  · rintro ⟨bracket, hok⟩
    cases bracket with
    | round => exact orElse_of_ok hok _
    | square =>
        obtain ⟨middle, tokens, rfl, -⟩ := delimited_eq_ok_iff.mp hok
        exact (orElse_of_refuses (refuses_delimited_round _ middle) _).trans hok

/-- A group is read with any room for its levels. -/
theorem group_of_group {room more : Nat} {input rest : List Lexeme} {token : Token}
    (hlevels : token.levels ≤ room) (hok : group more input = .ok token rest) :
    group room input = .ok token rest := by
  induction room generalizing more input token rest with
  | zero =>
      cases more with
      | zero => exact hok
      | succ more =>
          obtain ⟨bracket, hok⟩ := groupOf_eq_ok_iff.mp hok
          obtain ⟨middle, tokens, -, -, rfl⟩ := delimited_eq_ok_iff.mp hok
          cases hlevels
  | succ room ih =>
      cases more with
      | zero =>
          obtain ⟨_, _, -, hok⟩ := bind_eq_ok.mp hok
          cases hok
      | succ more =>
          obtain ⟨bracket, hok⟩ := groupOf_eq_ok_iff.mp hok
          obtain ⟨middle, tokens, rfl, htokens, rfl⟩ := delimited_eq_ok_iff.mp hok
          have hinner := Token.levelsAll_le_iff.mp (Nat.le_of_succ_le_succ hlevels)
          have hmany : many (groupToken room) middle =
              .ok tokens (.mark bracket.closing :: rest) :=
            many_of_many (refuses_groupToken_closing room bracket rest)
              (fun input token left hread hlevels =>
                token_of_token (by decide) (ih hlevels) hread) htokens hinner
          exact groupOf_eq_ok_iff.mpr
            ⟨bracket, delimited_eq_ok_iff.mpr ⟨middle, tokens, rfl, hmany, rfl⟩⟩

theorem piece_of_piece {room more : Nat} {input rest : List Lexeme} {token : Token}
    (hlevels : token.levels ≤ room) (hok : piece more input = .ok token rest) :
    piece room input = .ok token rest :=
  token_of_token (by decide) (group_of_group hlevels) hok

/-- Where the attempt at the parentheses does not give up and is refused with more room, it is
refused with less. -/
theorem refuses_grouped_of_attempt {room more : Nat} (hroom : room ≤ more) {tokens : List Token}
    (hwellFormed : Token.AllWellFormed (innerSymbols ++ symbols) tokens) {tail : List Lexeme}
    (hattempt : ∀ left, predicate room (Token.lexemesAll tokens) ≠ .tooDeep left)
    (hlook : ∀ left, piece room tail ≠ .tooDeep left)
    (hrefused : Refuses (grouped (predicate more) (piece more))
      (.mark "(" :: (Token.lexemesAll tokens ++ .mark ")" :: tail))) :
    Refuses (grouped (predicate room) (piece room))
      (.mark "(" :: (Token.lexemesAll tokens ++ .mark ")" :: tail)) := by
  obtain ⟨behind, hrefused⟩ := hrefused
  have hbelow := below_grouped hroom (.mark "(" :: (Token.lexemesAll tokens ++ .mark ")" :: tail))
  rw [hrefused] at hbelow
  refine ⟨behind, hbelow.eq_of_ne fun left hdeep => ?_⟩
  rw [grouped_cons, predicate_enclosed hwellFormed] at hdeep
  cases hpredicate : predicate room (Token.lexemesAll tokens) with
  | tooDeep left => exact hattempt left hpredicate
  | mismatch left =>
      rw [hpredicate] at hdeep
      cases hdeep
  | ok formula left =>
      rw [hpredicate] at hdeep
      -- what is left of the enclosed lexemes is balanced, so its first lexeme closes nothing
      have hbalanced := (local_level room).2.balanced (balanced_lexemesAll hwellFormed) hpredicate
      cases left with
      | nil =>
          simp only [Reply.behind, Reply.andThen, List.nil_append, expect_cons] at hdeep
          unfold notFollowedBy at hdeep
          cases hpiece : piece room tail with
          | tooDeep left => exact hlook left hpiece
          | ok token rest => rw [hpiece] at hdeep; cases hdeep
          | mismatch rest => rw [hpiece] at hdeep; cases hdeep
      | cons lexeme left =>
          have hne : lexeme ≠ .mark ")" := hbalanced.head_ne_closing .round
          simp only [Reply.behind, Reply.andThen, List.cons_append] at hdeep
          rw [expect_cons_of_ne hne] at hdeep
          cases hdeep

/-- A repetition that comes to an end does not give up in its first round. -/
theorem ne_tooDeep_of_many {α : Type} {parser : Parser α} {input rest : List Lexeme}
    {values : List α} (h : many parser input = .ok values rest) (left : List Lexeme) :
    parser input ≠ .tooDeep left := by
  intro hdeep
  rw [many_apply, collect] at h
  unfold Parser.optional at h
  rw [hdeep] at h
  cases h

/-- The first lexeme of a token is neither a negation nor a temporal operator. -/
theorem refuses_operators_of_token {token : Token} (h : token.WellFormed symbols)
    (unary predicate : Parser Formula) (rest : List Lexeme) :
    Refuses (negation unary) (token.lexemes ++ rest) ∧
      Refuses (temporal predicate) (token.lexemes ++ rest) := by
  cases token with
  | word text =>
      refine ⟨refuses_negation (by simp [Token.lexemes]) _, refuses_temporal ?_ _⟩
      rintro keyword hkeyword ⟨⟩
      exact h hkeyword
  | symbol text =>
      have hne : ∀ text ∈ symbols, text ≠ "!" := by decide
      exact ⟨refuses_negation (by simpa [Token.lexemes] using hne text h) _,
        refuses_temporal (by simp [Token.lexemes]) _⟩
  | group bracket tokens =>
      have hne : bracket.opening ≠ "!" := by cases bracket <;> decide
      exact ⟨refuses_negation (by simpa [Token.lexemes] using hne) _,
        refuses_temporal (by simp [Token.lexemes]) _⟩

/-- Only a token in parentheses begins like a formula in parentheses. -/
theorem refuses_grouped_of_not_round {token : Token} (h : token.WellFormed symbols)
    (hround : ∀ tokens, token ≠ .group .round tokens) (predicate : Parser Formula)
    (piece : Parser Token) (rest : List Lexeme) :
    Refuses (grouped predicate piece) (token.lexemes ++ rest) := by
  cases token with
  | word text => exact refuses_grouped (by simp [Token.lexemes]) _ _
  | symbol text =>
      have hne : ∀ text ∈ symbols, text ≠ "(" := by decide
      exact refuses_grouped (by simpa [Token.lexemes] using hne text h) _ _
  | group bracket tokens =>
      cases bracket with
      | square => exact refuses_grouped (by simp [Token.lexemes, Bracket.opening]) _ _
      | round => exact absurd rfl (hround tokens)

/-- The first token of a terminal is not read as a formula in parentheses, if the attempt at it
comes to an end and is refused with more room. -/
theorem refuses_grouped_of_token {room more : Nat} (hroom : room ≤ more) {token : Token}
    (h : token.WellFormed symbols) {others : List Token} {middle : List Lexeme}
    (hattempt : (Formula.terminal (token :: others)).AttemptsFit (room + 1))
    (hlook : ∀ left, piece room middle ≠ .tooDeep left)
    (hrefused : Refuses (grouped (predicate more) (piece more)) (token.lexemes ++ middle)) :
    Refuses (grouped (predicate room) (piece room)) (token.lexemes ++ middle) := by
  by_cases hround : ∃ tokens, token = .group .round tokens
  · obtain ⟨tokens, rfl⟩ := hround
    rw [lexemes_round_append] at hrefused ⊢
    exact refuses_grouped_of_attempt hroom h hattempt hlook hrefused
  · exact refuses_grouped_of_not_round h (not_exists.mp hround) _ _ _

/-- A terminal is read with less room if its levels fit and the attempt at its first parentheses
comes to an end. -/
theorem unary_of_terminal {room more : Nat} (hroom : room ≤ more) {input rest : List Lexeme}
    {tokens : List Token} (hrest : Follow behindUnary rest)
    (hfits : (Formula.terminal tokens).Fits (room + 1))
    (hrefused : Refuses (grouped (predicate more) (piece more)) input)
    (hok : many1 (piece more) input = .ok tokens rest) :
    unary (room + 1) input = .ok (.terminal tokens) rest := by
  obtain ⟨first, middle, hfirst, hok⟩ := bind_eq_ok.mp hok
  obtain ⟨others, rest, hothers, hok⟩ := bind_eq_ok.mp hok
  obtain ⟨rfl, rfl⟩ := pure_eq_ok.mp hok
  have hlevels := Token.levelsAll_le_iff.mp (Nat.le_of_lt_succ hfits.levels)
  obtain ⟨hfirstLevels, hotherLevels⟩ := List.forall_mem_cons.mp hlevels
  replace hfirst := piece_of_piece hfirstLevels hfirst
  replace hothers : many (piece room) middle = .ok others rest :=
    many_of_many (refuses_piece room hrest)
      (fun _ _ _ hread hlevels => piece_of_piece hlevels hread) hothers hotherLevels
  have hterminal : terminal (piece room) input = .ok (.terminal (first :: others)) rest :=
    bind_eq_ok.mpr ⟨_, _, bind_eq_ok.mpr ⟨first, middle, hfirst, bind_eq_ok.mpr
      ⟨others, rest, hothers, rfl⟩⟩, rfl⟩
  obtain ⟨_, rfl, rfl, hwellFormed⟩ := reads_piece room _ _ _ hfirst
  obtain ⟨hnegation, htemporal⟩ :=
    refuses_operators_of_token hwellFormed (unary room) (predicate room) middle
  have hgrouped := refuses_grouped_of_token hroom hwellFormed hfits.attempts
    (ne_tooDeep_of_many hothers) hrefused
  rw [unary_succ, orElse_of_refuses hnegation, orElse_of_refuses htemporal,
    orElse_of_refuses hgrouped]
  exact hterminal

/-! ## Formulas that fit are read -/

/-- In front of the end and of each of the marks, the parser reads every formula that the other one
reads and that fits into the room. -/
def Suffices (marks : List String) (room : Nat) (parser other : Parser Formula) : Prop :=
  ∀ input formula rest, Follow marks rest → formula.Fits room →
    other input = .ok formula rest → parser input = .ok formula rest

section

variable {room : Nat} {unary unary' predicate predicate' operand operand' : Parser Formula}

/-- A link is a connective with an operand behind it, or there is none. -/
theorem link_eq_ok {connectives : List Connective} {input left : List Lexeme}
    {found : Option (Connective × Formula)}
    (h : link connectives operand input = .ok found left) :
    (found = none ∧ left = input) ∨
      ∃ c ∈ connectives, ∃ right middle, found = some (c, right) ∧
        input = .mark c.symbol :: middle ∧ operand middle = .ok right left := by
  obtain ⟨connective, middle, hconnective, hok⟩ := bind_eq_ok.mp h
  cases connective with
  | none =>
      obtain ⟨rfl, rfl⟩ := pure_eq_ok.mp hok
      rcases optional_eq_ok hconnective with ⟨_, ⟨⟩, _⟩ | ⟨-, hleft⟩
      exact Or.inl ⟨rfl, hleft⟩
  | some c =>
      obtain ⟨right, left, hright, hok⟩ := bind_eq_ok.mp hok
      obtain ⟨rfl, rfl⟩ := pure_eq_ok.mp hok
      rcases optional_eq_ok hconnective with ⟨_, ⟨⟩, hnext⟩ | ⟨⟨⟩, -⟩
      obtain ⟨lexeme, rfl, hlexeme⟩ := next_eq_ok hnext
      have hsymbol : lexeme = .mark c.symbol := by simpa using List.find?_some hlexeme
      exact Or.inr ⟨c, List.mem_of_find?_eq_some hlexeme, right, middle, rfl, by rw [hsymbol],
        hright⟩

theorem link_of_ok {connectives : List Connective} {c : Connective} (hc : c ∈ connectives)
    {right : Formula} {middle left : List Lexeme} (h : operand middle = .ok right left) :
    link connectives operand (.mark c.symbol :: middle) = .ok (some (c, right)) left :=
  bind_eq_ok.mpr ⟨some c, middle, optional_connective hc middle,
    bind_eq_ok.mpr ⟨right, left, h, rfl⟩⟩

theorem suffices_chain {connectives : List Connective} {marks : List String}
    (hmarks : ∀ c ∈ connectives, c.symbol ∉ marks)
    (h : Suffices (connectives.map (·.symbol) ++ marks) room operand operand') :
    Suffices marks room (chain connectives operand) (chain connectives operand') := by
  have hnone : ∀ input left, link connectives operand' input = .ok none left → left = input := by
    intro input left hlink
    rcases link_eq_ok hlink with ⟨-, hleft⟩ | ⟨_, _, _, _, ⟨⟩, _⟩
    exact hleft
  -- behind an operand stands the connective of the next link, or what stands behind the chain
  have hone : ∀ input found left, link connectives operand' input = .ok (some found) left →
      Follow (connectives.map (·.symbol) ++ marks) input ∧
        (Follow (connectives.map (·.symbol) ++ marks) left → found.2.Fits room →
          link connectives operand input = .ok (some found) left) := by
    intro input found left hlink
    rcases link_eq_ok hlink with ⟨⟨⟩, -⟩ | ⟨c, hc, right, middle, ⟨⟩, rfl, hright⟩
    refine ⟨follow_cons (List.mem_append_left _ (List.mem_map_of_mem hc)) _, ?_⟩
    intro hleft hfits
    exact link_of_ok hc (h _ _ _ hleft hfits hright)
  intro input formula rest hrest hfits hok
  obtain ⟨first, middle, hfirst, hok⟩ := bind_eq_ok.mp hok
  obtain ⟨links, rest, hlinks, hok⟩ := bind_eq_ok.mp hok
  obtain ⟨rfl, rfl⟩ := pure_eq_ok.mp hok
  obtain ⟨hfirstFits, hlinksFit⟩ := hfits.of_links
  have hbehind : Follow (connectives.map (·.symbol) ++ marks) rest :=
    hrest.mono (List.subset_append_right _ _)
  obtain ⟨hmiddle, hlinks⟩ := collect_of_collect _ hbehind (link_of_follow hmarks operand hrest)
    hnone hone hlinks hlinksFit
  exact bind_eq_ok.mpr ⟨first, middle, h _ _ _ hmiddle hfirstFits hfirst,
    bind_eq_ok.mpr ⟨links, rest, hlinks, rfl⟩⟩

theorem suffices_implication (hunary : Suffices behindUnary (room + 1) unary unary')
    (hpredicate : Suffices behindPredicate room predicate predicate') :
    Suffices behindPredicate (room + 1) (implication unary predicate)
      (implication unary' predicate') := by
  have hdisjunction : Suffices behindDisjunction (room + 1) (disjunction unary)
      (disjunction unary') := by
    refine suffices_chain (by decide) ?_
    exact @suffices_chain _ _ _ [.and] behindConjunction (by decide)
      (@suffices_chain _ _ _ [.equal, .notEqual] behindEquality (by decide) hunary)
  intro input formula rest hrest hfits hok
  obtain ⟨left, middle, hleft, hok⟩ := bind_eq_ok.mp hok
  obtain ⟨found, rest, hfound, hok⟩ := bind_eq_ok.mp hok
  cases found with
  | none =>
      obtain ⟨rfl, rfl⟩ := pure_eq_ok.mp hok
      rcases optional_eq_ok hfound with ⟨_, ⟨⟩, _⟩ | ⟨-, rfl⟩
      have hno := refuses_arrow hrest predicate
      exact bind_eq_ok.mpr ⟨left, rest, hdisjunction _ _ _
        (hrest.mono (List.subset_cons_self _ _)) hfits hleft,
        bind_eq_ok.mpr ⟨none, rest, optional_of_refuses hno, rfl⟩⟩
  | some right =>
      obtain ⟨rfl, rfl⟩ := pure_eq_ok.mp hok
      obtain ⟨hleftFits, hrightFits⟩ := hfits.of_implies
      rcases optional_eq_ok hfound with ⟨_, ⟨⟩, hok⟩ | ⟨⟨⟩, -⟩
      obtain ⟨_, behind, harrow, hright⟩ := bind_eq_ok.mp hok
      obtain ⟨_, rfl, rfl⟩ := Reads.expect _ _ _ _ harrow
      have hsome : (do expect (.mark "->"); predicate : Parser Formula)
          ([.mark "->"] ++ behind) = .ok right rest :=
        bind_eq_ok.mpr ⟨(), behind, harrow, hpredicate _ _ _ hrest hrightFits hright⟩
      exact bind_eq_ok.mpr ⟨left, _, hdisjunction _ _ _ (follow_cons (by decide) behind) hleftFits
        hleft, bind_eq_ok.mpr ⟨some right, rest, optional_of_ok hsome, rfl⟩⟩

theorem suffices_negation (h : Suffices behindUnary room unary unary') :
    Suffices behindUnary (room + 1) (negation unary) (negation unary') := by
  intro input formula rest hrest hfits hok
  obtain ⟨_, middle, hbang, hok⟩ := bind_eq_ok.mp hok
  obtain ⟨operand, rest, hoperand, hok⟩ := bind_eq_ok.mp hok
  obtain ⟨rfl, rfl⟩ := pure_eq_ok.mp hok
  exact bind_eq_ok.mpr ⟨(), middle, hbang, bind_eq_ok.mpr
    ⟨operand, rest, h _ _ _ hrest hfits.of_unary hoperand, rfl⟩⟩

theorem suffices_application (h : Suffices behindPredicate room predicate predicate')
    (keyword : String) (op : UnaryOp) (marks : List String) :
    Suffices marks (room + 1) (application keyword op predicate)
      (application keyword op predicate') := by
  intro input formula rest _ hfits hok
  obtain ⟨_, opening, hkeyword, hok⟩ := bind_eq_ok.mp hok
  obtain ⟨_, middle, hopening, hok⟩ := bind_eq_ok.mp hok
  obtain ⟨operand, closing, hoperand, hok⟩ := bind_eq_ok.mp hok
  obtain ⟨_, rest, hclosing, hok⟩ := bind_eq_ok.mp hok
  obtain ⟨rfl, rfl⟩ := pure_eq_ok.mp hok
  obtain ⟨_, rfl, rfl⟩ := Reads.expect _ _ _ _ hclosing
  have hread := h _ _ _ (follow_cons (by decide) rest) hfits.of_unary hoperand
  exact bind_eq_ok.mpr ⟨(), opening, hkeyword, bind_eq_ok.mpr ⟨(), middle, hopening,
    bind_eq_ok.mpr ⟨operand, _, hread, bind_eq_ok.mpr ⟨(), rest, hclosing, rfl⟩⟩⟩⟩

theorem suffices_since (h : Suffices behindPredicate room predicate predicate')
    (marks : List String) :
    Suffices marks (room + 1) (since predicate) (since predicate') := by
  intro input formula rest _ hfits hok
  obtain ⟨_, opening, hkeyword, hok⟩ := bind_eq_ok.mp hok
  obtain ⟨_, middle, hopening, hok⟩ := bind_eq_ok.mp hok
  obtain ⟨left, behind, hleft, hok⟩ := bind_eq_ok.mp hok
  obtain ⟨_, second, hcomma, hok⟩ := bind_eq_ok.mp hok
  obtain ⟨right, closing, hright, hok⟩ := bind_eq_ok.mp hok
  obtain ⟨_, rest, hclosing, hok⟩ := bind_eq_ok.mp hok
  obtain ⟨rfl, rfl⟩ := pure_eq_ok.mp hok
  obtain ⟨_, rfl, rfl⟩ := Reads.expect _ _ _ _ hcomma
  obtain ⟨_, rfl, rfl⟩ := Reads.expect _ _ _ _ hclosing
  obtain ⟨hleftFits, hrightFits⟩ := hfits.of_since
  have hleft := h _ _ _ (follow_cons (by decide) second) hleftFits hleft
  have hright := h _ _ _ (follow_cons (by decide) rest) hrightFits hright
  exact bind_eq_ok.mpr ⟨(), opening, hkeyword, bind_eq_ok.mpr ⟨(), middle, hopening,
    bind_eq_ok.mpr ⟨left, _, hleft, bind_eq_ok.mpr ⟨(), second, hcomma,
      bind_eq_ok.mpr ⟨right, _, hright, bind_eq_ok.mpr ⟨(), rest, hclosing, rfl⟩⟩⟩⟩⟩⟩

theorem suffices_grouped {piece' : Parser Token}
    (h : Suffices behindPredicate room predicate predicate') :
    Suffices behindUnary (room + 1) (grouped predicate (piece room))
      (grouped predicate' piece') := by
  intro input formula rest hrest hfits hok
  obtain ⟨_, middle, hopening, hok⟩ := bind_eq_ok.mp hok
  obtain ⟨inner, closing, hinner, hok⟩ := bind_eq_ok.mp hok
  obtain ⟨_, behind, hclosing, hok⟩ := bind_eq_ok.mp hok
  obtain ⟨_, rest, hlook, hok⟩ := bind_eq_ok.mp hok
  obtain ⟨rfl, rfl⟩ := pure_eq_ok.mp hok
  obtain ⟨_, rfl, rfl⟩ := Reads.expect _ _ _ _ hclosing
  obtain rfl : rest = behind := notFollowedBy_eq_ok hlook
  have hread := h _ _ _ (follow_cons (by decide) rest) hfits.of_grouped hinner
  exact bind_eq_ok.mpr ⟨(), middle, hopening, bind_eq_ok.mpr ⟨inner, _, hread,
    bind_eq_ok.mpr ⟨(), rest, hclosing, bind_eq_ok.mpr
      ⟨(), rest, notFollowedBy_of_refuses (refuses_piece room hrest), rfl⟩⟩⟩⟩

/-- What a parser reads that first expects a lexeme begins with this lexeme. -/
theorem head?_of_expect_bind {α : Type} {lexeme : Lexeme} {next : Unit → Parser α}
    {input rest : List Lexeme} {value : α}
    (h : (expect lexeme >>= next) input = .ok value rest) : input.head? = some lexeme := by
  obtain ⟨_, middle, hlexeme, -⟩ := bind_eq_ok.mp h
  obtain ⟨_, rfl, rfl⟩ := Reads.expect _ _ _ _ hlexeme
  rfl

theorem head?_of_temporal {input rest : List Lexeme} {formula : Formula}
    (h : temporal predicate input = .ok formula rest) :
    ∃ keyword, input.head? = some (.word keyword) := by
  rcases orElse_eq_ok h with h | h
  · exact ⟨_, head?_of_expect_bind h⟩
  rcases orElse_eq_ok h with h | h
  · exact ⟨_, head?_of_expect_bind h⟩
  rcases orElse_eq_ok h with h | h
  · exact ⟨_, head?_of_expect_bind h⟩
  · exact ⟨_, head?_of_expect_bind h⟩

theorem refuses_application_of_head? {input : List Lexeme} {keyword other : String}
    (hhead : input.head? = some (.word keyword)) (hne : keyword ≠ other) (op : UnaryOp) :
    Refuses (application other op predicate) input := by
  refine (refuses_expect ?_).bind _
  rw [hhead]
  simpa using hne

theorem suffices_temporal (h : Suffices behindPredicate room predicate predicate')
    (marks : List String) :
    Suffices marks (room + 1) (temporal predicate) (temporal predicate') := by
  intro input formula rest hrest hfits hok
  unfold temporal
  rcases orElse_eq_ok hok with hok | hok
  · exact orElse_of_ok (suffices_application h _ _ marks _ _ _ hrest hfits hok) _
  rcases orElse_eq_ok hok with hok | hok
  · have hhead := head?_of_expect_bind hok
    rw [orElse_of_refuses (refuses_application_of_head? hhead (by decide) _)]
    exact orElse_of_ok (suffices_application h _ _ marks _ _ _ hrest hfits hok) _
  rcases orElse_eq_ok hok with hok | hok
  · have hhead := head?_of_expect_bind hok
    rw [orElse_of_refuses (refuses_application_of_head? hhead (by decide) _),
      orElse_of_refuses (refuses_application_of_head? hhead (by decide) _)]
    exact orElse_of_ok (suffices_application h _ _ marks _ _ _ hrest hfits hok) _
  · have hhead := head?_of_expect_bind hok
    rw [orElse_of_refuses (refuses_application_of_head? hhead (by decide) _),
      orElse_of_refuses (refuses_application_of_head? hhead (by decide) _),
      orElse_of_refuses (refuses_application_of_head? hhead (by decide) _)]
    exact suffices_since h marks _ _ _ hrest hfits hok

end

/-- One more level of room is enough for one more level of the formula. -/
theorem suffices_unary {room more : Nat} (hroom : room ≤ more)
    (hunary : Suffices behindUnary room (unary room) (unary more))
    (hpredicate : Suffices behindPredicate room (predicate room) (predicate more)) :
    Suffices behindUnary (room + 1) (unary (room + 1)) (unary (more + 1)) := by
  intro input formula rest hrest hfits hok
  rcases orElse_ok_cases hok with hok | ⟨-, hok⟩
  · exact orElse_of_ok (suffices_negation hunary _ _ _ hrest hfits hok) _
  rcases orElse_ok_cases hok with hok | ⟨-, hok⟩
  · obtain ⟨keyword, hhead⟩ := head?_of_temporal hok
    rw [unary_succ, orElse_of_refuses (refuses_negation (by simp [hhead]) _)]
    exact orElse_of_ok (suffices_temporal hpredicate behindUnary _ _ _ hrest hfits hok) _
  rcases orElse_ok_cases hok with hok | ⟨hrefused, hok⟩
  · have hhead := head?_of_expect_bind hok
    rw [unary_succ, orElse_of_refuses (refuses_negation (by simp [hhead]) _),
      orElse_of_refuses (refuses_temporal (by simp [hhead]) _)]
    exact orElse_of_ok (suffices_grouped hpredicate _ _ _ hrest hfits hok) _
  · obtain ⟨tokens, rest, htokens, hok⟩ := bind_eq_ok.mp hok
    obtain ⟨rfl, rfl⟩ := pure_eq_ok.mp hok
    exact unary_of_terminal hroom hrest hfits hrefused htokens

/-- What fits into the room is read with it, if it is read with more room at all. -/
theorem suffices_level {room more : Nat} (h : room ≤ more) :
    Suffices behindUnary room (unary room) (unary more) ∧
      Suffices behindPredicate room (predicate room) (predicate more) := by
  induction room generalizing more with
  | zero =>
      constructor
      all_goals
        intro input formula rest _ hfits
        exact absurd hfits.levels (Nat.not_lt_zero _)
  | succ room ih =>
      cases more with
      | zero => exact absurd h (Nat.not_succ_le_zero room)
      | succ more =>
          have hroom := Nat.le_of_succ_le_succ h
          obtain ⟨hunary, hpredicate⟩ := ih hroom
          have hnext := suffices_unary hroom hunary hpredicate
          exact ⟨hnext, suffices_implication hnext hpredicate⟩

/-- What is read with more room is read with less if and only if it fits. -/
theorem predicate_eq_ok_iff_fits {room more : Nat} (h : room ≤ more) {input rest : List Lexeme}
    {formula : Formula} (hrest : Follow behindPredicate rest)
    (hok : predicate more input = .ok formula rest) :
    predicate room input = .ok formula rest ↔ formula.Fits room := by
  constructor
  · exact fits_of_predicate
  · intro hfits
    exact (suffices_level h).2 _ _ _ hrest hfits hok

end Grammar

end PastTime

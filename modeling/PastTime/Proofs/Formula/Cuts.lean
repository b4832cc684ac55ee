import PastTime.Proofs.Formula.Attempts
import PastTime.Proofs.Formula.Places
import PastTime.Proofs.Formula.Terminals

/-!
# Cutting off what was not read

Where lexemes behind a formula are left over, the formula is read again from the lexemes in front of
them alone. Near the cut a parser then sees the end of the text instead of a lexeme that it has
refused, and it refuses the end as well. Further in front it sees the same lexemes, because what it
can look at is enclosed in brackets that are closed before the cut.
-/

namespace PastTime.Grammar

open PastTime.Parser

variable {α β : Type}

/-! ## Parsers of one token -/

/-- What the parser makes of balanced lexemes is decided by the first token of them, so that it does
not depend on what stands behind them. It refuses the end of the text, and reads no value from
nothing. -/
structure Prompt (parser : Parser α) : Prop where
  leaves : Leaves parser
  behind {inner : List Lexeme} : inner ≠ [] → Balanced inner → ∀ tail,
    parser (inner ++ tail) = (parser inner).behind tail
  balanced {inner rest : List Lexeme} {value : α} : Balanced inner →
    parser inner = .ok value rest → Balanced rest
  refuses_nil : Refuses parser []
  progress {input rest : List Lexeme} {value : α} :
    parser input = .ok value rest → rest.length < input.length

namespace Prompt

theorem next {meaning : Lexeme → Option α}
    (hplain : ∀ lexeme value, meaning lexeme = some value → IsPlain lexeme) :
    Prompt (next meaning) where
  leaves := Leaves.next meaning
  behind {inner} hne _ tail := by
    obtain ⟨lexeme, rest, rfl⟩ := List.exists_cons_of_ne_nil hne
    cases hmeaning : meaning lexeme with
    | none => simp [Parser.next, hmeaning, Reply.behind]
    | some value => simp [Parser.next, hmeaning, Reply.behind]
  balanced hinner hok := by
    obtain ⟨lexeme, rfl, hmeaning⟩ := next_eq_ok hok
    exact hinner.of_plain (hplain lexeme _ hmeaning)
  refuses_nil := ⟨[], rfl⟩
  progress hok := by
    obtain ⟨lexeme, rfl, -⟩ := next_eq_ok hok
    exact Nat.lt_succ_self _

theorem expect {lexeme : Lexeme} (hplain : IsPlain lexeme) : Prompt (expect lexeme) := by
  refine next fun found value hfound => ?_
  split at hfound
  next heq => exact heq ▸ hplain
  next => cases hfound

theorem orElse {first second : Parser α} (hfirst : Prompt first) (hsecond : Prompt second) :
    Prompt (first <|> second) where
  leaves := hfirst.leaves.orElse hsecond.leaves
  behind {inner} hne hinner tail := by
    change Parser.orElse first second _ = (Parser.orElse first second _).behind tail
    unfold Parser.orElse
    rw [hfirst.behind hne hinner tail]
    cases first inner with
    | ok value rest => rfl
    | mismatch rest => exact hsecond.behind hne hinner tail
    | tooDeep rest => rfl
  balanced hinner hok := by
    rcases orElse_eq_ok hok with hok | hok
    · exact hfirst.balanced hinner hok
    · exact hsecond.balanced hinner hok
  refuses_nil := hfirst.refuses_nil.orElse hsecond.refuses_nil
  progress hok := by
    rcases orElse_eq_ok hok with hok | hok
    · exact hfirst.progress hok
    · exact hsecond.progress hok

end Prompt

/-! ## Brackets and what they enclose -/

section

variable {token : Parser Token} (htoken : Local [")", "]"] token) (bracket : Bracket)
  {inner : List Lexeme} (hinner : Balanced inner)
include htoken hinner

/-- The tokens of a group are read from what its brackets enclose. -/
theorem delimited_opening (rest : List Lexeme) :
    delimited bracket token (.mark bracket.opening :: (inner ++ .mark bracket.closing :: rest)) =
      ((many token inner).behind (.mark bracket.closing :: rest)).andThen
        fun tokens => (expect (.mark bracket.closing) >>= fun _ =>
          pure (.group bracket tokens) : Parser Token) := by
  have hclosing : bracket.closing ∈ [")", "]"] := by cases bracket <;> decide
  rw [delimited, bind_apply, expect_cons, ← htoken.many.behind hinner (follow_cons hclosing rest)]
  rfl

theorem delimited_behind (rest tail : List Lexeme) :
    delimited bracket token
        (.mark bracket.opening :: (inner ++ .mark bracket.closing :: (rest ++ tail))) =
      (delimited bracket token
        (.mark bracket.opening :: (inner ++ .mark bracket.closing :: rest))).behind tail := by
  rw [delimited_opening htoken bracket hinner, delimited_opening htoken bracket hinner]
  cases hreply : many token inner with
  | mismatch left => simp [Reply.behind, Reply.andThen]
  | tooDeep left => simp [Reply.behind, Reply.andThen]
  | ok tokens left =>
      have hleft := htoken.many.balanced hinner hreply
      simp only [Reply.behind, Reply.andThen, bind_apply]
      cases left with
      | nil =>
          rw [List.nil_append, List.nil_append, expect_cons, expect_cons]
          rfl
      | cons lexeme left =>
          have hclosing := hleft.head_ne_closing bracket
          rw [List.cons_append, List.cons_append, expect_cons_of_ne hclosing,
            expect_cons_of_ne hclosing]
          simp

end

theorem prompt_delimited (room : Nat) (bracket : Bracket) :
    Prompt (delimited bracket (groupToken room)) where
  leaves := (congruence_leaves.delimited bracket ⟨rfl, leaves_groupToken room⟩).2
  behind {inner} hne hinner tail := by
    cases hinner with
    | nil => exact absurd rfl hne
    | plain hplain _ =>
        have hopening := (hplain bracket).1
        rw [List.cons_append, delimited_of_ne hopening, delimited_of_ne hopening]
        rfl
    | @enclosed other inner rest hinner hrest =>
        simp only [List.cons_append, List.append_assoc]
        by_cases hsame : other = bracket
        · rw [hsame]
          exact delimited_behind (local_groupToken room) bracket hinner rest tail
        · have hopening : Lexeme.mark other.opening ≠ .mark bracket.opening := by
            revert hsame
            cases other <;> cases bracket <;> decide
          rw [delimited_of_ne hopening, delimited_of_ne hopening]
          simp [Reply.behind]
  balanced := (local_delimited bracket List.not_mem_nil (local_groupToken room)).balanced
  refuses_nil := ⟨[], rfl⟩
  progress hok := by
    obtain ⟨_, rfl, rfl, -⟩ := reads_delimited bracket symbols (reads_groupToken room) _ _ _ hok
    have hpos := List.length_pos_iff.mpr (Token.lexemes_ne_nil ‹Token›)
    rw [List.length_append]
    omega

theorem prompt_noGroup : Prompt (noGroup : Parser Token) where
  leaves := leaves_group 0
  behind {inner} hne _ tail := by
    obtain ⟨lexeme, rest, rfl⟩ := List.exists_cons_of_ne_nil hne
    change group 0 _ = (group 0 _).behind tail
    rw [List.cons_append]
    cases hfound : opening? lexeme with
    | none =>
        rw [group_of_opening?_eq_none hfound, group_of_opening?_eq_none hfound]
        rfl
    | some bracket =>
        rw [group_zero_of_opening? hfound, group_zero_of_opening? hfound]
        rfl
  balanced := (@local_group 0 [] (by simp)).balanced
  refuses_nil := refuses_group 0 (by simp)
  progress hok := absurd hok (by
    obtain ⟨_, _, hmismatch⟩ := bind_eq_ok.mp hok
    cases hmismatch.2)

theorem prompt_group (room : Nat) : Prompt (group room) := by
  cases room with
  | zero => exact prompt_noGroup
  | succ room => exact (prompt_delimited room .round).orElse (prompt_delimited room .square)

theorem prompt_piece (room : Nat) : Prompt (piece room) := by
  refine (prompt_group room).orElse ((Prompt.next ?_).orElse (Prompt.next ?_))
  · intro lexeme token hlexeme
    cases lexeme with
    | word text => exact isPlain_word text
    | mark text => cases hlexeme
  · intro lexeme token hlexeme
    cases lexeme with
    | word text => cases hlexeme
    | mark text =>
        have hplain : ∀ text ∈ symbols, text ∉ ["(", ")", "[", "]"] := by decide
        simp only [Option.ite_none_right_eq_some] at hlexeme
        exact isPlain_mark (hplain text hlexeme.1)

/-! ## What is read in front of a cut -/

/-- What the parser has read of balanced lexemes it reads again if the text is cut behind them. -/
structure Cuttable (parser : Parser α) : Prop where
  leaves : Leaves parser
  cut {inner rest after : List Lexeme} {value : α} : Balanced inner →
    parser (inner ++ rest) = .ok value (after ++ rest) →
    parser inner = .ok value after ∧ Balanced after

/-- The same of a parser that starts inside a parenthesis and reads the closing one. -/
structure CuttableInside (parser : Parser α) : Prop where
  leaves : Leaves parser
  cut {inner behind rest after : List Lexeme} {value : α} : Balanced inner → Balanced behind →
    parser (inner ++ .mark ")" :: (behind ++ rest)) = .ok value (after ++ rest) →
    parser (inner ++ .mark ")" :: behind) = .ok value after ∧ Balanced after

namespace Prompt

variable {parser : Parser α}

/-- In front of the cut something is left to be read. -/
theorem ne_nil_of_ok (hparser : Prompt parser) {inner rest after : List Lexeme} {value : α}
    (hok : parser (inner ++ rest) = .ok value (after ++ rest)) : inner ≠ [] := by
  rintro rfl
  have hlt := hparser.progress hok
  simp only [List.nil_append, List.length_append] at hlt
  omega

theorem cuttable (hparser : Prompt parser) : Cuttable parser where
  leaves := hparser.leaves
  cut {inner rest after value} hinner hok := by
    have hread : parser inner = .ok value after := by
      rw [hparser.behind (hparser.ne_nil_of_ok hok) hinner] at hok
      cases hreply : parser inner with
      | ok found left =>
          rw [hreply] at hok
          obtain ⟨rfl, hleft⟩ := Reply.ok.inj hok
          rw [List.append_cancel_right hleft]
      | mismatch left => rw [hreply] at hok; cases hok
      | tooDeep left => rw [hreply] at hok; cases hok
    exact ⟨hread, hparser.balanced hinner hread⟩

/-- What is refused in front of a cut is refused with the cut. -/
theorem refuses_of_append (hparser : Prompt parser) {inner rest : List Lexeme}
    (hinner : Balanced inner) (h : Refuses parser (inner ++ rest)) : Refuses parser inner := by
  by_cases hne : inner = []
  · rw [hne]
    exact hparser.refuses_nil
  · obtain ⟨left, h⟩ := h
    rw [hparser.behind hne hinner] at h
    cases hreply : parser inner with
    | ok value behind => rw [hreply] at h; cases h
    | mismatch behind => exact ⟨behind, hreply⟩
    | tooDeep behind => rw [hreply] at h; cases h

theorem cuttable_optional (hparser : Prompt parser) : Cuttable (optional parser) where
  leaves := hparser.leaves.optional
  cut {inner rest after found} hinner hok := by
    unfold Parser.optional at hok
    split at hok
    next value left heq =>
      obtain ⟨rfl, rfl⟩ := Reply.ok.inj hok
      obtain ⟨hread, hafter⟩ := hparser.cuttable.cut hinner heq
      exact ⟨optional_of_ok hread, hafter⟩
    next left heq =>
      obtain ⟨rfl, hleft⟩ := Reply.ok.inj hok
      rw [← List.append_cancel_right hleft]
      exact ⟨optional_of_refuses (hparser.refuses_of_append hinner ⟨left, heq⟩), hinner⟩
    next => cases hok

theorem cuttable_notFollowedBy (hparser : Prompt parser) : Cuttable (notFollowedBy parser) where
  leaves := hparser.leaves.notFollowedBy
  cut {inner rest after found} hinner hok := by
    unfold Parser.notFollowedBy at hok
    split at hok
    next => cases hok
    next left heq =>
      obtain ⟨-, hleft⟩ := Reply.ok.inj hok
      rw [← List.append_cancel_right hleft]
      exact ⟨notFollowedBy_of_refuses (hparser.refuses_of_append hinner ⟨left, heq⟩), hinner⟩
    next => cases hok

end Prompt

namespace Cuttable

variable {parser : Parser α}

theorem pure (value : α) : Cuttable (pure value) where
  leaves := Leaves.pure value
  cut hinner hok := by
    obtain ⟨rfl, hafter⟩ := pure_eq_ok.mp hok
    rw [← List.append_cancel_right hafter]
    exact ⟨rfl, hinner⟩

theorem bind {next : α → Parser β} (hparser : Cuttable parser)
    (hnext : ∀ value, Cuttable (next value)) : Cuttable (parser >>= next) where
  leaves := hparser.leaves.bind fun value => (hnext value).leaves
  cut {inner rest after value} hinner hok := by
    obtain ⟨first, middle, hfirst, hvalue⟩ := bind_eq_ok.mp hok
    -- the cut is behind what both parsers have read, so also behind what the first one has
    obtain ⟨between, hmiddle⟩ := (hnext first).leaves.of_eq hvalue
    rw [Reply.rest, ← List.append_assoc] at hmiddle
    subst hmiddle
    obtain ⟨hfirst, hbetween⟩ := hparser.cut hinner hfirst
    obtain ⟨hvalue, hafter⟩ := (hnext first).cut hbetween hvalue
    exact ⟨bind_eq_ok.mpr ⟨first, _, hfirst, hvalue⟩, hafter⟩

theorem map (hparser : Cuttable parser) (f : α → β) :
    Cuttable (do let value ← parser; return f value) :=
  hparser.bind fun value => pure (f value)

/-- A choice is made again if the first alternative is refused wherever the second one is read. -/
theorem orElse {first second : Parser α} (hfirst : Cuttable first) (hsecond : Cuttable second)
    (hother : ∀ {input rest value}, second input = .ok value rest → Refuses first input) :
    Cuttable (first <|> second) where
  leaves := hfirst.leaves.orElse hsecond.leaves
  cut hinner hok := by
    rcases orElse_eq_ok hok with hok | hok
    · obtain ⟨hread, hafter⟩ := hfirst.cut hinner hok
      exact ⟨orElse_of_ok hread _, hafter⟩
    · obtain ⟨hread, hafter⟩ := hsecond.cut hinner hok
      rw [orElse_of_refuses (hother hread)]
      exact ⟨hread, hafter⟩

theorem collect {step : Parser (Option α)} (hstep : Cuttable step) : Cuttable (collect step) where
  leaves := hstep.leaves.collect
  cut {inner rest after values} hinner hok := by
    generalize hinput : inner ++ rest = input at hok
    fun_induction Parser.collect step input generalizing inner values with
    | case1 input left heq =>
        obtain ⟨rfl, rfl⟩ := Reply.ok.inj hok
        subst hinput
        obtain ⟨hread, hafter⟩ := hstep.cut hinner heq
        exact ⟨by rw [Parser.collect, hread], hafter⟩
    | case2 input value left heq hlt ih =>
        cases hleft : Parser.collect step left with
        | ok others last =>
            rw [hleft] at hok
            obtain ⟨rfl, rfl⟩ := Reply.ok.inj hok
            -- the cut is behind what the later rounds have read
            obtain ⟨between, hbetween⟩ := hstep.leaves.collect.of_eq hleft
            rw [Reply.rest, ← List.append_assoc] at hbetween
            subst hinput hbetween
            obtain ⟨hround, hmiddle⟩ := hstep.cut hinner heq
            obtain ⟨hothers, hafter⟩ := ih hmiddle rfl hleft
            have hshorter : (between ++ after).length < inner.length := by
              simpa only [List.length_append, Nat.add_lt_add_iff_right] using hlt
            refine ⟨?_, hafter⟩
            rw [Parser.collect, hround]
            simp only [hshorter, ↓reduceIte, hothers]
            rfl
        | mismatch last => rw [hleft] at hok; cases hok
        | tooDeep last => rw [hleft] at hok; cases hok
    | case3 | case4 | case5 => cases hok

end Cuttable

namespace CuttableInside

/-- What is left before the closing parenthesis is refused; else the reading goes on behind it. -/
theorem expect {next : Unit → Parser α} (hnext : Cuttable (next ())) :
    CuttableInside (expect (.mark ")") >>= next) where
  leaves := (Leaves.expect _).bind fun _ => hnext.leaves
  cut {inner behind rest after value} hinner hbehind hok := by
    obtain ⟨_, middle, hclosing, hvalue⟩ := bind_eq_ok.mp hok
    cases inner with
    | nil =>
        rw [List.nil_append, expect_cons] at hclosing
        obtain ⟨-, rfl⟩ := Reply.ok.inj hclosing
        obtain ⟨hvalue, hafter⟩ := hnext.cut hbehind hvalue
        exact ⟨bind_eq_ok.mpr ⟨(), behind, expect_cons _ _, hvalue⟩, hafter⟩
    | cons lexeme inner =>
        have hne : lexeme ≠ .mark ")" := hinner.head_ne_closing .round
        rw [List.cons_append, expect_cons_of_ne hne] at hclosing
        cases hclosing

/-- What is enclosed in the parentheses is read without a look behind them. -/
theorem bind {marks : List String} {parser : Parser α} {next : α → Parser β}
    (hparser : Local marks parser) (hleaves : Leaves parser) (hclosing : ")" ∈ marks)
    (hnext : ∀ value, CuttableInside (next value)) : CuttableInside (parser >>= next) where
  leaves := hleaves.bind fun value => (hnext value).leaves
  cut {inner behind rest after value} hinner hbehind hok := by
    obtain ⟨first, middle, hfirst, hvalue⟩ := bind_eq_ok.mp hok
    have hcut := hparser.behind hinner (follow_cons hclosing behind)
    rw [hparser.behind hinner (follow_cons hclosing (behind ++ rest))] at hfirst
    cases hreply : parser inner with
    | ok found left =>
        rw [hreply] at hfirst hcut
        obtain ⟨rfl, rfl⟩ := Reply.ok.inj hfirst
        obtain ⟨hvalue, hafter⟩ :=
          (hnext found).cut (hparser.balanced hinner hreply) hbehind hvalue
        exact ⟨bind_eq_ok.mpr ⟨found, _, hcut, hvalue⟩, hafter⟩
    | mismatch left => rw [hreply] at hfirst; cases hfirst
    | tooDeep left => rw [hreply] at hfirst; cases hfirst

/-- A parenthesis together with what it encloses. -/
theorem cuttable {next : Unit → Parser α} (hnext : CuttableInside (next ())) :
    Cuttable (Parser.expect (.mark "(") >>= next) where
  leaves := (Leaves.expect _).bind fun _ => hnext.leaves
  cut {inner rest after value} hinner hok := by
    obtain ⟨_, middle, hopening, hvalue⟩ := bind_eq_ok.mp hok
    obtain ⟨_, hinput, rfl⟩ := Reads.expect _ _ _ _ hopening
    cases inner with
    | nil =>
        -- a parenthesis behind the cut is not in front of what is left there
        have hlength := (hnext.leaves.of_eq hvalue).length_le
        rw [List.nil_append] at hinput
        simp only [hinput, Reply.rest, List.length_append, List.length_cons] at hlength
        omega
    | cons lexeme inner =>
        rw [List.cons_append, List.singleton_append] at hinput
        obtain ⟨rfl, rfl⟩ := List.cons.inj hinput
        obtain ⟨inner, behind, rfl, hinner, hbehind⟩ := @Balanced.of_opening .round _ hinner
        rw [List.append_assoc] at hvalue
        obtain ⟨hvalue, hafter⟩ := hnext.cut hinner hbehind hvalue
        exact ⟨bind_eq_ok.mpr ⟨(), _, expect_cons _ _, hvalue⟩, hafter⟩

end CuttableInside

/-! ## Terminals -/

theorem cuttable_terminal (room : Nat) : Cuttable (terminal (piece room)) := by
  have hmany : Cuttable (many (piece room)) := (prompt_piece room).cuttable_optional.collect
  exact ((prompt_piece room).cuttable.bind fun first => hmany.map (first :: ·)).map _

/-- A terminal is read token by token. -/
theorem terminal_eq_ok {room : Nat} {input rest : List Lexeme} {formula : Formula}
    (h : terminal (piece room) input = .ok formula rest) :
    ∃ token others middle, formula = .terminal (token :: others) ∧
      input = token.lexemes ++ middle ∧ token.WellFormed symbols ∧
      many (piece room) middle = .ok others rest := by
  obtain ⟨tokens, _, htokens, hok⟩ := bind_eq_ok.mp h
  obtain ⟨rfl, rfl⟩ := pure_eq_ok.mp hok
  obtain ⟨token, middle, hpiece, hmany⟩ := bind_eq_ok.mp htokens
  obtain ⟨others, _, hothers, hok⟩ := bind_eq_ok.mp hmany
  obtain ⟨rfl, rfl⟩ := pure_eq_ok.mp hok
  obtain ⟨_, rfl, rfl, htoken⟩ := reads_piece room _ _ _ hpiece
  exact ⟨token, others, middle, rfl, rfl, htoken, hothers⟩

/-- A repetition lists nothing where its parser is refused at once. -/
theorem refuses_iff_of_many {parser : Parser α} {input rest : List Lexeme} {values : List α}
    (h : many parser input = .ok values rest) : Refuses parser input ↔ values = [] := by
  constructor
  · intro hrefused
    rw [many_of_refuses hrefused] at h
    exact (Reply.ok.inj h).1.symm
  · rintro rfl
    cases hreply : parser input with
    | mismatch left => exact ⟨left, hreply⟩
    | tooDeep left => exact absurd hreply (ne_tooDeep_of_many h left)
    | ok value left =>
        exfalso
        rw [many_apply, collect, optional_of_ok hreply] at h
        simp only at h
        split at h
        next =>
          cases hleft : collect (Parser.optional parser) left with
          | ok values last => rw [hleft] at h; cases h
          | mismatch last => rw [hleft] at h; cases h
          | tooDeep last => rw [hleft] at h; cases h
        next => cases h

/-- The attempt at parentheses in front of further tokens is refused, unless it gives up, if what
they enclose is no formula or there are further tokens. -/
theorem refuses_grouped_iff {room : Nat} {tokens others : List Token}
    (htokens : Token.AllWellFormed (innerSymbols ++ symbols) tokens) {tail rest : List Lexeme}
    (hothers : many (piece room) tail = .ok others rest) :
    Refuses (grouped (predicate room) (piece room))
        (.mark "(" :: (Token.lexemesAll tokens ++ .mark ")" :: tail)) ↔
      (∀ left, predicate room (Token.lexemesAll tokens) ≠ .tooDeep left) ∧
        ∀ inner, predicate room (Token.lexemesAll tokens) = .ok inner [] → others ≠ [] := by
  unfold Refuses
  rw [grouped_cons, predicate_enclosed htokens]
  cases hpredicate : predicate room (Token.lexemesAll tokens) with
  | mismatch left => simp [Reply.behind, Reply.andThen]
  | tooDeep left => simp [Reply.behind, Reply.andThen]
  | ok inner left =>
      have hleft := (local_level room).2.balanced (balanced_lexemesAll htokens) hpredicate
      cases left with
      | cons lexeme left =>
          -- what is left is balanced, so its first lexeme is not the closing parenthesis
          have hne : lexeme ≠ .mark ")" := hleft.head_ne_closing .round
          simp [Reply.behind, Reply.andThen, expect_cons_of_ne hne]
      | nil =>
          rw [Ne, ← refuses_iff_of_many hothers]
          simp only [Reply.behind, Reply.andThen, List.nil_append, expect_cons]
          cases hpiece : piece room tail with
          | mismatch left => simp [notFollowedBy, hpiece, Refuses]
          | tooDeep left => exact absurd hpiece (ne_tooDeep_of_many hothers left)
          | ok token left => simp [notFollowedBy, hpiece, Refuses]

/-- Where a terminal is read after the attempt at its first parentheses was refused, this attempt
is also refused if the text is cut behind the terminal. -/
theorem refuses_grouped_of_cut {room : Nat} {inner rest after : List Lexeme} {formula : Formula}
    (hrefused : Refuses (grouped (predicate room) (piece room)) (inner ++ rest))
    (hlong : terminal (piece room) (inner ++ rest) = .ok formula (after ++ rest))
    (hshort : terminal (piece room) inner = .ok formula after) :
    Refuses (grouped (predicate room) (piece room)) inner := by
  obtain ⟨token, others, middle, rfl, rfl, htoken, hothers⟩ := terminal_eq_ok hshort
  obtain ⟨_, _, _, hsame, hinput, -, hothersLong⟩ := terminal_eq_ok hlong
  cases hsame
  rw [List.append_assoc] at hinput hrefused
  obtain rfl := List.append_cancel_left hinput
  by_cases hround : ∃ tokens, token = .group .round tokens
  · obtain ⟨tokens, rfl⟩ := hround
    -- the further tokens are the same, with the cut and without it
    rw [lexemes_round_append, refuses_grouped_iff htoken hothersLong] at hrefused
    rw [lexemes_round_append, refuses_grouped_iff htoken hothers]
    exact hrefused
  · exact refuses_grouped_of_not_round htoken (not_exists.mp hround) _ _ _

/-! ## Operators -/

section

variable {unary predicate operand : Parser Formula}

theorem cuttable_chain (h : Cuttable operand) (connectives : List Connective) :
    Cuttable (chain connectives operand) := by
  have hconnective : Prompt
      (next fun lexeme => connectives.find? fun c => lexeme = .mark c.symbol) :=
    Prompt.next fun lexeme c hfound => isPlain_of_find? hfound
  have hlink : Cuttable (link connectives operand) := by
    refine hconnective.cuttable_optional.bind fun found => ?_
    cases found with
    | none => exact Cuttable.pure none
    | some c => exact h.map fun right => some (c, right)
  exact h.bind fun _ => hlink.collect.map _

theorem cuttable_disjunction (h : Cuttable unary) : Cuttable (disjunction unary) :=
  cuttable_chain (cuttable_chain (cuttable_chain h _) _) _

theorem cuttable_negation (h : Cuttable unary) : Cuttable (negation unary) :=
  (Prompt.expect (isPlain_mark (by decide))).cuttable.bind fun _ => h.map _

theorem cuttable_application (h : Local behindPredicate predicate) (hleaves : Leaves predicate)
    (keyword : String) (op : UnaryOp) : Cuttable (application keyword op predicate) :=
  (Prompt.expect (isPlain_word keyword)).cuttable.bind fun _ => CuttableInside.cuttable <|
    CuttableInside.bind h hleaves (by decide) fun _ => CuttableInside.expect (Cuttable.pure _)

theorem cuttable_since (h : Local behindPredicate predicate) (hleaves : Leaves predicate) :
    Cuttable (since predicate) := by
  have hcomma : Local [")"] (expect (.mark ",")) :=
    Local.expect (by decide) (isPlain_mark (by decide))
  refine (Prompt.expect (isPlain_word "since")).cuttable.bind fun _ => CuttableInside.cuttable ?_
  refine CuttableInside.bind h hleaves (by decide) fun left =>
    CuttableInside.bind hcomma (Leaves.expect _) (by decide) fun _ => ?_
  exact CuttableInside.bind h hleaves (by decide) fun right =>
    CuttableInside.expect (Cuttable.pure _)

theorem cuttable_temporal (h : Local behindPredicate predicate) (hleaves : Leaves predicate) :
    Cuttable (temporal predicate) := by
  have happlication := cuttable_application h hleaves
  refine (happlication _ _).orElse ((happlication _ _).orElse ((happlication _ _).orElse
    (cuttable_since h hleaves) ?_) ?_) ?_
  · intro input rest formula hok
    exact refuses_application_of_head? (head?_of_expect_bind hok) (by decide) _
  · intro input rest formula hok
    rcases orElse_eq_ok hok with hok | hok
    · exact refuses_application_of_head? (head?_of_expect_bind hok) (by decide) _
    · exact refuses_application_of_head? (head?_of_expect_bind hok) (by decide) _
  · intro input rest formula hok
    rcases orElse_eq_ok hok with hok | hok
    · exact refuses_application_of_head? (head?_of_expect_bind hok) (by decide) _
    rcases orElse_eq_ok hok with hok | hok
    · exact refuses_application_of_head? (head?_of_expect_bind hok) (by decide) _
    · exact refuses_application_of_head? (head?_of_expect_bind hok) (by decide) _

end

theorem cuttable_grouped (room : Nat) : Cuttable (grouped (predicate room) (piece room)) :=
  CuttableInside.cuttable <| CuttableInside.bind (local_level room).2 (leaves_level room).2
    (by decide) fun inner => CuttableInside.expect <|
      (prompt_piece room).cuttable_notFollowedBy.map fun _ => Formula.grouped inner

/-- Parentheses are read again as a formula or as tokens, as they were before. -/
theorem cuttable_primary (room : Nat) :
    Cuttable (grouped (predicate room) (piece room) <|> terminal (piece room)) where
  leaves := (cuttable_grouped room).leaves.orElse (cuttable_terminal room).leaves
  cut {inner rest after formula} hinner hok := by
    rcases orElse_ok_cases hok with hok | ⟨hrefused, hok⟩
    · obtain ⟨hread, hafter⟩ := (cuttable_grouped room).cut hinner hok
      exact ⟨orElse_of_ok hread _, hafter⟩
    · obtain ⟨hread, hafter⟩ := (cuttable_terminal room).cut hinner hok
      rw [orElse_of_refuses (refuses_grouped_of_cut hrefused hok hread)]
      exact ⟨hread, hafter⟩

/-- What begins a formula in parentheses or a terminal begins no other formula. -/
theorem refuses_operators_of_primary {room : Nat} {input rest : List Lexeme} {formula : Formula}
    (h : (grouped (predicate room) (piece room) <|> terminal (piece room)) input = .ok formula rest)
    (unary inner : Parser Formula) :
    Refuses (negation unary) input ∧ Refuses (temporal inner) input := by
  rcases orElse_eq_ok h with h | h
  · have hhead := head?_of_expect_bind h
    exact ⟨refuses_negation (by simp [hhead]) _, refuses_temporal (by simp [hhead]) _⟩
  · obtain ⟨token, _, middle, -, rfl, htoken, -⟩ := terminal_eq_ok h
    exact refuses_operators_of_token htoken unary inner middle

/-! ## Levels -/

theorem cuttable_unary (room : Nat) : Cuttable (unary room) := by
  induction room with
  | zero => exact ⟨Leaves.tooDeep, fun _ hok => by cases hok⟩
  | succ room ih =>
      refine (cuttable_negation ih).orElse ((cuttable_temporal (local_level room).2
        (leaves_level room).2).orElse (cuttable_primary room) ?_) ?_
      · intro input rest formula hok
        exact (refuses_operators_of_primary hok (unary room) _).2
      · intro input rest formula hok
        rcases orElse_eq_ok hok with hok | hok
        · obtain ⟨keyword, hhead⟩ := head?_of_temporal hok
          exact refuses_negation (by simp [hhead]) _
        · exact (refuses_operators_of_primary hok _ (predicate room)).1

/-- A whole formula is read again if the text is cut right behind it. An arrow that was left unread
for want of a formula behind it stands behind the cut. -/
theorem predicate_of_cut {room : Nat} {inner rest : List Lexeme} {formula : Formula}
    (hinner : Balanced inner) (h : predicate room (inner ++ rest) = .ok formula rest) :
    predicate room inner = .ok formula [] := by
  induction room generalizing inner formula with
  | zero => cases h
  | succ room ih =>
      obtain ⟨left, middle, hleft, h⟩ := bind_eq_ok.mp h
      obtain ⟨found, behind, hfound, h⟩ := bind_eq_ok.mp h
      have hdisjunction := cuttable_disjunction (cuttable_unary (room + 1))
      cases found with
      | none =>
          obtain ⟨rfl, rfl⟩ := pure_eq_ok.mp h
          rcases optional_eq_ok hfound with ⟨_, ⟨⟩, _⟩ | ⟨-, rfl⟩
          obtain ⟨hleft, -⟩ := @Cuttable.cut _ _ hdisjunction _ _ [] _ hinner hleft
          have hend : Refuses (do expect (.mark "->"); predicate room : Parser Formula) [] :=
            (refuses_expect (by simp)).bind _
          exact bind_eq_ok.mpr ⟨left, [], hleft, bind_eq_ok.mpr
            ⟨none, [], optional_of_refuses hend, rfl⟩⟩
      | some right =>
          obtain ⟨rfl, rfl⟩ := pure_eq_ok.mp h
          rcases optional_eq_ok hfound with ⟨_, ⟨⟩, hfound⟩ | ⟨⟨⟩, -⟩
          obtain ⟨_, consequent, harrow, hright⟩ := bind_eq_ok.mp hfound
          obtain ⟨_, rfl, rfl⟩ := Reads.expect _ _ _ _ harrow
          obtain ⟨consequent, rfl⟩ := (leaves_level room).2.of_eq hright
          obtain ⟨hleft, harrow⟩ :=
            @Cuttable.cut _ _ hdisjunction _ _ (.mark "->" :: consequent) _ hinner hleft
          have hright := ih (harrow.of_plain (isPlain_mark (by decide))) hright
          have hsome : (do expect (.mark "->"); predicate room : Parser Formula)
              (.mark "->" :: consequent) = .ok right [] :=
            bind_eq_ok.mpr ⟨(), consequent, expect_cons _ _, hright⟩
          exact bind_eq_ok.mpr ⟨left, _, hleft, bind_eq_ok.mpr
            ⟨some right, [], optional_of_ok hsome, rfl⟩⟩

end PastTime.Grammar

import PastTime.Proofs.Names.Issuing
import PastTime.Proofs.Predicate.Parts

/-!
# Nesting of brackets

A text is well bracketed if reading it from left to right, with a stack of the open brackets, never
closes a bracket that is not the most recent one, and leaves none open. Such a text never touches
the brackets around it. The terms of an accepted text are well bracketed, because brackets are the
one thing that is matched in a terminal, and so is every expression that is generated from them.
-/

namespace PastTime

/-! ## Open brackets -/

namespace Bracket

/-- Closes the most recent bracket, which must be of the given kind. -/
def close (bracket : Bracket) : List Bracket → Option (List Bracket)
  | [] => none
  | last :: outer => if last = bracket then some outer else none

/-- What a character makes of the open brackets, the most recent first. -/
def step (opened : List Bracket) : Char → Option (List Bracket)
  | '(' => some (round :: opened)
  | '[' => some (square :: opened)
  | ')' => round.close opened
  | ']' => square.close opened
  | _ => some opened

theorem close_append {bracket : Bracket} {opened rest : List Bracket}
    (h : bracket.close opened = some rest) (outer : List Bracket) :
    bracket.close (opened ++ outer) = some (rest ++ outer) := by
  cases opened with
  | nil => cases h
  | cons last inner =>
      rw [close] at h
      split at h
      next hlast =>
        cases h
        simp [close, hlast]
      next => cases h

theorem step_append {opened rest : List Bracket} {c : Char} (h : step opened c = some rest)
    (outer : List Bracket) : step (opened ++ outer) c = some (rest ++ outer) := by
  unfold step at h ⊢
  split at h
  · cases h
    rfl
  · cases h
    rfl
  · exact close_append h outer
  · exact close_append h outer
  · cases h
    rfl

theorem step_of_not_mem {c : Char} (h : c ∉ ['(', ')', '[', ']']) (opened : List Bracket) :
    step opened c = some opened := by
  simp only [List.mem_cons, List.not_mem_nil, or_false, not_or] at h
  simp [step, h]

end Bracket

namespace Text

/-- The brackets that are open behind the characters, the most recent first, if those in `outer` are
open before them. There is no answer if a bracket is closed that is not the most recent one. -/
def openAfter (outer : List Bracket) (chars : List Char) : Option (List Bracket) :=
  chars.foldlM Bracket.step outer

/-- Every bracket that is closed is the most recent open one, and none stays open. -/
def WellBracketed (text : String) : Prop := openAfter [] text.toList = some []

/-- Whatever brackets are open before the text, they stay open throughout it, and none is added. -/
def LeavesOuter (text : String) : Prop :=
  ∀ outer, openAfter outer text.toList = some outer ∧
    ∀ front back, text.toList = front ++ back →
      ∃ opened, openAfter outer front = some (opened ++ outer)

/-- Whether a text has no brackets. -/
def isBracketFree (text : String) : Bool := text.toList.all fun c => c ∉ ['(', ')', '[', ']']

theorem openAfter_append {outer : List Bracket} {front back : List Char} :
    openAfter outer (front ++ back) =
      openAfter outer front >>= fun opened => openAfter opened back :=
  List.foldlM_append

/-- Reading goes on in the same way inside further brackets. -/
theorem openAfter_append_outer {opened rest : List Bracket} {chars : List Char}
    (h : openAfter opened chars = some rest) (outer : List Bracket) :
    openAfter (opened ++ outer) chars = some (rest ++ outer) := by
  induction chars generalizing opened with
  | nil =>
      cases h
      rfl
  | cons c chars ih =>
      obtain ⟨next, hstep, hrest⟩ := Option.bind_eq_some_iff.mp h
      exact Option.bind_eq_some_iff.mpr ⟨next ++ outer, Bracket.step_append hstep outer, ih hrest⟩

namespace WellBracketed

variable {text other : String}

theorem openAfter_eq (h : WellBracketed text) (outer : List Bracket) :
    openAfter outer text.toList = some outer :=
  openAfter_append_outer h outer

theorem leavesOuter (h : WellBracketed text) : LeavesOuter text := by
  intro outer
  refine ⟨h.openAfter_eq outer, ?_⟩
  intro front back hsplit
  rw [WellBracketed, hsplit, openAfter_append] at h
  obtain ⟨opened, hfront, -⟩ := Option.bind_eq_some_iff.mp h
  exact ⟨opened, openAfter_append_outer hfront outer⟩

theorem append (htext : WellBracketed text) (hother : WellBracketed other) :
    WellBracketed (text ++ other) := by
  -- the first text closes all that it has opened, so the second one starts afresh
  rw [WellBracketed, String.toList_append, openAfter_append, htext.openAfter_eq]
  exact hother

theorem enclosed (bracket : Bracket) (h : WellBracketed text) :
    WellBracketed (bracket.opening ++ text ++ bracket.closing) := by
  have hopening : openAfter [] bracket.opening.toList = some [bracket] := by cases bracket <;> rfl
  have hclosing : openAfter [bracket] bracket.closing.toList = some [] := by cases bracket <;> rfl
  simp [WellBracketed, openAfter_append, hopening, h.openAfter_eq, hclosing]

theorem parenthesized (h : WellBracketed text) : WellBracketed ("(" ++ text ++ ")") :=
  h.enclosed .round

theorem of_isBracketFree (h : isBracketFree text = true) : WellBracketed text := by
  have hchars : ∀ c ∈ text.toList, c ∉ ['(', ')', '[', ']'] := by simpa [isBracketFree] using h
  rw [WellBracketed]
  generalize text.toList = chars at hchars ⊢
  induction chars with
  | nil => rfl
  | cons c chars ih =>
      obtain ⟨hc, hchars⟩ := List.forall_mem_cons.mp hchars
      exact Option.bind_eq_some_iff.mpr ⟨[], Bracket.step_of_not_mem hc [], ih hchars⟩

end WellBracketed

theorem isBracketFree_of_isWord {text : String} (h : isWord text = true) :
    isBracketFree text = true := by
  simp only [isWord, isBracketFree, List.all_eq_true, decide_eq_true_eq] at h ⊢
  intro c hc hbracket
  simp only [List.mem_cons, List.not_mem_nil, or_false] at hbracket
  rcases hbracket with rfl | rfl | rfl | rfl <;> exact absurd (h _ hc) (by decide)

end Text

/-! ## Terms -/

theorem Grammar.isBracketFree_of_mem_symbols :
    ∀ mark ∈ innerSymbols ++ symbols, Text.isBracketFree mark = true := by
  decide

namespace Token

mutual

/-- The brackets of a token are matched: a word has none, no mark has one, and a group adds the two
that it stands in. -/
theorem wellBracketed_text {marks : List String}
    (hmarks : ∀ mark ∈ marks, Text.isBracketFree mark = true) :
    (token : Token) → token.WellFormed marks → (∀ lexeme ∈ token.lexemes, lexeme.Proper) →
      Text.WellBracketed token.text
  | word text, _, hproper => by
      have hword := (hproper (.word text) List.mem_cons_self).2
      exact .of_isBracketFree (Text.isBracketFree_of_isWord (List.all_eq_true.mpr hword))
  | symbol text, htoken, _ => .of_isBracketFree (hmarks text htoken)
  | group bracket tokens, htoken, hproper => by
      refine .enclosed bracket (wellBracketed_textAll Grammar.isBracketFree_of_mem_symbols tokens
        htoken fun lexeme hlexeme => hproper lexeme ?_)
      simp [lexemes, hlexeme]

theorem wellBracketed_textAll {marks : List String}
    (hmarks : ∀ mark ∈ marks, Text.isBracketFree mark = true) :
    (tokens : List Token) → AllWellFormed marks tokens →
      (∀ lexeme ∈ lexemesAll tokens, lexeme.Proper) → Text.WellBracketed (textAll tokens)
  | [], _, _ => .of_isBracketFree (by decide)
  | token :: rest, htokens, hproper => by
      obtain ⟨hfirst, hrest⟩ := List.forall_mem_append.mp hproper
      exact (wellBracketed_text hmarks token htokens.1 hfirst).append
        (wellBracketed_textAll hmarks rest htokens.2 hrest)

end

end Token

/-- The terminals of an accepted text are well bracketed. -/
theorem Formula.wellBracketed_of_parse {text : String} {formula : Formula}
    (h : parse text = .ok formula) :
    ∀ tokens ∈ formula.terminals, Text.WellBracketed (Token.textAll tokens) := by
  intro tokens htokens
  obtain ⟨-, hwellFormed⟩ := wellFormed_of_mem_terminals (lexemes_of_parseWithin h).2 htokens
  exact Token.wellBracketed_textAll
    (fun mark hmark => Grammar.isBracketFree_of_mem_symbols mark (List.mem_append_right _ hmark))
    tokens hwellFormed (proper_of_parse h htokens)

/-- The terms of a predicate are the terminals of its formula, some of them in parentheses, and the
term that always holds. -/
theorem Compiles.forall_terms {P : String → Prop} (htruth : P Text.trueLiteral)
    (hparentheses : ∀ text, P text → P ("(" ++ text ++ ")")) {formula : Formula}
    {predicate : Predicate} (h : Compiles formula predicate)
    (hterminals : ∀ tokens ∈ formula.terminals, P (Token.textAll tokens)) :
    ∀ term ∈ predicate.terms, P term.expression := by
  induction h with
  | terminal tokens => simpa [Predicate.terms, Formula.terminals] using hterminals
  | @grouped inner predicate _ ih =>
      cases predicate with
      | term found =>
          have hfound := ih hterminals found List.mem_cons_self
          simpa [Predicate.parenthesized, Predicate.terms, Term.parenthesized] using
            hparentheses _ hfound
      | not | connective | previously | since => exact ih hterminals
  | unary _ hresult ih =>
      cases hresult <;> simpa [Predicate.terms, Predicate.truth, htruth] using ih hterminals
  | binary _ _ hresult ihleft ihright =>
      obtain ⟨hleft, hright⟩ := List.forall_mem_append.mp hterminals
      cases hresult <;> exact List.forall_mem_append.mpr ⟨ihleft hleft, ihright hright⟩

/-! ## Expressions -/

/-- An expression is well bracketed if the terms of the predicate are, and if no auxiliary has
brackets in its name. -/
theorem Predicate.wellBracketed_expression {predicate : Predicate}
    (hterms : ∀ term ∈ predicate.terms, Text.WellBracketed term.expression)
    (hnames : ∀ auxiliary ∈ predicate.auxiliaries, Text.isBracketFree auxiliary.name = true) :
    Text.WellBracketed predicate.expression := by
  induction predicate with
  | term found => exact hterms found List.mem_cons_self
  | not operand ih =>
      have hshape : (not operand).expression = "!" ++ ("(" ++ operand.expression ++ ")") :=
        String.toList_inj.mp (by simp [expression])
      rw [hshape]
      exact .append (.of_isBracketFree (by decide)) (ih hterms hnames).parenthesized
  | connective c left right ihleft ihright =>
      have hshape : (connective c left right).expression =
          "(" ++ left.expression ++ ")" ++ c.symbol ++ ("(" ++ right.expression ++ ")") :=
        String.toList_inj.mp (by simp [expression])
      have hsymbol : Text.isBracketFree c.symbol = true := by cases c <;> decide
      obtain ⟨hleft, hright⟩ := List.forall_mem_append.mp hterms
      obtain ⟨hleftNames, hrightNames⟩ := List.forall_mem_append.mp hnames
      rw [hshape]
      exact .append (.append (ihleft hleft hleftNames).parenthesized (.of_isBracketFree hsymbol))
        (ihright hright hrightNames).parenthesized
  | previously operand name _ =>
      exact .of_isBracketFree (hnames ⟨name, .previously⟩ (by simp [auxiliaries]))
  | since left right hold trail _ _ =>
      have hshape : (since left right hold trail).expression =
          "(" ++ (hold ++ "&&" ++ trail) ++ ")" :=
        String.toList_inj.mp (by simp [expression])
      have hhold := hnames ⟨hold, .sinceHold⟩ (by simp [auxiliaries])
      have htrail := hnames ⟨trail, .sinceTrail⟩ (by simp [auxiliaries])
      rw [hshape]
      exact .parenthesized (.append (.append (.of_isBracketFree hhold)
        (.of_isBracketFree (by decide))) (.of_isBracketFree htrail))

/-- Whatever is generated from an accepted text is well bracketed, as long as no name that is issued
has brackets: the expression of every part of the predicate, and every term. So no term touches the
parentheses that are put around it. -/
theorem wellBracketed_of_run_parsePredicate {σ : Type} [NameSource σ] {text : String}
    {predicate : Predicate} {source later : σ}
    (hnames : IssuesOnly (fun name => Text.isBracketFree name = true) source)
    (h : (parsePredicate text).run source = (.ok predicate, later)) :
    (∀ part, Predicate.Within (fun _ => True) part predicate →
      Text.WellBracketed part.expression) ∧
      ∀ term ∈ predicate.terms,
        Text.WellBracketed term.expression ∧ Text.LeavesOuter term.expression := by
  obtain ⟨formula, hparse, hcompiles, hissued⟩ := issued_of_run_parsePredicate h
  have hterms : ∀ term ∈ predicate.terms, Text.WellBracketed term.expression :=
    hcompiles.forall_terms (.of_isBracketFree (by decide)) (fun _ => .parenthesized)
      (Formula.wellBracketed_of_parse hparse)
  have hauxiliaries := hissued.of_issuesOnly (hnames.reserveAll _)
  refine ⟨?_, fun term hterm => ⟨hterms term hterm, (hterms term hterm).leavesOuter⟩⟩
  intro part hpart
  exact Predicate.wellBracketed_expression
    (fun term hterm => hterms term (hpart.terms_subset hterm))
    (fun auxiliary hauxiliary => hauxiliaries auxiliary (hpart.auxiliaries_subset hauxiliary))

set_option maxRecDepth 20000 in
/-- A call with brackets of both kinds is a term that stands below `since`. -/
theorem wellBracketed_of_run_parsePredicate_mixed :
    ∃ predicate later,
      (parsePredicate "since(f(a[0], (b)), ((c))) && !d").run (Names.sequential (.new "T")) =
        (.ok predicate, later) ∧
      ⟨"f(a[0],(b))"⟩ ∈ predicate.terms ∧ Text.WellBracketed predicate.expression ∧
      Text.LeavesOuter "f(a[0],(b))" := by
  have hparse : Formula.parse "since(f(a[0], (b)), ((c))) && !d" = .ok (.binary (.connective .and)
      (.binary .since
        (.terminal [.word "f", .group .round [.word "a", .group .square [.word "0"], .symbol ",",
          .group .round [.word "b"]]])
        (.grouped (.grouped (.terminal [.word "c"]))))
      (.unary .not (.terminal [.word "d"]))) := by
    decide +kernel
  have hnames := (@Names.issuesOnly_identifiers (.sequential (.new "T")) (by decide)).mono
    fun _ hname => Text.isBracketFree_of_isWord hname.1
  obtain ⟨predicate, later, hrun, hcompiles, -⟩ :=
    run_parsePredicate hparse (Names.sequential (.new "T"))
  obtain ⟨hparts, hterms⟩ := wellBracketed_of_run_parsePredicate hnames hrun
  have hmem : ⟨"f(a[0],(b))"⟩ ∈ predicate.terms := by
    obtain _ | _ | _ | ⟨hleft, _, hand⟩ := hcompiles
    cases hand
    obtain _ | _ | _ | ⟨hcall, _, hsince⟩ := hleft
    cases hsince
    cases hcall
    exact List.mem_cons_self
  exact ⟨predicate, later, hrun, hmem, hparts predicate .refl, (hterms _ hmem).2⟩

end PastTime

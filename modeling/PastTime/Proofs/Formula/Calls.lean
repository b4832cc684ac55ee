import PastTime.Proofs.Formula.Congruence
import PastTime.Proofs.Formula.Levels
import PastTime.Proofs.Formula.Progress

/-!
# How deep the parsers call each other

The parsers of groups, of formulas without outer connectives and of all formulas call each other. To
see these calls, the rules of the grammar are read as watched parsers: they reply as parsers do, and
beside the reply there is a list of the calls that were made, which may use up a limited fuel. A
caller passes its depth on or one more, and a parser that is too deep makes no call to a deeper one.
So no call is deeper than the limit allows by more than one level, and fuel for this many levels is
enough for every text.
-/

namespace PastTime.Grammar

open PastTime.Parser

/-- The parsers that call each other. -/
inductive Nonterminal where
  | group
  | unary
  | predicate
  deriving DecidableEq, Repr

/-- What the parser reads. -/
abbrev Nonterminal.Value : Nonterminal → Type
  | group => Token
  | unary | predicate => Formula

/-- The parser of the grammar with the given room. -/
def Nonterminal.parser (room : Nat) : (callee : Nonterminal) → Parser callee.Value
  | group => Grammar.group room
  | unary => Grammar.unary room
  | predicate => Grammar.predicate room

/-- A call of a parser, with the number of levels that it sits below the root. -/
structure Call where
  callee : Nonterminal
  depth : Nat
  deriving DecidableEq, Repr

/-! ## Watched computations -/

/-- What is seen of a computation: its result, unless it has run out of fuel, and the calls that it
has made, in their order. -/
structure Watched (α : Type) where
  result : Option α
  calls : List Call

namespace Watched

variable {α β : Type}

instance : Monad Watched where
  pure value := ⟨some value, []⟩
  bind first next :=
    match first.result with
    | none => ⟨none, first.calls⟩
    | some value => ⟨(next value).result, first.calls ++ (next value).calls⟩

/-- Notes a call. -/
def log (call : Call) : Watched Unit := ⟨some (), [call]⟩

theorem result_bind {first : Watched α} {next : α → Watched β} {value : α} {later : β}
    (hfirst : first.result = some value) (hnext : (next value).result = some later) :
    (first >>= next).result = some later := by
  simp only [bind, hfirst, hnext]

/-- Every call is at most so deep. -/
def Within (bound : Nat) (watched : Watched α) : Prop := ∀ call ∈ watched.calls, call.depth ≤ bound

namespace Within

variable {bound : Nat}

theorem pure (value : α) : Within bound (pure value) := List.forall_mem_nil _

theorem log {call : Call} (h : call.depth ≤ bound) : Within bound (log call) :=
  List.forall_mem_singleton.mpr h

theorem bind {first : Watched α} {next : α → Watched β} (hfirst : Within bound first)
    (hnext : ∀ value, Within bound (next value)) : Within bound (first >>= next) := by
  intro call hcall
  simp only [Bind.bind] at hcall
  split at hcall
  next => exact hfirst call hcall
  next value _ =>
    rcases List.mem_append.mp hcall with hcall | hcall
    · exact hfirst call hcall
    · exact hnext value call hcall

end Within

end Watched

/-! ## Watched parsers -/

/-- A parser whose calls are seen. -/
def WatchedParser (α : Type) : Type := List Lexeme → Watched (Reply α)

namespace WatchedParser

variable {α β : Type}

/-- Goes on with the value and the lexemes that are left, unless the reply is a failure. -/
def andThen (parser : WatchedParser α) (next : α → WatchedParser β) : WatchedParser β :=
  fun input => do
    match ← parser input with
    | .ok value rest => next value rest
    | .mismatch rest => return .mismatch rest
    | .tooDeep rest => return .tooDeep rest

def orElse (first second : WatchedParser α) : WatchedParser α := fun input => do
  match ← first input with
  | .ok value rest => return .ok value rest
  | .mismatch _ => second input
  | .tooDeep rest => return .tooDeep rest

def collect (step : WatchedParser (Option α)) (input : List Lexeme) : Watched (Reply (List α)) := do
  match ← step input with
  | .ok none rest => return .ok [] rest
  | .ok (some value) rest =>
    if rest.length < input.length then
      return (← collect step rest).andThen fun values rest => .ok (value :: values) rest
    else return .mismatch input
  | .mismatch rest => return .mismatch rest
  | .tooDeep rest => return .tooDeep rest
termination_by input.length

instance : Parsing WatchedParser where
  pure value := fun input => return .ok value input
  bind := andThen
  mismatch := fun input => return .mismatch input
  tooDeep := fun input => return .tooDeep input
  orElse := orElse
  next meaning := fun input => return Parser.next meaning input
  optional parser := fun input => do
    let reply ← parser input
    return Parser.optional (fun _ => reply) input
  notFollowedBy parser := fun input => do
    let reply ← parser input
    return Parser.notFollowedBy (fun _ => reply) input
  collect := collect

/-- Notes that the parser is called. -/
def called (call : Call) (parser : WatchedParser α) : WatchedParser α := fun input => do
  Watched.log call
  parser input

end WatchedParser

/-! ## The grammar, watched -/

/-- The depth of a formula is checked before anything is read. -/
def watchUnary (depth : Nat) (below : (callee : Nonterminal) → WatchedParser callee.Value) :
    WatchedParser Formula :=
  if maxDepth < depth then Parsing.tooDeep
  else unaryOf (below .group) (below .unary) (below .predicate)

/-- The three parsers at the given depth, from those one level deeper. A formula leaves it to its
first operand to check the depth. -/
def watch (depth : Nat) (below : (callee : Nonterminal) → WatchedParser callee.Value) :
    (callee : Nonterminal) → WatchedParser callee.Value
  | .group => if maxDepth < depth then noGroup else groupOf (below .group)
  | .unary => watchUnary depth below
  | .predicate =>
    implication (.called ⟨.unary, depth⟩ (watchUnary depth below)) (below .predicate)

/-- Watches a parser at the given depth. Each level of calls uses up one unit of fuel. -/
def evaluate : (fuel depth : Nat) → (callee : Nonterminal) → List Lexeme →
    Watched (Reply callee.Value)
  | 0, _, _, _ => ⟨none, []⟩
  | fuel + 1, depth, callee, input =>
    watch depth (fun callee => .called ⟨callee, depth + 1⟩ (evaluate fuel (depth + 1) callee))
      callee input

theorem evaluate_succ (fuel depth : Nat) (callee : Nonterminal) :
    evaluate (fuel + 1) depth callee =
      watch depth (fun callee => .called ⟨callee, depth + 1⟩ (evaluate fuel (depth + 1) callee))
        callee := rfl

/-! ## What is watched is what is read -/

/-- No call is more than one level below the deepest, and with enough fuel the replies are those of
the parser. -/
structure Mirrors (enough : Prop) {α : Type} (watched : WatchedParser α) (parser : Parser α) :
    Prop where
  result : enough → ∀ input, (watched input).result = some (parser input)
  calls : ∀ input, (watched input).Within (maxDepth + 1)

namespace Mirrors

variable {enough : Prop} {α β : Type}

theorem of_eq {watched : WatchedParser α} {parser : Parser α} (h : Mirrors enough watched parser)
    (henough : enough) {input : List Lexeme} {reply : Reply α} (hreply : parser input = reply) :
    (watched input).result = some reply :=
  hreply ▸ h.result henough input

/-- A parser that makes no call is watched as it is. -/
theorem of_return (parser : Parser α) : Mirrors enough (fun input => return parser input) parser :=
  ⟨fun _ _ => rfl, fun _ => .pure _⟩

theorem bind {watched : WatchedParser α} {parser : Parser α} {next : α → WatchedParser β}
    {next' : α → Parser β} (h : Mirrors enough watched parser)
    (hnext : ∀ value, Mirrors enough (next value) (next' value)) :
    Mirrors enough (watched >>= next) (parser >>= next') where
  result henough input := by
    rw [bind_apply]
    cases hreply : parser input with
    | ok value rest =>
        exact Watched.result_bind (h.of_eq henough hreply) ((hnext value).result henough rest)
    | mismatch rest | tooDeep rest => exact Watched.result_bind (h.of_eq henough hreply) rfl
  calls input := by
    refine (h.calls input).bind fun reply => ?_
    cases reply with
    | ok value rest => exact (hnext value).calls rest
    | mismatch rest | tooDeep rest => exact .pure _

theorem orElse {first second : WatchedParser α} {first' second' : Parser α}
    (hfirst : Mirrors enough first first') (hsecond : Mirrors enough second second') :
    Mirrors enough (first <|> second) (first' <|> second') where
  result henough input := by
    change _ = some (Parser.orElse first' second' input)
    rw [Parser.orElse]
    cases hreply : first' input with
    | mismatch rest =>
        exact Watched.result_bind (hfirst.of_eq henough hreply) (hsecond.result henough input)
    | ok value rest | tooDeep rest =>
        exact Watched.result_bind (hfirst.of_eq henough hreply) rfl
  calls input := by
    refine (hfirst.calls input).bind fun reply => ?_
    cases reply with
    | mismatch rest => exact hsecond.calls input
    | ok value rest | tooDeep rest => exact .pure _

theorem collect {watched : WatchedParser (Option α)} {step : Parser (Option α)}
    (h : Mirrors enough watched step) : Mirrors enough (watched.collect) (Parser.collect step) where
  result henough input := by
    fun_induction Parser.collect step input with
    | case1 input rest hreply | case4 input rest hreply | case5 input rest hreply =>
        rw [WatchedParser.collect]
        exact Watched.result_bind (h.of_eq henough hreply) rfl
    | case2 input value rest hreply hlt ih =>
        rw [WatchedParser.collect]
        refine Watched.result_bind (h.of_eq henough hreply) ?_
        simp only [hlt, ↓reduceIte]
        exact Watched.result_bind ih rfl
    | case3 input value rest hreply hstuck =>
        rw [WatchedParser.collect]
        refine Watched.result_bind (h.of_eq henough hreply) ?_
        simp only [hstuck, ↓reduceIte]
        rfl
  calls input := by
    induction hlength : input.length using Nat.strong_induction_on generalizing input with
    | _ length ih =>
        rw [WatchedParser.collect]
        refine (h.calls input).bind fun reply => ?_
        split
        next => exact .pure _
        next value rest =>
          split
          next hlt => exact (ih rest.length (hlength ▸ hlt) rest rfl).bind fun _ => .pure _
          next => exact .pure _
        next => exact .pure _
        next => exact .pure _

theorem congruence (enough : Prop) :
    Congruence WatchedParser Parser fun _ => Mirrors enough where
  pure _ := of_return _
  bind := bind
  mismatch := of_return _
  tooDeep := of_return _
  orElse := orElse
  next _ := of_return _
  optional h :=
    ⟨fun henough input => Watched.result_bind (h.result henough input) rfl,
      fun input => (h.calls input).bind fun _ => .pure _⟩
  notFollowedBy h :=
    ⟨fun henough input => Watched.result_bind (h.result henough input) rfl,
      fun input => (h.calls input).bind fun _ => .pure _⟩
  collect := collect

theorem called {watched : WatchedParser α} {parser : Parser α} (h : Mirrors enough watched parser)
    (call : Call) (hdepth : call.depth ≤ maxDepth + 1) :
    Mirrors enough (watched.called call) parser where
  result henough input := Watched.result_bind rfl (h.result henough input)
  calls input := (Watched.Within.log hdepth).bind fun _ => h.calls input

end Mirrors

/-! ## Levels -/

theorem roomAt_of_le {depth : Nat} (h : depth ≤ maxDepth) :
    roomAt depth = roomAt (depth + 1) + 1 := by
  unfold roomAt
  omega

section

variable {depth : Nat} {below : (callee : Nonterminal) → WatchedParser callee.Value}

theorem watch_bind_of_tooDeep {α β : Type} {first : WatchedParser α} {next : α → WatchedParser β}
    {input rest : List Lexeme} {calls : List Call}
    (h : first input = ⟨some (.tooDeep rest), calls⟩) :
    (first >>= next) input = ⟨some (.tooDeep rest), calls⟩ := by
  change WatchedParser.andThen first next input = _
  simp [WatchedParser.andThen, h, Bind.bind, pure]

/-- Without room no group is read, and nothing is called. -/
theorem watched_noGroup (input : List Lexeme) :
    (noGroup : WatchedParser Token) input = ⟨some (group 0 input), []⟩ := by
  change WatchedParser.andThen (WatchedParser.orElse _ _) _ input = _
  cases input with
  | nil => rfl
  | cons lexeme rest =>
      cases hfound : opening? lexeme with
      | none =>
          rw [group_of_opening?_eq_none hfound]
          simp [WatchedParser.andThen, WatchedParser.orElse, Parsing.notFollowedBy,
            Parser.notFollowedBy, Parsing.next, next, hfound, Bind.bind, pure, Parsing.mismatch]
      | some bracket =>
          rw [group_zero_of_opening? hfound]
          simp [WatchedParser.andThen, WatchedParser.orElse, Parsing.notFollowedBy,
            Parser.notFollowedBy, Parsing.next, next, hfound, Bind.bind, pure, Parsing.tooDeep]

/-- A parser below the deepest level replies as one without room, whatever a deeper call would
reply. -/
theorem watch_of_lt (h : maxDepth < depth) (callee : Nonterminal) (input : List Lexeme) :
    watch depth below callee input =
      ⟨some (callee.parser 0 input), if callee = .predicate then [⟨.unary, depth⟩] else []⟩ := by
  cases callee with
  | group =>
      rw [watch, if_pos h]
      exact watched_noGroup input
  | unary =>
      rw [watch, watchUnary, if_pos h]
      rfl
  | predicate =>
      rw [watch, watchUnary, if_pos h]
      -- the operand is the first part of each chain
      exact watch_bind_of_tooDeep (watch_bind_of_tooDeep (watch_bind_of_tooDeep
        (watch_bind_of_tooDeep rfl)))

/-- Where the depth is fine, the rules of the grammar make one level out of the next. -/
theorem mirrors_watch {enough : Prop} (h : depth ≤ maxDepth)
    (hbelow : ∀ callee, Mirrors enough (below callee) (callee.parser (roomAt (depth + 1))))
    (callee : Nonterminal) :
    Mirrors enough (watch depth below callee) (callee.parser (roomAt depth)) := by
  have hcongruence := Mirrors.congruence enough
  have hunary : Mirrors enough (watchUnary depth below) (unary (roomAt depth)) := by
    rw [watchUnary, if_neg (Nat.not_lt.mpr h), roomAt_of_le h]
    exact hcongruence.unaryOf (hbelow .group) (hbelow .unary) (hbelow .predicate)
  cases callee with
  | group =>
      rw [watch, if_neg (Nat.not_lt.mpr h), roomAt_of_le h]
      exact hcongruence.groupOf (hbelow .group)
  | unary => exact hunary
  | predicate =>
      have hoperand := hunary.called ⟨.unary, depth⟩ (Nat.le_succ_of_le h)
      rw [roomAt_of_le h] at hoperand ⊢
      exact hcongruence.implication hoperand (hbelow .predicate)

end

/-! ## Fuel -/

/-- Fuel for the levels down to one below the deepest is as good as more fuel. -/
theorem evaluate_eq {fuel depth : Nat} (hdepth : depth ≤ maxDepth + 1)
    (hfuel : maxDepth + 2 ≤ fuel + depth) :
    evaluate fuel depth = evaluate (maxDepth + 2 - depth) depth := by
  induction fuel generalizing depth with
  | zero => omega
  | succ fuel ih =>
      have hrest : maxDepth + 2 - depth = maxDepth + 1 - depth + 1 := by omega
      funext callee input
      rw [hrest, evaluate_succ, evaluate_succ]
      by_cases hdeep : maxDepth < depth
      · rw [watch_of_lt hdeep, watch_of_lt hdeep]
      · have hnext : maxDepth + 1 - depth = maxDepth + 2 - (depth + 1) := by omega
        rw [hnext, ih (by omega) (by omega)]

/-- However much fuel there is, no call is too deep, and with fuel for the levels down to one below
the deepest the replies are those of the grammar. -/
theorem mirrors_evaluate (fuel : Nat) {depth : Nat} (hdepth : depth ≤ maxDepth + 1)
    (callee : Nonterminal) :
    Mirrors (maxDepth + 2 ≤ fuel + depth) (evaluate fuel depth callee)
      (callee.parser (roomAt depth)) := by
  induction fuel generalizing depth callee with
  | zero => exact ⟨fun henough => by omega, fun _ => List.forall_mem_nil _⟩
  | succ fuel ih =>
      rw [evaluate_succ]
      by_cases hdeep : maxDepth < depth
      · have hroom : roomAt depth = 0 := Nat.sub_eq_zero_of_le hdeep
        refine ⟨fun _ input => by rw [watch_of_lt hdeep, hroom], fun input => ?_⟩
        rw [watch_of_lt hdeep]
        intro call hcall
        split at hcall
        next => rwa [List.mem_singleton.mp hcall]
        next => cases hcall
      · refine mirrors_watch (Nat.not_lt.mp hdeep) (fun callee => ?_) callee
        have hsum : fuel + 1 + depth = fuel + (depth + 1) := by omega
        rw [hsum]
        exact (ih (by omega) callee).called _ (Nat.succ_le_succ (Nat.not_lt.mp hdeep))

/-- However long a text is, reading it makes no call deeper than one level below the deepest, so
that fuel for so many levels gives the calls and the reply that any more fuel gives, and the reply
is the one by which the text is accepted or rejected. With whatever room, the parsers of tokens and
of formulas use up at least one byte of the text whenever they succeed. Every round of a repetition
shortens the input, and a repetition that does not check this has the same reply and no other. -/
theorem calls_bounded_and_rounds_productive (text : String) :
    (∀ fuel, ∀ call ∈ (evaluate fuel 0 .predicate (Lexeme.lexemes text)).calls,
      call.depth ≤ maxDepth + 1) ∧
    (∀ fuel, maxDepth + 2 ≤ fuel →
      evaluate fuel 0 .predicate (Lexeme.lexemes text) =
          evaluate (maxDepth + 2) 0 .predicate (Lexeme.lexemes text) ∧
        (evaluate fuel 0 .predicate (Lexeme.lexemes text)).result =
          some (predicate (maxDepth + 1) (Lexeme.lexemes text))) ∧
    (∀ room, UsesBytes text (piece room) ∧ UsesBytes text (groupToken room) ∧
      UsesBytes text (unary room) ∧ UsesBytes text (predicate room)) ∧
    ∀ room (α : Type) (step : Parser (Option α)), Repetition room step →
      Productive step ∧
        ∀ input reply, Repeats step input reply ↔ Parser.collect step input = reply := by
  refine ⟨?_, ?_, ?_, ?_⟩
  · intro fuel
    exact (mirrors_evaluate fuel (Nat.zero_le _) .predicate).calls _
  · intro fuel hfuel
    refine ⟨?_, (mirrors_evaluate fuel (Nat.zero_le _) .predicate).result hfuel _⟩
    rw [evaluate_eq (Nat.zero_le _) hfuel]
    rfl
  · intro room
    obtain ⟨hunary, hpredicate⟩ := advances_level room
    obtain ⟨hleavesUnary, hleavesPredicate⟩ := leaves_level room
    exact ⟨(advances_piece room).usesBytes (leaves_piece room) text,
      (advances_groupToken room).usesBytes (leaves_groupToken room) text,
      hunary.usesBytes hleavesUnary text, hpredicate.usesBytes hleavesPredicate text⟩
  · intro room α step hstep
    exact ⟨hstep.productive, fun input reply => hstep.productive.repeats_iff⟩

set_option maxRecDepth 20000 in
theorem calls_bounded_and_rounds_productive_group :
    (evaluate 102 0 .predicate (Lexeme.lexemes "!a[b]")).calls =
        [⟨.unary, 0⟩, ⟨.unary, 1⟩, ⟨.group, 2⟩, ⟨.group, 2⟩, ⟨.group, 3⟩, ⟨.group, 3⟩,
          ⟨.group, 2⟩] ∧
      (Call.mk .group 3).depth ≤ maxDepth + 1 ∧
      evaluate 1000 0 .predicate (Lexeme.lexemes "!a[b]") =
        evaluate 102 0 .predicate (Lexeme.lexemes "!a[b]") ∧
      piece 99 [.word "a", .mark "[", .word "b", .mark "]"] =
        .ok (.word "a") [.mark "[", .word "b", .mark "]"] ∧
      (Place.ofRemaining "!a[b]" 4).offset < (Place.ofRemaining "!a[b]" 3).offset ∧
      Repeats (optional (piece 99)) [.word "a", .mark "[", .word "b", .mark "]"]
        (.ok [.word "a", .group .square [.word "b"]] []) := by
  have hcalls : (evaluate 102 0 .predicate (Lexeme.lexemes "!a[b]")).calls =
      [⟨.unary, 0⟩, ⟨.unary, 1⟩, ⟨.group, 2⟩, ⟨.group, 2⟩, ⟨.group, 3⟩, ⟨.group, 3⟩,
        ⟨.group, 2⟩] := by
    decide +kernel
  have hlexemes : Lexeme.lexemes "!a[b]" =
      [.mark "!"] ++ [.word "a", .mark "[", .word "b", .mark "]"] := by
    decide +kernel
  have hpiece : piece 99 [.word "a", .mark "[", .word "b", .mark "]"] =
      .ok (.word "a") [.mark "[", .word "b", .mark "]"] := by
    decide +kernel
  have hpieces : Parser.collect (optional (piece 99))
      [.word "a", .mark "[", .word "b", .mark "]"] =
        .ok [.word "a", .group .square [.word "b"]] [] := by
    decide +kernel
  obtain ⟨hbound, hfuel, hbytes, hrounds⟩ := calls_bounded_and_rounds_productive "!a[b]"
  refine ⟨hcalls, ?_, (hfuel 1000 (by decide)).1, hpiece, ?_, ?_⟩
  · exact hbound 102 _ (by rw [hcalls]; decide)
  · exact (hbytes 99).1 _ _ _ ⟨_, hlexemes.symm⟩ hpiece
  · exact ((hrounds 99 _ _ .pieces).2 _ _).mpr hpieces

end PastTime.Grammar

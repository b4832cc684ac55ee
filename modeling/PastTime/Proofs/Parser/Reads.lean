import PastTime.Lexeme.Parser

/-!
# What a successful parser has read

`Reads` is a judgement about a parser: every success has taken off the front of the input lexemes
from which its value can come. There is one law for each combinator.
-/

namespace PastTime

namespace Parser

variable {α β : Type}

/-! ## Successes -/

theorem bind_eq_ok {parser : Parser α} {next : α → Parser β} {input : List Lexeme} {value : β}
    {rest : List Lexeme} :
    (parser >>= next) input = .ok value rest ↔
      ∃ first middle, parser input = .ok first middle ∧ next first middle = .ok value rest := by
  change (parser input).andThen next = _ ↔ _
  constructor
  · intro h
    cases hparser : parser input with
    | ok first middle =>
        rw [hparser] at h
        exact ⟨first, middle, rfl, h⟩
    | mismatch left => rw [hparser] at h; cases h
    | tooDeep left => rw [hparser] at h; cases h
  · intro h
    obtain ⟨first, middle, hparser, hnext⟩ := h
    rw [hparser]
    exact hnext

theorem pure_eq_ok {value found : α} {input rest : List Lexeme} :
    (pure value : Parser α) input = .ok found rest ↔ value = found ∧ input = rest := by
  change Reply.ok value input = _ ↔ _
  simp

theorem orElse_eq_ok {first second : Parser α} {input : List Lexeme} {value : α}
    {rest : List Lexeme} (h : (first <|> second) input = .ok value rest) :
    first input = .ok value rest ∨ second input = .ok value rest := by
  change orElse first second input = _ at h
  unfold orElse at h
  split at h
  next heq => exact Or.inl (heq.trans h)
  next heq => exact Or.inr h
  next heq => cases h

theorem next_eq_ok {meaning : Lexeme → Option α} {input : List Lexeme} {value : α}
    {rest : List Lexeme} (h : next meaning input = .ok value rest) :
    ∃ lexeme, input = lexeme :: rest ∧ meaning lexeme = some value := by
  cases input with
  | nil => cases h
  | cons lexeme tail =>
      cases hmeaning : meaning lexeme with
      | none => simp [next, hmeaning] at h
      | some found =>
          simp only [next, hmeaning, Reply.ok.injEq] at h
          obtain ⟨rfl, rfl⟩ := h
          exact ⟨lexeme, rfl, hmeaning⟩

theorem optional_eq_ok {parser : Parser α} {input : List Lexeme} {found : Option α}
    {rest : List Lexeme} (h : optional parser input = .ok found rest) :
    (∃ value, found = some value ∧ parser input = .ok value rest) ∨
      (found = none ∧ rest = input) := by
  unfold optional at h
  split at h
  next value rest' heq =>
    cases h
    exact Or.inl ⟨value, rfl, heq⟩
  next =>
    cases h
    exact Or.inr ⟨rfl, rfl⟩
  next => cases h

theorem notFollowedBy_eq_ok {parser : Parser α} {input rest : List Lexeme}
    (h : notFollowedBy parser input = .ok () rest) : rest = input := by
  unfold notFollowedBy at h
  split at h
  next => cases h
  next => cases h; rfl
  next => cases h

/-! ## What a success has taken -/

/-- Whenever the parser succeeds, it has taken off the front of the input lexemes from which its
value can come. -/
def Reads (parser : Parser α) (From : α → List Lexeme → Prop) : Prop :=
  ∀ input value rest, parser input = .ok value rest →
    ∃ used, input = used ++ rest ∧ From value used

/-- The lexemes are those that the value is written with, and the value is an allowed one. -/
def Printed (print : α → List Lexeme) (Allowed : α → Prop) (value : α) (used : List Lexeme) :
    Prop :=
  used = print value ∧ Allowed value

namespace Reads

variable {From : α → List Lexeme → Prop}

theorem mono {parser : Parser α} {To : α → List Lexeme → Prop} (h : Reads parser From)
    (himp : ∀ value used, From value used → To value used) : Reads parser To := by
  intro input value rest hok
  obtain ⟨used, rfl, hfrom⟩ := h input value rest hok
  exact ⟨used, rfl, himp value used hfrom⟩

theorem pure (value : α) : Reads (pure value) fun found used => found = value ∧ used = [] := by
  intro input found rest hok
  obtain ⟨rfl, rfl⟩ := pure_eq_ok.mp hok
  exact ⟨[], rfl, rfl, rfl⟩

theorem bind {parser : Parser α} {next : α → Parser β} {Then : α → β → List Lexeme → Prop}
    (hparser : Reads parser From) (hnext : ∀ first, Reads (next first) (Then first)) :
    Reads (parser >>= next) fun value used =>
      ∃ first front back, used = front ++ back ∧ From first front ∧ Then first value back := by
  intro input value rest hok
  obtain ⟨first, middle, hfirst, hvalue⟩ := bind_eq_ok.mp hok
  obtain ⟨front, rfl, hfront⟩ := hparser _ _ _ hfirst
  obtain ⟨back, rfl, hback⟩ := hnext first _ _ _ hvalue
  exact ⟨front ++ back, (List.append_assoc _ _ _).symm, first, front, back, rfl, hfront, hback⟩

theorem orElse {first second : Parser α} (hfirst : Reads first From)
    (hsecond : Reads second From) : Reads (first <|> second) From := by
  intro input value rest hok
  rcases orElse_eq_ok hok with hok | hok
  · exact hfirst _ _ _ hok
  · exact hsecond _ _ _ hok

theorem next (meaning : Lexeme → Option α) :
    Reads (next meaning) fun value used =>
      ∃ lexeme, used = [lexeme] ∧ meaning lexeme = some value := by
  intro input value rest hok
  obtain ⟨lexeme, rfl, hmeaning⟩ := next_eq_ok hok
  exact ⟨[lexeme], rfl, lexeme, rfl, hmeaning⟩

theorem expect (lexeme : Lexeme) : Reads (expect lexeme) fun _ used => used = [lexeme] := by
  apply (Reads.next _).mono
  intro value used h
  obtain ⟨found, rfl, hfound⟩ := h
  split at hfound
  next heq => rw [heq]
  next => cases hfound

theorem expect_bind {parser : Parser α} (hparser : Reads parser From) (lexeme : Lexeme) :
    Reads (Parser.expect lexeme >>= fun _ => parser) fun value used =>
      ∃ rest, used = lexeme :: rest ∧ From value rest := by
  apply ((Reads.expect lexeme).bind fun _ => hparser).mono
  intro value used h
  obtain ⟨_, _, rest, rfl, rfl, hfrom⟩ := h
  exact ⟨rest, rfl, hfrom⟩

theorem map {parser : Parser α} (hparser : Reads parser From) (f : α → β) :
    Reads (parser >>= fun first => Pure.pure (f first)) fun value used =>
      ∃ first, value = f first ∧ From first used := by
  apply (hparser.bind fun first => Reads.pure (f first)).mono
  intro value used h
  obtain ⟨first, front, _, rfl, hfrom, hvalue, rfl⟩ := h
  rw [List.append_nil]
  exact ⟨first, hvalue, hfrom⟩

theorem mismatch : Reads (mismatch : Parser α) fun _ _ => False := by
  intro input value rest hok
  cases hok

theorem tooDeep : Reads (tooDeep : Parser α) From := by
  intro input value rest hok
  cases hok

theorem notFollowedBy (parser : Parser α) :
    Reads (notFollowedBy parser) fun _ used => used = [] := by
  intro input value rest hok
  cases notFollowedBy_eq_ok hok
  exact ⟨[], rfl, rfl⟩

/-- Reading nothing is the same as taking nothing. -/
theorem optional {parser : Parser α} (hparser : Reads parser From) :
    Reads (optional parser) fun found used => found.elim (used = []) (From · used) := by
  intro input found rest hok
  rcases optional_eq_ok hok with ⟨value, rfl, hvalue⟩ | ⟨rfl, rfl⟩
  · exact hparser _ _ _ hvalue
  · exact ⟨[], rfl, rfl⟩

/-- What goes on behind an optional value may depend on whether there was one. -/
theorem optional_bind {parser : Parser α} {next : Option α → Parser β}
    {Without : β → List Lexeme → Prop} {With : α → β → List Lexeme → Prop}
    (hparser : Reads parser From) (hnone : Reads (next none) Without)
    (hsome : ∀ first, Reads (next (some first)) (With first)) :
    Reads (Parser.optional parser >>= next) fun value used =>
      Without value used ∨
        ∃ first front back, used = front ++ back ∧ From first front ∧ With first value back := by
  have hnext (found : Option α) : Reads (next found) (found.elim Without With) := by
    cases found with
    | none => exact hnone
    | some first => exact hsome first
  apply (hparser.optional.bind hnext).mono
  intro value used h
  obtain ⟨found, front, back, rfl, hfound, hvalue⟩ := h
  cases found with
  | none =>
      cases hfound
      exact .inl hvalue
  | some first => exact .inr ⟨first, front, back, rfl, hfound, hvalue⟩

/-- A repetition takes what its values are written with, one after the other. -/
theorem collect {step : Parser (Option α)} {print : α → List Lexeme} {Allowed : α → Prop}
    (hstep : Reads step fun found used => found.elim (used = []) (Printed print Allowed · used)) :
    Reads (collect step)
      (Printed (fun values => values.flatMap print) fun values =>
        ∀ value ∈ values, Allowed value) := by
  intro input
  fun_induction Parser.collect step input with
  -- the cases are those of the repetition: the step stops, it goes on with or without progress,
  -- or it fails; only the first two are successes
  | case1 input rest heq =>
      intro values left hok
      cases hok
      obtain ⟨used, rfl, hused⟩ := hstep _ _ _ heq
      cases hused
      exact ⟨[], rfl, rfl, by simp⟩
  | case2 input value rest heq hlt ih =>
      intro values left hok
      obtain ⟨used, rfl, rfl, hvalue⟩ := hstep _ _ _ heq
      cases hrest : Parser.collect step rest with
      | ok others last =>
          rw [hrest] at hok
          cases hok
          obtain ⟨_, rfl, rfl, hothers⟩ := ih _ _ hrest
          refine ⟨_, (List.append_assoc _ _ _).symm, rfl, ?_⟩
          intro other hother
          rcases List.mem_cons.mp hother with rfl | hother
          · exact hvalue
          · exact hothers other hother
      | mismatch last => rw [hrest] at hok; cases hok
      | tooDeep last => rw [hrest] at hok; cases hok
  | case3 input value rest heq hlt =>
      intro values left hok
      cases hok
  | case4 input rest heq =>
      intro values left hok
      cases hok
  | case5 input rest heq =>
      intro values left hok
      cases hok

theorem many {parser : Parser α} {print : α → List Lexeme} {Allowed : α → Prop}
    (hparser : Reads parser (Printed print Allowed)) :
    Reads (many parser)
      (Printed (fun values => values.flatMap print) fun values =>
        ∀ value ∈ values, Allowed value) :=
  collect hparser.optional

theorem many1 {parser : Parser α} {print : α → List Lexeme} {Allowed : α → Prop}
    (hparser : Reads parser (Printed print Allowed)) :
    Reads (many1 parser) (Printed (fun values => values.flatMap print) fun values =>
      values ≠ [] ∧ ∀ value ∈ values, Allowed value) := by
  apply (hparser.bind fun first => hparser.many.map (first :: ·)).mono
  intro values used h
  obtain ⟨first, _, _, rfl, ⟨rfl, hfirst⟩, others, rfl, rfl, hothers⟩ := h
  refine ⟨rfl, by simp, ?_⟩
  intro value hvalue
  rcases List.mem_cons.mp hvalue with rfl | hvalue
  · exact hfirst
  · exact hothers value hvalue

end Reads

/-! ## What a success returns -/

/-- Every value that the parser returns is good, whatever it was read from. -/
def Returns (parser : Parser α) (Good : α → Prop) : Prop :=
  ∀ input value rest, parser input = .ok value rest → Good value

namespace Returns

variable {Good : α → Prop}

theorem mono {parser : Parser α} {Better : α → Prop} (h : Returns parser Better)
    (himp : ∀ value, Better value → Good value) : Returns parser Good :=
  fun input value rest hok => himp value (h input value rest hok)

theorem pure {value : α} (h : Good value) : Returns (pure value) Good := by
  intro input found rest hok
  obtain ⟨rfl, -⟩ := pure_eq_ok.mp hok
  exact h

theorem bind {parser : Parser α} {next : α → Parser β} {Then : β → Prop}
    (hparser : Returns parser Good) (hnext : ∀ first, Good first → Returns (next first) Then) :
    Returns (parser >>= next) Then := by
  intro input value rest hok
  obtain ⟨first, middle, hfirst, hvalue⟩ := bind_eq_ok.mp hok
  exact hnext first (hparser _ _ _ hfirst) _ _ _ hvalue

/-- What is read first may not matter. -/
theorem skip_bind {parser : Parser α} {next : α → Parser β} {Then : β → Prop}
    (hnext : ∀ first, Returns (next first) Then) : Returns (parser >>= next) Then := by
  intro input value rest hok
  obtain ⟨first, middle, -, hvalue⟩ := bind_eq_ok.mp hok
  exact hnext first _ _ _ hvalue

theorem orElse {first second : Parser α} (hfirst : Returns first Good)
    (hsecond : Returns second Good) : Returns (first <|> second) Good := by
  intro input value rest hok
  rcases orElse_eq_ok hok with hok | hok
  · exact hfirst _ _ _ hok
  · exact hsecond _ _ _ hok

theorem next {meaning : Lexeme → Option α}
    (h : ∀ lexeme value, meaning lexeme = some value → Good value) :
    Returns (next meaning) Good := by
  intro input value rest hok
  obtain ⟨lexeme, -, hmeaning⟩ := next_eq_ok hok
  exact h lexeme value hmeaning

theorem mismatch : Returns (mismatch : Parser α) Good := by
  intro input value rest hok
  cases hok

theorem tooDeep : Returns (tooDeep : Parser α) Good := by
  intro input value rest hok
  cases hok

theorem optional {parser : Parser α} (hparser : Returns parser Good) :
    Returns (optional parser) fun found => ∀ value ∈ found, Good value := by
  intro input found rest hok value hvalue
  rcases optional_eq_ok hok with ⟨_, rfl, hread⟩ | ⟨rfl, -⟩
  · cases hvalue
    exact hparser _ _ _ hread
  · cases hvalue

theorem collect {step : Parser (Option α)}
    (hstep : Returns step fun found => ∀ value ∈ found, Good value) :
    Returns (collect step) fun values => ∀ value ∈ values, Good value := by
  intro input
  fun_induction Parser.collect step input with
  | case1 input rest heq =>
      intro values left hok
      cases hok
      simp
  | case2 input value rest heq hlt ih =>
      intro values left hok
      cases hrest : Parser.collect step rest with
      | ok others last =>
          rw [hrest] at hok
          cases hok
          exact List.forall_mem_cons.mpr ⟨hstep _ _ _ heq value rfl, ih _ _ hrest⟩
      | mismatch last => rw [hrest] at hok; cases hok
      | tooDeep last => rw [hrest] at hok; cases hok
  | case3 | case4 | case5 =>
      intro values left hok
      cases hok

theorem many {parser : Parser α} (hparser : Returns parser Good) :
    Returns (many parser) fun values => ∀ value ∈ values, Good value :=
  collect hparser.optional

theorem many1 {parser : Parser α} (hparser : Returns parser Good) :
    Returns (many1 parser) fun values => ∀ value ∈ values, Good value :=
  hparser.bind fun _ hfirst => hparser.many.bind fun _ hothers =>
    pure (List.forall_mem_cons.mpr ⟨hfirst, hothers⟩)

end Returns

end Parser

end PastTime

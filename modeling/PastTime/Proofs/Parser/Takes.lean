import PastTime.Lexeme.Parser

/-!
# What a parser is sure to read

`Takes` is a judgement about a parser at one place: it reads exactly the given lexemes in front of
the given rest, unless the text nests too deep. There is one law for each combinator, and a law for
repetitions that says where they stop.
-/

namespace PastTime

namespace Parser

variable {α β : Type}

/-- The parser reads exactly `used` off `used ++ rest`, or gives up the whole reading. -/
def Takes (parser : Parser α) (used rest : List Lexeme) : Prop :=
  (∃ value, parser (used ++ rest) = .ok value rest) ∨
    ∃ left, parser (used ++ rest) = .tooDeep left

/-- The parser mismatches on the input, so that another alternative is tried. -/
def Refuses (parser : Parser α) (input : List Lexeme) : Prop :=
  ∃ left, parser input = .mismatch left

/-! ## Refusals -/

theorem refuses_next {meaning : Lexeme → Option α} {input : List Lexeme}
    (h : ∀ lexeme ∈ input.head?, meaning lexeme = none) : Refuses (next meaning) input := by
  cases input with
  | nil => exact ⟨[], rfl⟩
  | cons lexeme tail =>
      refine ⟨lexeme :: tail, ?_⟩
      simp [next, h lexeme rfl]

theorem refuses_expect {lexeme : Lexeme} {input : List Lexeme}
    (h : input.head? ≠ some lexeme) : Refuses (expect lexeme) input := by
  apply refuses_next
  intro found hfound
  apply if_neg
  rintro rfl
  exact h hfound

theorem Refuses.bind {parser : Parser α} {input : List Lexeme} (h : Refuses parser input)
    (next : α → Parser β) : Refuses (parser >>= next) input := by
  obtain ⟨left, h⟩ := h
  refine ⟨left, ?_⟩
  rw [bind_apply, h]
  rfl

theorem Refuses.orElse {first second : Parser α} {input : List Lexeme}
    (hfirst : Refuses first input) (hsecond : Refuses second input) :
    Refuses (first <|> second) input := by
  obtain ⟨left, hfirst⟩ := hfirst
  obtain ⟨left', hsecond⟩ := hsecond
  refine ⟨left', ?_⟩
  change Parser.orElse first second input = _
  unfold Parser.orElse
  rw [hfirst]
  exact hsecond

/-- The second alternative is read only where the first one is refused. -/
theorem orElse_ok_cases {first second : Parser α} {input rest : List Lexeme} {value : α}
    (h : (first <|> second) input = .ok value rest) :
    first input = .ok value rest ∨ Refuses first input ∧ second input = .ok value rest := by
  change orElse first second input = _ at h
  unfold orElse at h
  split at h
  next heq => exact Or.inl (heq.trans h)
  next left heq => exact Or.inr ⟨⟨left, heq⟩, h⟩
  next => cases h

theorem orElse_of_ok {first : Parser α} {input rest : List Lexeme} {value : α}
    (h : first input = .ok value rest) (second : Parser α) :
    (first <|> second) input = .ok value rest := by
  change orElse first second input = _
  unfold orElse
  rw [h]

theorem orElse_of_refuses {first : Parser α} {input : List Lexeme} (h : Refuses first input)
    (second : Parser α) : (first <|> second) input = second input := by
  obtain ⟨left, h⟩ := h
  change orElse first second input = _
  unfold orElse
  rw [h]

theorem optional_of_refuses {parser : Parser α} {input : List Lexeme} (h : Refuses parser input) :
    optional parser input = .ok none input := by
  obtain ⟨left, h⟩ := h
  simp [optional, h]

theorem optional_of_ok {parser : Parser α} {input rest : List Lexeme} {value : α}
    (h : parser input = .ok value rest) : optional parser input = .ok (some value) rest := by
  simp [optional, h]

theorem many_of_refuses {parser : Parser α} {input : List Lexeme} (h : Refuses parser input) :
    many parser input = .ok [] input := by
  rw [many_apply, collect, optional_of_refuses h]

theorem notFollowedBy_of_refuses {parser : Parser α} {input : List Lexeme}
    (h : Refuses parser input) : notFollowedBy parser input = .ok () input := by
  obtain ⟨left, h⟩ := h
  simp [notFollowedBy, h]

/-! ## Single steps -/

namespace Takes

theorem pure (value : α) (rest : List Lexeme) : Takes (pure value) [] rest :=
  Or.inl ⟨value, rfl⟩

theorem tooDeep (used rest : List Lexeme) : Takes (tooDeep : Parser α) used rest :=
  Or.inr ⟨_, rfl⟩

theorem next {meaning : Lexeme → Option α} {lexeme : Lexeme} {value : α}
    (h : meaning lexeme = some value) (rest : List Lexeme) :
    Takes (next meaning) [lexeme] rest := by
  refine Or.inl ⟨value, ?_⟩
  simp [Parser.next, h]

theorem expect (lexeme : Lexeme) (rest : List Lexeme) : Takes (expect lexeme) [lexeme] rest :=
  next (if_pos rfl) rest

theorem bind {parser : Parser α} {next : α → Parser β} {front back rest : List Lexeme}
    (hparser : Takes parser front (back ++ rest)) (hnext : ∀ first, Takes (next first) back rest) :
    Takes (parser >>= next) (front ++ back) rest := by
  unfold Takes
  rw [List.append_assoc, bind_apply]
  rcases hparser with ⟨first, hfirst⟩ | ⟨left, hleft⟩
  · rw [hfirst]
    exact hnext first
  · rw [hleft]
    exact Or.inr ⟨left, rfl⟩

/-- The first lexeme decides how the reading goes on. -/
theorem next_bind {meaning : Lexeme → Option α} {lexeme : Lexeme} {value : α}
    (h : meaning lexeme = some value) {next : α → Parser β} {back rest : List Lexeme}
    (hnext : Takes (next value) back rest) :
    Takes (Parser.next meaning >>= next) (lexeme :: back) rest := by
  unfold Takes
  rw [bind_apply, List.cons_append]
  simp only [Parser.next, h]
  exact hnext

theorem expect_bind {lexeme : Lexeme} {next : Unit → Parser β} {back rest : List Lexeme}
    (hnext : Takes (next ()) back rest) :
    Takes (Parser.expect lexeme >>= next) (lexeme :: back) rest :=
  next_bind (if_pos rfl) hnext

/-- Mapping the value changes nothing about what is read. -/
theorem map {parser : Parser α} {used rest : List Lexeme} (hparser : Takes parser used rest)
    (f : α → β) : Takes (do let value ← parser; return f value) used rest := by
  have h : Takes (do let value ← parser; return f value) (used ++ []) rest :=
    bind hparser fun first => pure (f first) rest
  rwa [List.append_nil] at h

theorem orElse_left {first : Parser α} {used rest : List Lexeme} (hfirst : Takes first used rest)
    (second : Parser α) : Takes (first <|> second) used rest := by
  change (∃ value, orElse first second _ = _) ∨ ∃ left, orElse first second _ = _
  unfold orElse
  rcases hfirst with ⟨value, h⟩ | ⟨left, h⟩ <;> rw [h]
  · exact Or.inl ⟨value, rfl⟩
  · exact Or.inr ⟨left, rfl⟩

theorem orElse_right {first second : Parser α} {used rest : List Lexeme}
    (hfirst : Refuses first (used ++ rest)) (hsecond : Takes second used rest) :
    Takes (first <|> second) used rest := by
  change (∃ value, orElse first second _ = _) ∨ ∃ left, orElse first second _ = _
  unfold orElse
  obtain ⟨left, hfirst⟩ := hfirst
  rw [hfirst]
  exact hsecond

theorem optional_some {parser : Parser α} {used rest : List Lexeme}
    (hparser : Takes parser used rest) : Takes (optional parser) used rest := by
  unfold Takes Parser.optional
  rcases hparser with ⟨value, h⟩ | ⟨left, h⟩ <;> rw [h]
  · exact Or.inl ⟨some value, rfl⟩
  · exact Or.inr ⟨left, rfl⟩

theorem notFollowedBy {parser : Parser α} {rest : List Lexeme} (h : Refuses parser rest) :
    Takes (notFollowedBy parser) [] rest :=
  Or.inl ⟨(), notFollowedBy_of_refuses h⟩

end Takes

/-! ## Repetitions -/

/-- One round of a repetition reads a value off exactly these lexemes, or gives up. -/
def TakesOne (step : Parser (Option α)) (part rest : List Lexeme) : Prop :=
  (∃ value, step (part ++ rest) = .ok (some value) rest) ∨
    ∃ left, step (part ++ rest) = .tooDeep left

/-- A repetition reads its parts one by one, and stops at a rest from which a round reads nothing.
`Follow` is what every round may rely on about the lexemes behind its part. -/
theorem Takes.collect {step : Parser (Option α)} (Follow : List Lexeme → Prop)
    {parts : List (List Lexeme)} {rest : List Lexeme} (hrest : Follow rest)
    (hstop : step rest = .ok none rest)
    (hpart : ∀ part ∈ parts, part ≠ [] ∧
      ∀ tail, Follow tail → Follow (part ++ tail) ∧ TakesOne step part tail) :
    Takes (collect step) parts.flatten rest := by
  -- The rounds before a part rely on what the parts behind it look like.
  suffices h : Follow (parts.flatten ++ rest) ∧
      Takes (Parser.collect step) parts.flatten rest from h.2
  induction parts with
  | nil =>
      refine ⟨hrest, Or.inl ⟨[], ?_⟩⟩
      rw [List.flatten_nil, List.nil_append, Parser.collect, hstop]
  | cons part parts ih =>
      obtain ⟨hfollow, hparts⟩ := ih fun other hother =>
        hpart other (List.mem_cons_of_mem part hother)
      obtain ⟨hne, hround⟩ := hpart part List.mem_cons_self
      obtain ⟨hfollow, hone⟩ := hround _ hfollow
      have hshorter : (parts.flatten ++ rest).length <
          (part ++ (parts.flatten ++ rest)).length := by
        have hpos := List.length_pos_iff.mpr hne
        simp only [List.length_append]
        omega
      unfold Takes
      rw [List.flatten_cons, List.append_assoc]
      refine ⟨hfollow, ?_⟩
      rw [Parser.collect]
      rcases hone with ⟨value, hone⟩ | ⟨left, hone⟩
      · rw [hone]
        simp only [hshorter, ↓reduceIte]
        rcases hparts with ⟨values, hparts⟩ | ⟨left, hparts⟩
        · rw [hparts]
          exact Or.inl ⟨value :: values, rfl⟩
        · rw [hparts]
          exact Or.inr ⟨left, rfl⟩
      · rw [hone]
        exact Or.inr ⟨left, rfl⟩

/-- A repetition of a parser that needs no look-ahead. -/
theorem Takes.many {parser : Parser α} {parts : List (List Lexeme)} {rest : List Lexeme}
    (hstop : Refuses parser rest)
    (hpart : ∀ part ∈ parts, part ≠ [] ∧ ∀ tail, Takes parser part tail) :
    Takes (many parser) parts.flatten rest := by
  apply Takes.collect (fun _ => True) trivial (optional_of_refuses hstop)
  intro part hmem
  obtain ⟨hne, htakes⟩ := hpart part hmem
  refine ⟨hne, fun tail _ => ⟨trivial, ?_⟩⟩
  unfold TakesOne Parser.optional
  rcases htakes tail with ⟨value, h⟩ | ⟨left, h⟩ <;> rw [h]
  · exact Or.inl ⟨value, rfl⟩
  · exact Or.inr ⟨left, rfl⟩

end Parser

end PastTime

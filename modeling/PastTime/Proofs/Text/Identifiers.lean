import PastTime.Proofs.Lexeme.Spelling

/-!
# How identifiers are found

An identifier can be looked for with a pattern: word characters, as few as possible, then a letter,
then as many word characters as possible. Its matches, each found at the first place where there is
one and none inside another, are the maximal runs of word characters with a letter. A match never
begins inside a run, because it would have been found further to the left, and the pattern passes
over a run without a letter one character at a time.
-/

namespace PastTime.Text

/-! ## Patterns -/

/-- Whether a character is in one of the ranges, ends included. -/
def inRanges (ranges : List (Char × Char)) (c : Char) : Bool :=
  ranges.any fun range => range.1 ≤ c && c ≤ range.2

/-- A part of a pattern: one character out of some ranges, or any number of them, where fewer or
more are preferred. -/
inductive PatternPart where
  | one (ranges : List (Char × Char))
  | fewest (ranges : List (Char × Char))
  | most (ranges : List (Char × Char))
  deriving DecidableEq, Repr

/-- What the preferred match of a pattern at the front of a text leaves. Another number of
characters is tried for a part only if the parts behind it do not match after the preferred one. -/
def matchRest : List PatternPart → List Char → Option (List Char)
  | [], text => some text
  | .one ranges :: parts, c :: text => if inRanges ranges c then matchRest parts text else none
  | .one _ :: _, [] => none
  | .fewest ranges :: parts, c :: text =>
    matchRest parts (c :: text) <|>
      if inRanges ranges c then matchRest (.fewest ranges :: parts) text else none
  | .most ranges :: parts, c :: text =>
    (if inRanges ranges c then matchRest (.most ranges :: parts) text else none) <|>
      matchRest parts (c :: text)
  | .fewest _ :: parts, [] | .most _ :: parts, [] => matchRest parts []
termination_by parts text => (parts.length, text.length)

/-- The matches of a pattern in a text, from left to right. Each is the preferred one at the first
place with a match, and the search goes on behind it. An empty match is passed over. -/
def occurrences (pattern : List PatternPart) : List Char → List (List Char)
  | [] => []
  | c :: text =>
    match matchRest pattern (c :: text) with
    | none => occurrences pattern text
    | some rest =>
      if rest.length < (c :: text).length then
        (c :: text).take ((c :: text).length - rest.length) :: occurrences pattern rest
      else occurrences pattern text
termination_by text => text.length
decreasing_by
  · exact Nat.lt_succ_self _
  · assumption
  · exact Nat.lt_succ_self _

/-- The letters. -/
def letterRanges : List (Char × Char) := [('a', 'z'), ('A', 'Z')]

/-- The characters of words. -/
def wordRanges : List (Char × Char) :=
  [('a', 'z'), ('A', 'Z'), ('0', '9'), ('_', '_'), ('.', '.')]

/-- The pattern of words with a letter. -/
def identifierPattern : List PatternPart :=
  [.fewest wordRanges, .one letterRanges, .most wordRanges]

theorem inRanges_letterRanges (c : Char) : inRanges letterRanges c = c.isAlpha := by
  rw [Bool.eq_iff_iff, isAlpha_iff, or_comm]
  simp [inRanges, letterRanges]

theorem inRanges_wordRanges (c : Char) : inRanges wordRanges c = isWordChar c := by
  have hsingle (d : Char) : (decide (d ≤ c) && decide (c ≤ d)) = (c == d) := by
    rw [Bool.eq_iff_iff]
    simp only [Bool.and_eq_true, decide_eq_true_eq, beq_iff_eq]
    exact ⟨fun h => Char.le_antisymm h.2 h.1, fun h => h ▸ ⟨Char.le_refl c, Char.le_refl c⟩⟩
  have hsplit : inRanges wordRanges c =
      (inRanges letterRanges c || ((decide ('0' ≤ c) && decide (c ≤ '9')) ||
        ((c == '_') || (c == '.')))) := by
    rw [← hsingle '_', ← hsingle '.']
    simp [inRanges, wordRanges, letterRanges, Bool.or_assoc]
  rw [hsplit, inRanges_letterRanges]
  simp [isWordChar, Char.isAlphanum, Char.isDigit, Char.le_def, Bool.or_assoc]

theorem isWordChar_of_isAlpha {c : Char} (h : c.isAlpha = true) : isWordChar c = true := by
  simp [isWordChar, Char.isAlphanum, h]

/-! ## The preferred match at one place -/

theorem matchRest_most (text : List Char) :
    matchRest [.most wordRanges] text = some (text.dropWhile isWordChar) := by
  induction text with
  | nil => simp [matchRest]
  | cons c text ih =>
      rw [matchRest, ih, inRanges_wordRanges]
      cases hword : isWordChar c <;> simp [matchRest, hword]

theorem matchRest_letter (c : Char) (text : List Char) :
    matchRest [.one letterRanges, .most wordRanges] (c :: text) =
      if c.isAlpha then some (text.dropWhile isWordChar) else none := by
  rw [matchRest, matchRest_most, inRanges_letterRanges]

/-- At the front of a text the pattern matches the whole run that begins there, if it has a
letter. -/
theorem matchRest_identifierPattern (text : List Char) :
    matchRest identifierPattern text =
      if (text.takeWhile isWordChar).any Char.isAlpha then some (text.dropWhile isWordChar)
      else none := by
  induction text with
  | nil => simp [identifierPattern, matchRest]
  | cons c text ih =>
      rw [identifierPattern, matchRest, matchRest_letter, ← identifierPattern, ih,
        inRanges_wordRanges]
      cases hletter : c.isAlpha with
      | true =>
          have hword := isWordChar_of_isAlpha hletter
          simp [hword, hletter]
      | false =>
          cases hword : isWordChar c with
          | true =>
              rw [List.takeWhile_cons_of_pos hword, List.dropWhile_cons_of_pos hword, List.any_cons,
                hletter, Bool.false_or]
              rfl
          | false => simp [hword]

/-! ## All matches -/

/-- The run at the front of a text, if there is one, and the runs behind it. -/
theorem runs_eq_takeWhile_append (p : Char → Bool) (text : List Char) :
    runs p text = [text.takeWhile p].filter (· ≠ []) ++ runs p (text.dropWhile p) := by
  cases text with
  | nil => simp
  | cons c text =>
      by_cases hc : p c = true
      · rw [runs, if_pos hc, List.takeWhile_cons_of_pos hc, List.dropWhile_cons_of_pos hc]
        rfl
      · rw [List.takeWhile_cons_of_neg hc, List.dropWhile_cons_of_neg hc]
        rfl

theorem filter_runs_cons_of_not_any {p q : Char → Bool} {c : Char} {text : List Char}
    (h : ((c :: text).takeWhile p).any q = false) :
    (runs p (c :: text)).filter (·.any q) = (runs p text).filter (·.any q) := by
  by_cases hc : p c = true
  · rw [List.takeWhile_cons_of_pos hc, List.any_cons, Bool.or_eq_false_iff] at h
    rw [runs, if_pos hc, runs_eq_takeWhile_append p text]
    simp [h.1, h.2]
  · rw [runs_cons_of_not (by simpa using hc)]

theorem length_takeWhile_add_dropWhile (p : Char → Bool) (text : List Char) :
    (text.takeWhile p).length + (text.dropWhile p).length = text.length := by
  rw [← List.length_append, List.takeWhile_append_dropWhile]

/-- The matches of the pattern are the runs with a letter. -/
theorem occurrences_identifierPattern (text : List Char) :
    occurrences identifierPattern text = (runs isWordChar text).filter (·.any Char.isAlpha) := by
  fun_induction occurrences identifierPattern text with
  | case1 => simp [runs]
  | case2 c text hmatch ih =>
      rw [matchRest_identifierPattern] at hmatch
      rw [ih, filter_runs_cons_of_not_any (by simpa using hmatch)]
  | case3 c text rest hmatch hlt ih =>
      rw [matchRest_identifierPattern, Option.ite_none_right_eq_some] at hmatch
      obtain ⟨hany, hrest⟩ := hmatch
      cases hrest
      have hlength := length_takeWhile_add_dropWhile isWordChar (c :: text)
      have htake : (c :: text).take ((c :: text).length -
          ((c :: text).dropWhile isWordChar).length) = (c :: text).takeWhile isWordChar := by
        rw [← hlength, Nat.add_sub_cancel]
        exact (List.prefix_iff_eq_take.mp (List.takeWhile_prefix _)).symm
      have hne : (c :: text).takeWhile isWordChar ≠ [] := by
        intro hnil
        simp [hnil] at hany
      rw [htake, ih, runs_eq_takeWhile_append isWordChar (c :: text)]
      simp [hne, hany]
  | case4 c text rest hmatch hlt ih =>
      -- a match has a letter, so that it is not empty
      rw [matchRest_identifierPattern, Option.ite_none_right_eq_some] at hmatch
      obtain ⟨hany, hrest⟩ := hmatch
      cases hrest
      have hlength := length_takeWhile_add_dropWhile isWordChar (c :: text)
      have hnil : (c :: text).takeWhile isWordChar = [] :=
        List.eq_nil_of_length_eq_zero (by omega)
      simp [hnil] at hany

/-! ## Maximal runs -/

/-- Behind `before` stands a run in the text: characters that satisfy `p`, with no such character
on either side. -/
structure MaximalRun (p : Char → Bool) (text before run : List Char) : Prop where
  ne_nil : run ≠ []
  all : ∀ c ∈ run, p c = true
  left : ∀ c ∈ before.getLast?, p c = false
  right : ∃ after, text = before ++ (run ++ after) ∧ ∀ c ∈ after.head?, p c = false

/-- The runs of a text, each with what stands before it. -/
def locatedRuns (p : Char → Bool) (before : List Char) : List Char → List (List Char × List Char)
  | [] => []
  | c :: text =>
    if p c then
      (before, c :: text.takeWhile p) ::
        locatedRuns p (before ++ c :: text.takeWhile p) (text.dropWhile p)
    else locatedRuns p (before ++ [c]) text
termination_by text => text.length
decreasing_by
  · exact Nat.lt_succ_of_le (List.dropWhile_sublist p).length_le
  · exact Nat.lt_succ_self _

theorem map_snd_locatedRuns (p : Char → Bool) (before text : List Char) :
    (locatedRuns p before text).map Prod.snd = runs p text := by
  fun_induction locatedRuns p before text with
  | case1 => rw [runs]; rfl
  | case2 before c text hc ih => rw [runs, if_pos hc, List.map_cons, ih]
  | case3 before c text hc ih => rw [runs_cons_of_not (by simpa using hc), ih]

theorem length_le_of_mem_locatedRuns {p : Char → Bool} {before text : List Char}
    {found : List Char × List Char} (h : found ∈ locatedRuns p before text) :
    before.length ≤ found.1.length := by
  fun_induction locatedRuns p before text with
  | case1 => simp at h
  | case2 before c text hc ih =>
      rcases List.mem_cons.mp h with rfl | h
      · exact Nat.le_refl _
      · have hle := ih h
        rw [List.length_append] at hle
        omega
  | case3 before c text hc ih =>
      have hle := ih h
      rw [List.length_append] at hle
      omega

theorem pairwise_locatedRuns (p : Char → Bool) (before text : List Char) :
    (locatedRuns p before text).Pairwise fun earlier later =>
      earlier.1.length < later.1.length := by
  fun_induction locatedRuns p before text with
  | case1 => exact .nil
  | case2 before c text hc ih =>
      refine .cons (fun later hlater => ?_) ih
      have hle := length_le_of_mem_locatedRuns hlater
      rw [List.length_append, List.length_cons] at hle
      exact Nat.lt_of_lt_of_le (Nat.lt_add_of_pos_right (Nat.succ_pos _)) hle
  | case3 before c text hc ih => exact ih

section

variable {p : Char → Bool} {front text before run : List Char} {c : Char}

/-- A run behind `front` and a number of further characters. -/
theorem MaximalRun.exists_between (h : MaximalRun p (front ++ text) before run)
    (hle : front.length ≤ before.length) :
    ∃ between after, before = front ++ between ∧ text = between ++ (run ++ after) ∧
      ∀ c ∈ after.head?, p c = false := by
  obtain ⟨after, htext, hafter⟩ := h.right
  obtain ⟨between, rfl⟩ : front <+: before :=
    List.prefix_of_prefix_length_le (List.prefix_append _ _) ⟨_, htext.symm⟩ hle
  rw [List.append_assoc] at htext
  exact ⟨between, after, rfl, List.append_cancel_left htext, hafter⟩

theorem head_dropWhile_eq_false (p : Char → Bool) (text : List Char) :
    ∀ c ∈ (text.dropWhile p).head?, p c = false := by
  intro c hc
  have hhead := List.head?_dropWhile_not p text
  rw [hc] at hhead
  simpa using hhead

theorem takeWhile_append_of_all {after : List Char} (hrun : ∀ c ∈ run, p c = true)
    (hafter : ∀ c ∈ after.head?, p c = false) : (run ++ after).takeWhile p = run := by
  rw [List.takeWhile_append_of_pos hrun]
  cases after with
  | nil => simp
  | cons c after => simp [hafter c rfl]

theorem maximalRun_takeWhile (hc : p c = true) (hfront : ∀ d ∈ front.getLast?, p d = false) :
    MaximalRun p (front ++ c :: text) front (c :: text.takeWhile p) where
  ne_nil := List.cons_ne_nil _ _
  all := List.forall_mem_cons.mpr ⟨hc, fun _ hd => List.mem_takeWhile_imp hd⟩
  left := hfront
  right := ⟨text.dropWhile p, by simp, head_dropWhile_eq_false p text⟩

/-- A run in a text that goes on with a run is this one, or it stands behind it. -/
theorem MaximalRun.first_or_behind (hc : p c = true)
    (h : MaximalRun p (front ++ c :: text) before run) (hle : front.length ≤ before.length) :
    (before, run) = (front, c :: text.takeWhile p) ∨
      (front ++ c :: text.takeWhile p).length ≤ before.length := by
  obtain ⟨between, after, rfl, htext, hafter⟩ := h.exists_between hle
  rw [← List.takeWhile_cons_of_pos hc, htext]
  rcases List.eq_nil_or_concat between with rfl | ⟨init, last, rfl⟩
  · left
    rw [List.nil_append, takeWhile_append_of_all h.all hafter, List.append_nil]
  · -- the character in front of the run ends the one that begins with `c`
    right
    have hlast : p last = false := h.left last (by simp)
    rw [List.concat_eq_append, List.append_assoc, List.singleton_append,
      takeWhile_append_cons hlast]
    have hinit := (@List.takeWhile_prefix _ init p).length_le
    simp only [List.length_append, List.length_singleton]
    omega

/-- Where no run goes across the end of `front`, exactly the runs behind it are found. -/
theorem mem_locatedRuns_iff
    (hfront : ∀ c ∈ front.getLast?, ∀ d ∈ text.head?, p d = true → p c = false) :
    (before, run) ∈ locatedRuns p front text ↔
      front.length ≤ before.length ∧ MaximalRun p (front ++ text) before run := by
  fun_induction locatedRuns p front text with
  | case1 front =>
      refine iff_of_false List.not_mem_nil fun h => ?_
      obtain ⟨between, after, -, htext, -⟩ := h.2.exists_between h.1
      obtain ⟨-, hrest⟩ := List.append_eq_nil_iff.mp htext.symm
      exact h.2.ne_nil (List.append_eq_nil_iff.mp hrest).1
  | case2 front c text hc ih =>
      have hsplit : front ++ c :: text.takeWhile p ++ text.dropWhile p = front ++ c :: text := by
        simp
      have hdrop := head_dropWhile_eq_false p text
      rw [hsplit] at ih
      rw [List.mem_cons, ih fun _ _ d hd hpd => by simp [hdrop d hd] at hpd]
      constructor
      · rintro (heq | ⟨hle, hmax⟩)
        · obtain ⟨rfl, rfl⟩ := Prod.mk.inj heq
          exact ⟨Nat.le_refl _, maximalRun_takeWhile hc fun d hd => hfront d hd c rfl hc⟩
        · rw [List.length_append] at hle
          exact ⟨by omega, hmax⟩
      · rintro ⟨hle, hmax⟩
        exact (hmax.first_or_behind hc hle).imp_right fun hbehind => ⟨hbehind, hmax⟩
  | case3 front c text hc ih =>
      have hsplit : front ++ [c] ++ text = front ++ c :: text := by simp
      rw [hsplit] at ih
      rw [ih (by simp [hc])]
      refine and_congr_left fun hmax => ?_
      rw [List.length_append, List.length_singleton]
      refine ⟨fun hle => by omega, fun hle => ?_⟩
      obtain ⟨between, after, rfl, htext, -⟩ := hmax.exists_between hle
      cases between with
      | cons d between => simp
      | nil =>
          obtain ⟨d, run, rfl⟩ := List.exists_cons_of_ne_nil hmax.ne_nil
          obtain ⟨rfl, -⟩ := List.cons.inj htext
          exact absurd (hmax.all c List.mem_cons_self) hc

end

/-! ## Identifiers -/

theorem identifiers_eq_occurrences (text : String) :
    identifiers text = ((occurrences identifierPattern text.toList).map String.ofList).filter
      fun name => !isBooleanLiteral name := by
  rw [occurrences_identifierPattern, identifiers, words, List.filter_map, List.filter_map,
    List.filter_filter]
  congr 1
  refine List.filter_congr fun run _ => ?_
  simp [isIdentifier, Bool.and_comm]

/-- The identifiers of a text are the matches of their pattern that are no boolean literals. They
are listed from left to right, each where it stands: they are all maximal runs of word characters
with a letter, less the literals. A character outside words therefore separates the identifiers
before it from those behind it. -/
theorem identifiers_are_maximal_runs (text : String) :
    identifiers text = ((occurrences identifierPattern text.toList).map String.ofList).filter
      (fun name => !isBooleanLiteral name) ∧
    (∃ located : List (List Char × List Char),
      identifiers text = located.map (fun found => String.ofList found.2) ∧
      located.Pairwise (fun earlier later => earlier.1.length < later.1.length) ∧
      ∀ before run, (before, run) ∈ located ↔
        MaximalRun (inRanges wordRanges) text.toList before run ∧
          (∃ c ∈ run, inRanges letterRanges c = true) ∧
          String.ofList run ≠ "true" ∧ String.ofList run ≠ "false") ∧
    ∀ (c : Char) (other : String), inRanges wordRanges c = false →
      identifiers (text ++ String.singleton c ++ other) =
        identifiers text ++ identifiers other := by
  have hword : inRanges wordRanges = isWordChar := funext inRanges_wordRanges
  have hletter : inRanges letterRanges = Char.isAlpha := funext inRanges_letterRanges
  rw [hword, hletter]
  refine ⟨identifiers_eq_occurrences text, ?_, ?_⟩
  · refine ⟨(locatedRuns isWordChar [] text.toList).filter fun found =>
      isIdentifier (String.ofList found.2), ?_, (pairwise_locatedRuns _ _ _).filter _, ?_⟩
    · rw [identifiers, words, ← map_snd_locatedRuns isWordChar [], List.map_map, List.filter_map]
      rfl
    · intro before run
      rw [List.mem_filter, mem_locatedRuns_iff (by simp)]
      simp [isIdentifier, isBooleanLiteral, trueLiteral, falseLiteral]
  · intro c other hc
    exact identifiers_append (by simp) (by simpa using hc)

/-- A letter that is none of the word characters separates words like any other mark. -/
theorem identifiers_are_maximal_runs_accent :
    inRanges wordRanges 'é' = false ∧
      identifiers ("a.1>2_" ++ String.singleton 'é' ++ "7x==true") =
        identifiers "a.1>2_" ++ identifiers "7x==true" ∧
      identifiers "a.1>2_" ++ identifiers "7x==true" = ["a.1", "7x"] := by
  have hmark : inRanges wordRanges 'é' = false := by decide
  exact ⟨hmark, (identifiers_are_maximal_runs "a.1>2_").2.2 'é' "7x==true" hmark, by decide +kernel⟩

end PastTime.Text

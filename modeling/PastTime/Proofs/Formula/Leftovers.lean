import PastTime.Proofs.Formula.Cuts

/-!
# What is left over behind a formula

If a text is rejected because something is left over, the text in front of the left over part is
accepted, as the formula that was read before. Between two lexemes a text can be cut without a
change of the lexemes in front, and the grammar reads these in the same way without those behind.
-/

namespace PastTime

namespace Lexeme

/-- The first lexeme of a text is scanned from its own characters and the blanks in front of them,
wherever the text is cut behind these. -/
theorem scan_first_of_cut {chars : List Char} {first : Located} {rest : List Located}
    (h : scan chars = first :: rest) :
    ∃ used tail, chars = used ++ tail ∧ scan tail = rest ∧
      ∀ front back, tail = front ++ back →
        (scan (used ++ front)).map (·.lexeme) = first.lexeme :: (scan front).map (·.lexeme) := by
  fun_induction scan chars with
  | case1 => cases h
  | case2 c others hblank ih =>
      obtain ⟨used, tail, rfl, hrest, hcut⟩ := ih h
      refine ⟨c :: used, tail, rfl, hrest, fun front back htail => ?_⟩
      rw [List.cons_append, scan_cons_of_isWhitespace hblank]
      exact hcut front back htail
  | case3 c others hblank hword =>
      obtain ⟨rfl, rfl⟩ := List.cons.inj h
      refine ⟨c :: others.takeWhile Text.isWordChar, others.dropWhile Text.isWordChar, ?_, rfl, ?_⟩
      · rw [List.cons_append, List.takeWhile_append_dropWhile]
      · intro front back htail
        -- the word ends in front of the cut, since what is behind it begins with no word character
        have hbreak : front.takeWhile Text.isWordChar = [] ∧
            front.dropWhile Text.isWordChar = front := by
          cases front with
          | nil => exact ⟨rfl, rfl⟩
          | cons d front =>
              have hhead := List.head?_dropWhile_not Text.isWordChar others
              rw [htail] at hhead
              have hd : ¬Text.isWordChar d = true := by simpa using hhead
              exact ⟨List.takeWhile_cons_of_neg hd, List.dropWhile_cons_of_neg hd⟩
        have hall : ∀ d ∈ others.takeWhile Text.isWordChar, Text.isWordChar d = true :=
          fun d hd => List.mem_takeWhile_imp hd
        rw [List.cons_append, scan.eq_def]
        simp only [hblank, hword, Bool.false_eq_true, ↓reduceIte, List.map_cons]
        rw [List.takeWhile_append_of_pos hall, List.dropWhile_append_of_pos hall, hbreak.1,
          hbreak.2, List.append_nil]
  | case4 c hblank hword =>
      obtain ⟨rfl, rfl⟩ := List.cons.inj h
      refine ⟨[c], [], rfl, by rw [scan], fun front back htail => ?_⟩
      obtain ⟨rfl, rfl⟩ := List.append_eq_nil_iff.mp htail.symm
      simp [scan, hblank, hword]
  | case5 c hblank hword d others hpair =>
      obtain ⟨rfl, rfl⟩ := List.cons.inj h
      refine ⟨[c, d], others, rfl, rfl, fun front back htail => ?_⟩
      simp [scan, hblank, hword, hpair]
  | case6 c hblank hword d others hpair =>
      obtain ⟨rfl, rfl⟩ := List.cons.inj h
      refine ⟨[c], d :: others, rfl, rfl, fun front back htail => ?_⟩
      cases front with
      | nil => simp [scan, hblank, hword]
      | cons e front =>
          obtain ⟨rfl, -⟩ := List.cons.inj htail
          simp [scan, hblank, hword, hpair]

/-- The text in front of a lexeme has the lexemes in front of it. -/
theorem map_lexeme_scan_of_drop {chars front : List Char} {k : Nat} {located : Located}
    {rest : List Located} (h : (scan chars).drop k = located :: rest)
    (hfront : chars = front ++ located.start) :
    (scan front).map (·.lexeme) = ((scan chars).take k).map (·.lexeme) := by
  induction k generalizing chars front with
  | zero =>
      rw [List.drop_zero] at h
      have hblank : front = chars.takeWhile Char.isWhitespace := by
        rw [(scan_first h).1] at hfront
        have hsplit := @List.takeWhile_append_dropWhile _ Char.isWhitespace chars
        exact List.append_cancel_right (hfront.symm.trans hsplit.symm)
      have hnone : front.dropWhile Char.isWhitespace = [] := by
        rw [List.dropWhile_eq_nil_iff, hblank]
        exact fun c hc => List.mem_takeWhile_imp hc
      rw [← scan_dropWhile_isWhitespace, hnone, scan]
      rfl
  | succ k ih =>
      cases hchars : scan chars with
      | nil => simp [hchars] at h
      | cons first others =>
          obtain ⟨used, tail, rfl, hothers, hcut⟩ := scan_first_of_cut hchars
          rw [hchars, List.drop_succ_cons, ← hothers] at h
          obtain ⟨between, rfl⟩ := (scan_drop h).1
          rw [← List.append_assoc] at hfront
          obtain rfl := List.append_cancel_right hfront
          rw [hcut between _ rfl, ih h rfl, hothers]
          rfl

/-- A text that is cut in front of its last lexemes has the other ones. -/
theorem lexemes_of_append_suffix {text front : String} {used rest : List Lexeme}
    (h : lexemes text = used ++ rest) (hfront : text = front ++ suffix text rest.length) :
    lexemes front = used := by
  have htake : ((scan text.toList).take used.length).map (·.lexeme) = used := by
    rw [List.map_take]
    change (lexemes text).take used.length = used
    rw [h, List.take_left]
  have hdrop : ((scan text.toList).drop used.length).map (·.lexeme) = rest := by
    rw [List.map_drop]
    change (lexemes text).drop used.length = rest
    rw [h, List.drop_left]
  rw [suffix_of_append h] at hfront
  cases hlast : (scan text.toList).drop used.length with
  | nil =>
      rw [hlast, List.map_nil] at hdrop
      rw [hlast, List.head?_nil, Option.elim_none, String.append_empty] at hfront
      rw [← hfront, h, ← hdrop, List.append_nil]
  | cons first others =>
      have hchars : text.toList = front.toList ++ first.start := by
        rw [hlast, List.head?_cons, Option.elim_some] at hfront
        rw [hfront, String.toList_append, String.toList_ofList]
      rw [lexemes, map_lexeme_scan_of_drop hlast hchars, htake]

end Lexeme

namespace Formula

/-- If something is left over, the text in front of it is accepted as the formula that was read. -/
theorem parse_of_incomplete {text : String} {place : Place}
    (h : parse text = .error (.incomplete place)) :
    ∃ front formula, text = front ++ place.fragment ∧ front.utf8ByteSize = place.offset ∧
      Grammar.predicate (Grammar.maxDepth + 1) (Lexeme.lexemes text) =
        .ok formula (Lexeme.lexemes place.fragment) ∧
      parse front = .ok formula := by
  unfold parse parseWithin at h
  split at h
  next => cases h
  next formula rest hne hread =>
    obtain ⟨used, hused, rfl, hformula, -⟩ := (Grammar.reads_level _).2 _ _ _ hread
    have hrest : rest <:+ Lexeme.lexemes text := ⟨formula.lexemes, hused.symm⟩
    obtain ⟨front, hfront, hoffset⟩ := Place.ofRemaining_spec hrest
    obtain ⟨-, -, hlexemes, -⟩ := Lexeme.suffix_spec hrest
    cases h
    refine ⟨front, formula, hfront, hoffset.symm, ?_, ?_⟩
    · rw [hread]
      exact congrArg _ hlexemes.symm
    · apply parseWithin_eq_ok_iff.mpr
      rw [Lexeme.lexemes_of_append_suffix hused hfront]
      rw [hused] at hread
      exact Grammar.predicate_of_cut (Grammar.derives_of_wellFormed hformula).balanced hread
  next => cases h
  next => cases h

set_option maxRecDepth 20000 in
/-- The arrow has no formula behind it, because the last parenthesis is not closed. -/
theorem parse_of_incomplete_arrow :
    parse "(a||b) * c != once(d)  -> (é" = .error (.incomplete ⟨23, "-> (é"⟩) ∧
      ∃ front formula, "(a||b) * c != once(d)  -> (é" = front ++ "-> (é" ∧
        front.utf8ByteSize = 23 ∧ parse front = .ok formula := by
  have h : parse "(a||b) * c != once(d)  -> (é" = .error (.incomplete ⟨23, "-> (é"⟩) := by
    decide +kernel
  obtain ⟨front, formula, hfront, hoffset, -, hparse⟩ := parse_of_incomplete h
  exact ⟨h, front, formula, hfront, hoffset, hparse⟩

end Formula

end PastTime

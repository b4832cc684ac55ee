import PastTime.Proofs.Formula.Heights
import PastTime.Proofs.Formula.Places

/-!
# What a text opens before it nests too deep

Levels are opened by the lexemes `(`, `[`, `!` and `->` only. A text is given up at a place where
more levels are open than the limit allows. Every open level is charged to a lexeme of its own that
starts at this place or before it, although parts of the text may have been read more than once.
-/

namespace PastTime

namespace Lexeme

/-- The lexemes that open a level. -/
def openers : List Lexeme := [mark "(", mark "[", mark "!", mark "->"]

/-- The byte offset at which a lexeme of the text starts. -/
def Located.offset (text : String) (located : Located) : Nat :=
  text.utf8ByteSize - (String.ofList located.start).utf8ByteSize

/-- The byte offsets at which the lexemes of a text start that open a level. -/
def openings (text : String) : List Nat :=
  ((scan text.toList).filter fun located => located.lexeme ∈ openers).map (·.offset text)

theorem opens_eq (lexeme : Lexeme) : lexeme.opens = if lexeme ∈ openers then 1 else 0 := rfl

/-- No more levels are open at a place than were opened up to it. -/
theorem heightAt_le_countP (used left : List Lexeme) :
    heightAt used left ≤ (used ++ left.take 1).countP (· ∈ openers) := by
  induction used with
  | nil =>
      cases left with
      | nil => decide
      | cons lexeme rest => simp [heightAt, opens_eq, List.countP_cons]
  | cons lexeme rest ih =>
      have hcons := heightAt_append [lexeme] rest left
      simp only [List.singleton_append, height_cons, height_nil, opens_eq] at hcons
      rw [List.cons_append, List.countP_cons]
      simp only [decide_eq_true_eq]
      split at hcons <;> split <;> omega

/-! ## Places in the order of the text -/

theorem start_suffix_of_mem {chars : List Char} {located : Located} (h : located ∈ scan chars) :
    located.start <:+ chars := by
  obtain ⟨before, after, hsplit⟩ := List.append_of_mem h
  have hdrop : (scan chars).drop before.length = located :: after := by
    rw [hsplit, List.drop_left]
  exact (scan_drop hdrop).1

/-- The text from a lexeme on ends with the text from each later lexeme on. -/
theorem pairwise_start_suffix (chars : List Char) :
    (scan chars).Pairwise fun earlier later => later.start <:+ earlier.start := by
  fun_induction scan chars with
  | case1 => exact .nil
  | case2 c rest _ ih => exact ih
  | case3 c rest _ _ ih =>
      refine .cons (fun later hlater => ?_) ih
      have htail := (List.dropWhile_suffix Text.isWordChar).trans (List.suffix_cons c rest)
      exact (start_suffix_of_mem hlater).trans htail
  | case4 c => exact List.pairwise_singleton _ _
  | case5 c _ _ d rest _ ih =>
      refine .cons (fun later hlater => ?_) ih
      have htail := (List.suffix_cons d rest).trans (List.suffix_cons c (d :: rest))
      exact (start_suffix_of_mem hlater).trans htail
  | case6 c _ _ d rest _ ih =>
      refine .cons (fun later hlater => ?_) ih
      exact (start_suffix_of_mem hlater).trans (List.suffix_cons c (d :: rest))

theorem utf8ByteSize_le_of_suffix {front back : List Char} (h : back <:+ front) :
    (String.ofList back).utf8ByteSize ≤ (String.ofList front).utf8ByteSize := by
  obtain ⟨before, rfl⟩ := h
  rw [String.ofList_append, String.utf8ByteSize_append]
  exact Nat.le_add_left _ _

/-- The lexemes up to a place start at this place or before it. -/
theorem offset_le_of_mem_take {text : String} {used left : List Lexeme} {located : Located}
    (h : lexemes text = used ++ left) (hmem : located ∈ (scan text.toList).take (used.length + 1)) :
    located.offset text ≤ (Place.ofRemaining text left.length).offset := by
  suffices hsize : (suffix text left.length).utf8ByteSize ≤
      (String.ofList located.start).utf8ByteSize from Nat.sub_le_sub_left hsize _
  rw [suffix_of_append h]
  cases hdrop : (scan text.toList).drop used.length with
  | nil => exact Nat.zero_le _
  | cons next later =>
      apply utf8ByteSize_le_of_suffix
      have hpairwise := pairwise_start_suffix text.toList
      rw [← List.take_append_drop used.length (scan text.toList), hdrop,
        List.pairwise_append] at hpairwise
      have hnext : (scan text.toList)[used.length]? = some next := by
        rw [← List.head?_drop, hdrop, List.head?_cons]
      rw [List.take_add_one, hnext, List.mem_append] at hmem
      rcases hmem with hbefore | hhere
      · exact hpairwise.2.2 located hbefore next List.mem_cons_self
      · rw [Option.toList_some, List.mem_singleton] at hhere
        subst hhere
        exact List.suffix_refl _

/-- The openings up to a place are those of the lexemes up to it. -/
theorem countP_le_openings {text : String} {used left : List Lexeme}
    (h : lexemes text = used ++ left) :
    (used ++ left.take 1).countP (· ∈ openers) ≤
      (openings text).countP (· ≤ (Place.ofRemaining text left.length).offset) := by
  have hlexemes : ((scan text.toList).take (used.length + 1)).map (·.lexeme) =
      used ++ left.take 1 := by
    rw [List.map_take]
    change (lexemes text).take (used.length + 1) = _
    rw [h, List.take_length_add_append]
  rw [← hlexemes, openings, List.countP_map, List.countP_map, List.countP_filter]
  calc ((scan text.toList).take (used.length + 1)).countP ((· ∈ openers) ∘ (·.lexeme))
      ≤ ((scan text.toList).take (used.length + 1)).countP _ := ?_
    _ ≤ (scan text.toList).countP _ := (List.take_sublist _ _).countP_le
  refine List.countP_mono_left fun located hmem hopener => ?_
  simpa using ⟨offset_le_of_mem_take h hmem, by simpa using hopener⟩

end Lexeme

namespace Formula

open Lexeme

/-- A text that nests too deep at a place opens more levels up to there than the limit allows, so
that a text with fewer openings never nests too deep. -/
theorem openings_of_tooDeep (text : String) (place : Place) :
    (parse text = .error (.tooDeep place) →
      Grammar.maxDepth + 1 ≤ (openings text).countP (· ≤ place.offset)) ∧
    ((openings text).length ≤ Grammar.maxDepth → parse text ≠ .error (.tooDeep place)) := by
  have hopened (hdeep : parse text = .error (.tooDeep place)) :
      Grammar.maxDepth + 1 ≤ (openings text).countP (· ≤ place.offset) := by
    unfold parse parseWithin at hdeep
    split at hdeep
    next => cases hdeep
    next => cases hdeep
    next => cases hdeep
    next left hreply =>
      obtain ⟨used, hused, hheight⟩ := (Grammar.givesUp_level _).2 _ _ hreply
      have hcount := heightAt_le_countP used left
      have hopenings := countP_le_openings hused
      cases hdeep
      omega
  refine ⟨hopened, fun hfew hdeep => ?_⟩
  have hcount := hopened hdeep
  have hall := @List.countP_le_length _ (· ≤ place.offset) (openings text)
  omega

set_option maxRecDepth 20000 in
/-- The place may be that of the last opening. -/
theorem openings_of_tooDeep_mixed :
    parse (String.ofList (List.replicate 98 '!') ++ "(a->[") = .error (.tooDeep ⟨102, "["⟩) ∧
      101 ≤ (openings (String.ofList (List.replicate 98 '!') ++ "(a->[")).countP (· ≤ 102) ∧
      (openings "![!(a != b)]").length ≤ 100 ∧
      parse "![!(a != b)]" ≠ .error (.tooDeep ⟨2, "!(a != b)]"⟩) := by
  have hdeep : parse (String.ofList (List.replicate 98 '!') ++ "(a->[") =
      .error (.tooDeep ⟨102, "["⟩) := by
    decide +kernel
  have hfew : (openings "![!(a != b)]").length ≤ 100 := by decide +kernel
  exact ⟨hdeep, (openings_of_tooDeep _ _).1 hdeep, hfew, (openings_of_tooDeep _ _).2 hfew⟩

end Formula

end PastTime

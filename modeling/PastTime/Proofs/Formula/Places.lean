import PastTime.Formula.Parse
import PastTime.Proofs.Formula.Congruence
import PastTime.Proofs.Lexeme.Spelling
import PastTime.Proofs.Parser.Leaves

/-!
# Where a text is rejected

An error names a place of its text: a byte offset between two characters, and the text from there
on. The place is computed from the number of lexemes that were left, which is right because every
parser of the grammar leaves an end of its input, and because the lexemes of the text from a lexeme
on are the lexemes from this one on.
-/

namespace PastTime

/-! ## What the grammar leaves -/

namespace Grammar

open PastTime.Parser

/-- To leave an end of the input is a relation of a parser with itself. -/
theorem congruence_leaves :
    Congruence Parser Parser fun _ parser other => parser = other ∧ Leaves parser where
  pure value := ⟨rfl, Leaves.pure value⟩
  bind := by
    rintro _ _ parser _ next other ⟨rfl, hparser⟩ hnext
    have hsame : next = other := funext fun value => (hnext value).1
    exact ⟨hsame ▸ rfl, hparser.bind fun value => (hnext value).2⟩
  mismatch := ⟨rfl, Leaves.mismatch⟩
  tooDeep := ⟨rfl, Leaves.tooDeep⟩
  orElse := by
    rintro _ _ _ _ _ ⟨rfl, hfirst⟩ ⟨rfl, hsecond⟩
    exact ⟨rfl, hfirst.orElse hsecond⟩
  next meaning := ⟨rfl, Leaves.next meaning⟩
  optional := by
    rintro _ _ _ ⟨rfl, h⟩
    exact ⟨rfl, h.optional⟩
  notFollowedBy := by
    rintro _ _ _ ⟨rfl, h⟩
    exact ⟨rfl, h.notFollowedBy⟩
  collect := by
    rintro _ _ _ ⟨rfl, h⟩
    exact ⟨rfl, h.collect⟩

theorem leaves_group (room : Nat) : Leaves (group room) := by
  induction room with
  | zero => exact congruence_leaves.noGroup.2
  | succ room ih => exact (congruence_leaves.groupOf ⟨rfl, ih⟩).2

theorem leaves_piece (room : Nat) : Leaves (piece room) :=
  (congruence_leaves.tokenOf _ ⟨rfl, leaves_group room⟩).2

theorem leaves_groupToken (room : Nat) : Leaves (groupToken room) :=
  (congruence_leaves.tokenOf _ ⟨rfl, leaves_group room⟩).2

/-- Whatever room there is, both parsers of a level leave an end of their input. -/
theorem leaves_level (room : Nat) : Leaves (unary room) ∧ Leaves (predicate room) := by
  induction room with
  | zero => exact ⟨Leaves.tooDeep, Leaves.tooDeep⟩
  | succ room ih =>
      obtain ⟨hunary, hpredicate⟩ := ih
      have hnext : Leaves (unary (room + 1)) :=
        (congruence_leaves.unaryOf ⟨rfl, leaves_group room⟩ ⟨rfl, hunary⟩ ⟨rfl, hpredicate⟩).2
      exact ⟨hnext, (congruence_leaves.implication ⟨rfl, hnext⟩ ⟨rfl, hpredicate⟩).2⟩

end Grammar

/-! ## Lexemes and their places -/

namespace Lexeme

/-- Blanks in front of a text have no lexemes. -/
theorem scan_dropWhile_isWhitespace (chars : List Char) :
    scan (chars.dropWhile Char.isWhitespace) = scan chars := by
  induction chars with
  | nil => rfl
  | cons c rest ih =>
      by_cases hblank : c.isWhitespace = true
      · rw [List.dropWhile_cons_of_pos hblank, scan_cons_of_isWhitespace hblank, ih]
      · rw [List.dropWhile_cons_of_neg hblank]

/-- The first lexeme starts behind the blanks, and the others are those of an end of the text. -/
theorem scan_first {chars : List Char} {first : Located} {rest : List Located}
    (h : scan chars = first :: rest) :
    first.start = chars.dropWhile Char.isWhitespace ∧
      ∃ tail, tail <:+ chars ∧ scan tail = rest := by
  fun_induction scan chars with
  | case1 => cases h
  | case2 c others hblank ih =>
      obtain ⟨hstart, tail, htail, hrest⟩ := ih h
      rw [List.dropWhile_cons_of_pos hblank]
      exact ⟨hstart, tail, htail.trans (List.suffix_cons c others), hrest⟩
  | case3 c others hblank hword =>
      obtain ⟨rfl, rfl⟩ := List.cons.inj h
      have htail := (List.dropWhile_suffix Text.isWordChar).trans (List.suffix_cons c others)
      exact ⟨(List.dropWhile_cons_of_neg hblank).symm, _, htail, rfl⟩
  | case4 c hblank hword =>
      obtain ⟨rfl, rfl⟩ := List.cons.inj h
      exact ⟨(List.dropWhile_cons_of_neg hblank).symm, [], List.nil_suffix, by rw [scan]⟩
  | case5 c hblank hword d others hpair =>
      obtain ⟨rfl, rfl⟩ := List.cons.inj h
      have htail := (List.suffix_cons d others).trans (List.suffix_cons c (d :: others))
      exact ⟨(List.dropWhile_cons_of_neg hblank).symm, others, htail, rfl⟩
  | case6 c hblank hword d others hpair =>
      obtain ⟨rfl, rfl⟩ := List.cons.inj h
      exact ⟨(List.dropWhile_cons_of_neg hblank).symm, _, List.suffix_cons c (d :: others), rfl⟩

/-- Every lexeme starts at an end of the text that begins with no blank and has the lexemes from
this one on. -/
theorem scan_drop {chars : List Char} {k : Nat} {located : Located} {rest : List Located}
    (h : (scan chars).drop k = located :: rest) :
    located.start <:+ chars ∧ scan located.start = located :: rest ∧
      ∃ c ∈ located.start.head?, c.isWhitespace = false := by
  induction k generalizing chars with
  | zero =>
      rw [List.drop_zero] at h
      have hscan : scan located.start = located :: rest := by
        rw [(scan_first h).1, scan_dropWhile_isWhitespace, h]
      refine ⟨(scan_first h).1 ▸ List.dropWhile_suffix _, hscan, ?_⟩
      cases hstart : located.start with
      | nil => simp [hstart, scan] at hscan
      | cons c others =>
          have hhead := List.head?_dropWhile_not Char.isWhitespace chars
          rw [← (scan_first h).1, hstart] at hhead
          exact ⟨c, rfl, by simpa using hhead⟩
  | succ k ih =>
      cases hchars : scan chars with
      | nil => simp [hchars] at h
      | cons first others =>
          obtain ⟨-, tail, htail, hothers⟩ := scan_first hchars
          rw [hchars, List.drop_succ_cons, ← hothers] at h
          obtain ⟨hstart, hscan, hhead⟩ := ih h
          exact ⟨hstart.trans htail, hscan, hhead⟩

/-- The text from a lexeme on, where the lexemes in front of it are known. -/
theorem suffix_of_append {text : String} {used rest : List Lexeme}
    (h : lexemes text = used ++ rest) :
    suffix text rest.length =
      ((scan text.toList).drop used.length).head?.elim "" (String.ofList ·.start) := by
  have hlength : (scan text.toList).length - rest.length = used.length := by
    have htotal := congrArg List.length h
    rw [lexemes, List.length_map, List.length_append] at htotal
    omega
  simp only [suffix, hlength]
  cases (scan text.toList).drop used.length <;> rfl

/-- If lexemes are the last ones of a text, the text from the first of them on has exactly these
lexemes. -/
theorem suffix_spec {text : String} {rest : List Lexeme} (h : rest <:+ lexemes text) :
    ∃ front, text = front ++ suffix text rest.length ∧
      lexemes (suffix text rest.length) = rest ∧
      (rest ≠ [] → ∃ c ∈ (suffix text rest.length).toList.head?, c.isWhitespace = false) := by
  have hrest := List.suffix_iff_eq_drop.mp h
  rw [lexemes, List.length_map, ← List.map_drop] at hrest
  cases hdrop : (scan text.toList).drop ((scan text.toList).length - rest.length) with
  | nil =>
      have hsuffix : suffix text rest.length = "" := by simp only [suffix, hdrop]
      rw [hdrop, List.map_nil] at hrest
      rw [hsuffix]
      exact ⟨text, by simp, by rw [hrest, lexemes_empty], fun hne => absurd hrest hne⟩
  | cons first others =>
      have hsuffix : suffix text rest.length = String.ofList first.start := by
        simp only [suffix, hdrop]
      rw [hdrop] at hrest
      obtain ⟨⟨front, hfront⟩, hscan, hhead⟩ := scan_drop hdrop
      rw [hsuffix, lexemes, String.toList_ofList, hscan]
      refine ⟨String.ofList front, ?_, hrest.symm, fun _ => hhead⟩
      rw [← String.toList_inj, String.toList_append, String.toList_ofList, String.toList_ofList,
        hfront]

end Lexeme

/-! ## Places of errors -/

/-- The place of lexemes at the end of a text splits the text in front of them. -/
theorem Place.ofRemaining_spec {text : String} {rest : List Lexeme}
    (h : rest <:+ Lexeme.lexemes text) :
    ∃ front, text = front ++ (ofRemaining text rest.length).fragment ∧
      (ofRemaining text rest.length).offset = front.utf8ByteSize := by
  obtain ⟨front, hfront, -⟩ := Lexeme.suffix_spec h
  refine ⟨front, hfront, ?_⟩
  have hsize := congrArg String.utf8ByteSize hfront
  rw [String.utf8ByteSize_append] at hsize
  simp only [ofRemaining]
  omega

namespace Formula

/-- An error is at the place of the lexemes that the grammar has left. -/
theorem place_of_parseWithin {room : Nat} {text : String} {error : GrammarError}
    (h : parseWithin room text = .error error) :
    ∃ reply, Grammar.predicate room (Lexeme.lexemes text) = reply ∧
      error.place = .ofRemaining text reply.rest.length ∧
      ∀ place, error = .incomplete place → reply.rest ≠ [] := by
  refine ⟨_, rfl, ?_⟩
  unfold parseWithin at h
  split at h
  next => cases h
  next formula rest hwhole heq =>
    cases h
    rw [heq]
    exact ⟨rfl, fun _ _ => hwhole⟩
  next heq =>
    cases h
    rw [heq]
    exact ⟨rfl, by simp⟩
  next heq =>
    cases h
    rw [heq]
    exact ⟨rfl, by simp⟩

/-- A rejected text is rejected at a place of its own: the offset is that of a character, or of the
end of the text, and the fragment is the rest of the text. The lexemes of the fragment are those
that the grammar has left unread. If the text is rejected because something is left over, what is
left over is not empty and begins with no blank. -/
theorem parse_error_place {text : String} {error : GrammarError} (h : parse text = .error error) :
    error.place.offset ≤ text.utf8ByteSize ∧
      String.Pos.Raw.IsValid text ⟨error.place.offset⟩ ∧
      (∃ front, text = front ++ error.place.fragment ∧
        error.place.offset = front.utf8ByteSize) ∧
      Lexeme.lexemes error.place.fragment =
        (Grammar.predicate (Grammar.maxDepth + 1) (Lexeme.lexemes text)).rest ∧
      ∀ place, error = .incomplete place →
        ∃ c ∈ place.fragment.toList.head?, c ∉ [' ', '\t', '\r', '\n'] := by
  obtain ⟨reply, hreply, hplace, hincomplete⟩ := place_of_parseWithin h
  have hsuffix : reply.rest <:+ Lexeme.lexemes text := (Grammar.leaves_level _).2.of_eq hreply
  obtain ⟨front, hfront, hoffset⟩ := Place.ofRemaining_spec hsuffix
  obtain ⟨-, -, hlexemes, hhead⟩ := Lexeme.suffix_spec hsuffix
  rw [← hplace] at hfront hoffset
  refine ⟨?_, ?_, ⟨front, hfront, hoffset⟩, ?_, ?_⟩
  · rw [hoffset, hfront, String.utf8ByteSize_append]
    exact Nat.le_add_right _ _
  · rw [String.Pos.Raw.isValid_iff_exists_append]
    exact ⟨front, error.place.fragment, hfront, by rw [hoffset]; rfl⟩
  · rw [hreply, hplace]
    exact hlexemes
  · intro place herror
    obtain ⟨c, hc, hblank⟩ := hhead (hincomplete place herror)
    subst herror
    refine ⟨c, ?_, ?_⟩
    · change place = _ at hplace
      rw [hplace]
      exact hc
    · simpa [Char.isWhitespace, and_assoc] using hblank

set_option maxRecDepth 20000 in
theorem parse_error_place_leftover :
    parse "a &&b ) é" = .error (.incomplete ⟨6, ") é"⟩) ∧ 6 ≤ "a &&b ) é".utf8ByteSize ∧
      String.Pos.Raw.IsValid "a &&b ) é" ⟨6⟩ ∧
      (∃ front, "a &&b ) é" = front ++ ") é" ∧ 6 = front.utf8ByteSize) ∧
      ∃ c ∈ ") é".toList.head?, c ∉ [' ', '\t', '\r', '\n'] := by
  have h : parse "a &&b ) é" = .error (.incomplete ⟨6, ") é"⟩) := by decide +kernel
  obtain ⟨hoffset, hvalid, hfront, -, hleftover⟩ := parse_error_place h
  exact ⟨h, hoffset, hvalid, hfront, hleftover _ rfl⟩

end Formula

end PastTime

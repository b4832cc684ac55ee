import Mathlib.Data.List.TakeWhile
import PastTime.Lexeme

/-!
# How lexemes are spelled

A text is scanned for words in two ways: by its lexemes, and by its runs of word characters. On a
text as it is given, both find the same words. On the lexemes of a text written one after the other
without blanks, neighbouring words run together: the runs are then the phrases, the words between
two marks in one.
-/

namespace PastTime

/-! ## Runs -/

namespace Text

variable {p : Char → Bool} {c : Char} {before after : List Char}

theorem runs_cons_of_not (h : p c = false) : runs p (c :: after) = runs p after := by
  rw [runs, if_neg (by simp [h])]

theorem runs_append_of_not (h : ∀ c ∈ before, p c = false) :
    runs p (before ++ after) = runs p after := by
  induction before with
  | nil => rfl
  | cons c rest ih =>
      rw [List.cons_append, runs_cons_of_not (h c List.mem_cons_self)]
      exact ih fun d hd => h d (List.mem_cons_of_mem c hd)

theorem takeWhile_append_cons (h : p c = false) :
    (before ++ c :: after).takeWhile p = before.takeWhile p := by
  rw [List.takeWhile_append, List.takeWhile_cons_of_neg (by simp [h]), List.append_nil]
  split
  next hlength => exact ((List.takeWhile_prefix p).eq_of_length hlength).symm
  next => rfl

theorem dropWhile_append_cons (h : p c = false) :
    (before ++ c :: after).dropWhile p = before.dropWhile p ++ c :: after := by
  rw [List.dropWhile_append, List.dropWhile_cons_of_neg (by simp [h])]
  split
  next hempty => rw [List.isEmpty_iff.mp hempty, List.nil_append]
  next => rfl

/-- A character outside all runs ends the run before it. -/
theorem runs_append_cons (h : p c = false) :
    runs p (before ++ c :: after) = runs p before ++ runs p after := by
  fun_induction runs p before with
  | case1 => exact runs_cons_of_not h
  | case2 first rest hfirst ih =>
      rw [List.cons_append, runs, if_pos hfirst, takeWhile_append_cons h, dropWhile_append_cons h,
        ih, List.cons_append]
  | case3 first rest hfirst ih =>
      rw [List.cons_append, runs_cons_of_not (by simpa using hfirst), ih]

theorem runs_of_all (h : ∀ c ∈ before, p c = true) :
    runs p before = [before].filter (· ≠ []) := by
  cases before with
  | nil => rw [runs]; rfl
  | cons c rest =>
      have hrest : ∀ d ∈ rest, p d = true := fun d hd => h d (List.mem_cons_of_mem c hd)
      rw [runs, if_pos (h c List.mem_cons_self), List.takeWhile_eq_self_iff.mpr hrest,
        List.dropWhile_eq_nil_iff.mpr hrest, runs]
      rfl

/-- The identifiers of two texts with something in between that stands in no word. -/
theorem identifiers_append {text between other : String} (hne : between ≠ "")
    (h : between.toList.all (!isWordChar ·) = true) :
    identifiers (text ++ between ++ other) = identifiers text ++ identifiers other := by
  simp only [List.all_eq_true, Bool.not_eq_true'] at h
  obtain ⟨c, rest, hbetween⟩ := List.exists_cons_of_ne_nil
    (fun hempty => hne (String.toList_eq_nil_iff.mp hempty) : between.toList ≠ [])
  obtain ⟨hc, hrest⟩ := List.forall_mem_cons.mp (hbetween ▸ h)
  have htext : (text ++ between ++ other).toList = text.toList ++ c :: (rest ++ other.toList) := by
    simp [hbetween]
  simp only [identifiers, words]
  rw [htext, runs_append_cons hc, runs_append_of_not hrest, List.map_append, List.filter_append]

@[simp] theorem identifiers_empty : identifiers "" = [] := by decide +kernel

theorem identifiers_enclosed (before text after : String) :
    identifiers (before ++ "(" ++ text ++ ")" ++ after) =
      identifiers before ++ identifiers text ++ identifiers after := by
  rw [identifiers_append (by decide) (by decide), identifiers_append (by decide) (by decide)]

theorem isWordChar_of_isWhitespace (h : c.isWhitespace = true) : isWordChar c = false := by
  simp only [Char.isWhitespace, Bool.or_eq_true, decide_eq_true_eq] at h
  rcases h with ((rfl | rfl) | rfl) | rfl <;> decide

end Text

/-! ## Lexemes -/

namespace Lexeme

/-- How a lexeme is written. -/
def text : Lexeme → String
  | word text | mark text => text

/-- The word that a lexeme is, if it is one. -/
def word? : Lexeme → Option String
  | word text => some text
  | mark _ => none

/-- A lexeme is not empty, and either all of its characters can stand in a word or none. -/
def Proper : Lexeme → Prop
  | word text => text ≠ "" ∧ ∀ c ∈ text.toList, Text.isWordChar c = true
  | mark text => text ≠ "" ∧ ∀ c ∈ text.toList, Text.isWordChar c = false

theorem pairs_not_isWordChar : ∀ pair ∈ pairs, Text.isWordChar pair.2 = false := by decide

theorem proper_word {c : Char} {rest : List Char} (h : Text.isWordChar c = true) :
    (word (String.ofList (c :: rest.takeWhile Text.isWordChar))).Proper := by
  refine ⟨by simp, ?_⟩
  intro d hd
  rw [String.toList_ofList] at hd
  rcases List.mem_cons.mp hd with rfl | hd
  · exact h
  · exact List.mem_takeWhile_imp hd

theorem proper_of_mem_scan {chars : List Char} {located : Located} (h : located ∈ scan chars) :
    located.lexeme.Proper := by
  fun_induction scan chars with
  | case1 => simp at h
  | case2 c rest _ ih => exact ih h
  | case3 c rest _ hword ih =>
      rcases List.mem_cons.mp h with rfl | h
      · exact proper_word hword
      · exact ih h
  | case4 c _ hword =>
      rw [List.mem_singleton] at h
      subst h
      simpa [Proper] using hword
  | case5 c _ hword d rest hpair ih =>
      rcases List.mem_cons.mp h with rfl | h
      · have hd := pairs_not_isWordChar _ hpair
        simp only [Bool.not_eq_true] at hword
        simpa [Proper] using ⟨hword, hd⟩
      · exact ih h
  | case6 c _ hword d rest _ ih =>
      rcases List.mem_cons.mp h with rfl | h
      · simpa [Proper] using hword
      · exact ih h

theorem proper_of_mem_lexemes {text : String} {lexeme : Lexeme} (h : lexeme ∈ lexemes text) :
    lexeme.Proper := by
  obtain ⟨located, hlocated, rfl⟩ := List.mem_map.mp h
  exact proper_of_mem_scan hlocated

theorem scan_cons_of_isWhitespace {c : Char} (h : c.isWhitespace = true) (rest : List Char) :
    scan (c :: rest) = scan rest := by
  rw [scan.eq_def]
  simp only [h, ↓reduceIte]

/-- Whether a character is a lexeme of its own wherever it stands. -/
def isSolo (c : Char) : Bool :=
  !c.isWhitespace && !Text.isWordChar c && pairs.all fun pair => pair.1 ≠ c && pair.2 ≠ c

theorem scan_cons_of_isSolo {c : Char} (h : isSolo c = true) (after : List Char) :
    (scan (c :: after)).map (·.lexeme) =
      mark (String.ofList [c]) :: (scan after).map (·.lexeme) := by
  simp only [isSolo, Bool.and_eq_true, Bool.not_eq_true', List.all_eq_true] at h
  obtain ⟨⟨hblank, hword⟩, hpairs⟩ := h
  cases after with
  | nil => simp [scan, hblank, hword]
  | cons d rest =>
      have hpair : (c, d) ∉ pairs := fun hmem => by simpa using hpairs _ hmem
      simp [scan, hblank, hword, hpair]

/-- Such a character separates the lexemes before it from those after it. -/
theorem scan_append_cons {c : Char} (h : isSolo c = true) (before after : List Char) :
    (scan (before ++ c :: after)).map (·.lexeme) =
      (scan before).map (·.lexeme) ++ mark (String.ofList [c]) :: (scan after).map (·.lexeme) := by
  have hsolo := h
  simp only [isSolo, Bool.and_eq_true, Bool.not_eq_true', List.all_eq_true] at hsolo
  obtain ⟨⟨-, hc⟩, hpairs⟩ := hsolo
  fun_induction scan before with
  | case1 => exact scan_cons_of_isSolo h after
  | case2 first rest hblank ih => rw [List.cons_append, scan_cons_of_isWhitespace hblank, ih]
  | case3 first rest hblank hword ih =>
      rw [List.cons_append, scan.eq_def]
      simp only [hblank, hword, Bool.false_eq_true, ↓reduceIte]
      rw [Text.takeWhile_append_cons hc, Text.dropWhile_append_cons hc, List.map_cons, ih,
        List.map_cons, List.cons_append]
  | case4 first hblank hword =>
      have hpair : (first, c) ∉ pairs := fun hmem => by simpa using hpairs _ hmem
      rw [List.cons_append, List.nil_append, scan, if_neg hblank, if_neg hword]
      simp only [hpair, ↓reduceIte, List.map_cons, scan_cons_of_isSolo h, List.map_nil,
        List.cons_append, List.nil_append]
  | case5 first hblank hword second rest hpair ih =>
      rw [List.cons_append, List.cons_append, scan, if_neg hblank, if_neg hword]
      simp only [hpair, ↓reduceIte, List.map_cons, ih, List.cons_append]
  | case6 first hblank hword second rest hpair ih =>
      rw [List.cons_append] at ih
      rw [List.cons_append, List.cons_append, scan, if_neg hblank, if_neg hword]
      simp only [hpair, ↓reduceIte, List.map_cons, ih, List.cons_append]

/-- The lexemes of two texts with such a character in between. -/
theorem lexemes_append {c : Char} {between : String} (hbetween : between.toList = [c])
    (h : isSolo c = true) (text other : String) :
    lexemes (text ++ between ++ other) = lexemes text ++ mark between :: lexemes other := by
  have htext : (text ++ between ++ other).toList = text.toList ++ c :: other.toList := by
    simp [hbetween]
  simp only [lexemes]
  rw [htext, scan_append_cons h, ← hbetween, String.ofList_toList]

@[simp] theorem lexemes_empty : lexemes "" = [] := by decide +kernel

theorem lexemes_comma (text other : String) :
    lexemes (text ++ ", " ++ other) = lexemes text ++ mark "," :: lexemes other := by
  have hblank : lexemes (" " ++ other) = lexemes other := by
    have hlist : (" " ++ other).toList = ' ' :: other.toList := by simp
    rw [lexemes, hlist, scan_cons_of_isWhitespace (by decide)]
    rfl
  have hcomma : text ++ ", " ++ other = text ++ "," ++ (" " ++ other) :=
    String.toList_inj.mp (by simp)
  rw [hcomma, lexemes_append (rfl : ",".toList = [',']) (by decide), hblank]

theorem lexemes_enclosed (before text after : String) :
    lexemes (before ++ "(" ++ text ++ ")" ++ after) =
      lexemes before ++ mark "(" :: lexemes text ++ mark ")" :: lexemes after := by
  rw [lexemes_append (rfl : ")".toList = [')']) (by decide),
    lexemes_append (rfl : "(".toList = ['(']) (by decide)]

theorem runs_eq_scan (chars : List Char) :
    (Text.runs Text.isWordChar chars).map String.ofList =
      ((scan chars).map (·.lexeme)).filterMap word? := by
  fun_induction scan chars with
  | case1 => rw [Text.runs]; rfl
  | case2 c rest hblank ih =>
      rw [Text.runs_cons_of_not (Text.isWordChar_of_isWhitespace hblank), ih]
  | case3 c rest _ hword ih =>
      rw [Text.runs, if_pos hword, List.map_cons, ih]
      rfl
  | case4 c _ hword =>
      rw [Text.runs_cons_of_not (by simpa using hword), Text.runs]
      rfl
  | case5 c _ hword d rest hpair ih =>
      rw [Text.runs_cons_of_not (by simpa using hword),
        Text.runs_cons_of_not (pairs_not_isWordChar _ hpair), ih]
      rfl
  | case6 c _ hword d rest _ ih =>
      rw [Text.runs_cons_of_not (by simpa using hword), ih]
      rfl

/-- The words of a text are the lexemes that are words. -/
theorem mem_words_iff {text name : String} :
    name ∈ Text.words text ↔ .word name ∈ lexemes text := by
  rw [Text.words, runs_eq_scan]
  change name ∈ (lexemes text).filterMap word? ↔ _
  rw [List.mem_filterMap]
  constructor
  · intro h
    obtain ⟨lexeme, hlexeme, hname⟩ := h
    cases lexeme with
    | word found => rwa [← Option.some.inj hname]
    | mark found => cases hname
  · intro hname
    exact ⟨.word name, hname, rfl⟩

/-! ## Phrases -/

/-- The words between two marks, for each two neighbouring marks and the two ends. -/
def phrases : List Lexeme → List (List String)
  | [] => [[]]
  | mark _ :: rest => [] :: phrases rest
  | word text :: rest => (phrases rest).modifyHead (text :: ·)

theorem phrases_ne_nil (lexemes : List Lexeme) : phrases lexemes ≠ [] := by
  induction lexemes with
  | nil => simp [phrases]
  | cons lexeme rest ih => cases lexeme <;> simp [phrases, ih]

/-- A mark separates phrases. -/
theorem phrases_append_mark (before after : List Lexeme) (text : String) :
    phrases (before ++ mark text :: after) = phrases before ++ phrases after := by
  induction before with
  | nil => rfl
  | cons lexeme rest ih =>
      cases lexeme with
      | mark found => rw [List.cons_append, phrases, ih, phrases, List.cons_append]
      | word found =>
          rw [List.cons_append, phrases, ih, phrases]
          obtain ⟨first, others, hphrases⟩ := List.exists_cons_of_ne_nil (phrases_ne_nil rest)
          rw [hphrases]
          rfl

theorem word_mem_of_mem_phrases {lexemes : List Lexeme} {phrase : List String} {name : String}
    (hphrase : phrase ∈ phrases lexemes) (hname : name ∈ phrase) : .word name ∈ lexemes := by
  induction lexemes generalizing phrase with
  | nil => simp_all [phrases]
  | cons lexeme rest ih =>
      obtain ⟨first, others, hphrases⟩ := List.exists_cons_of_ne_nil (phrases_ne_nil rest)
      rw [hphrases] at ih
      cases lexeme with
      | mark found =>
          rw [phrases, hphrases] at hphrase
          rcases List.mem_cons.mp hphrase with rfl | hphrase
          · simp at hname
          · exact List.mem_cons_of_mem _ (ih hphrase hname)
      | word found =>
          rw [phrases, hphrases, List.modifyHead_cons] at hphrase
          rcases List.mem_cons.mp hphrase with rfl | hphrase
          · rcases List.mem_cons.mp hname with rfl | hname
            · exact List.mem_cons_self
            · exact List.mem_cons_of_mem _ (ih List.mem_cons_self hname)
          · exact List.mem_cons_of_mem _ (ih (List.mem_cons_of_mem _ hphrase) hname)

/-- The characters of lexemes that are written one after the other. -/
def chars (lexemes : List Lexeme) : List Char := lexemes.flatMap (·.text.toList)

/-- Written one after the other, the words of a phrase run together. `before` are the characters of
words that were written already. -/
theorem runs_append_chars {lexemes : List Lexeme} {before : List Char}
    (hbefore : ∀ c ∈ before, Text.isWordChar c = true)
    (hproper : ∀ lexeme ∈ lexemes, lexeme.Proper) :
    Text.runs Text.isWordChar (before ++ chars lexemes) =
      (((phrases lexemes).map fun phrase => (String.join phrase).toList).modifyHead
        (before ++ ·)).filter (· ≠ []) := by
  induction lexemes generalizing before with
  | nil => simpa [chars, phrases] using Text.runs_of_all hbefore
  | cons lexeme rest ih =>
      obtain ⟨hlexeme, hrest⟩ := List.forall_mem_cons.mp hproper
      obtain ⟨first, others, hphrases⟩ := List.exists_cons_of_ne_nil (phrases_ne_nil rest)
      rw [hphrases] at ih
      cases lexeme with
      | mark text =>
          -- the first character of the mark ends the run that `before` begins
          obtain ⟨c, tail, htext⟩ := List.exists_cons_of_ne_nil
            (fun h => hlexeme.1 (String.toList_eq_nil_iff.mp h) : text.toList ≠ [])
          have hchars : chars (mark text :: rest) = c :: (tail ++ chars rest) := by
            simp [chars, Lexeme.text, htext]
          have hnot : ∀ d ∈ c :: tail, Text.isWordChar d = false := htext ▸ hlexeme.2
          obtain ⟨hc, htail⟩ := List.forall_mem_cons.mp hnot
          rw [hchars, Text.runs_append_cons hc, Text.runs_append_of_not htail,
            Text.runs_of_all hbefore]
          have hrest := @ih [] (by simp) hrest
          rw [List.nil_append] at hrest
          rw [hrest, phrases, hphrases]
          simp [← List.filter_append]
      | word text =>
          -- the word goes on with that run
          have hchars : before ++ chars (word text :: rest) =
              (before ++ text.toList) ++ chars rest := by
            simp [chars, Lexeme.text]
          have hword : ∀ c ∈ before ++ text.toList, Text.isWordChar c = true := by
            intro c hc
            exact (List.mem_append.mp hc).elim (hbefore c) (hlexeme.2 c)
          rw [hchars, ih hword hrest, phrases, hphrases]
          simp [String.toList_join]

theorem runs_chars {lexemes : List Lexeme} (hproper : ∀ lexeme ∈ lexemes, lexeme.Proper) :
    Text.runs Text.isWordChar (chars lexemes) =
      ((phrases lexemes).map fun phrase => (String.join phrase).toList).filter (· ≠ []) := by
  obtain ⟨first, others, hphrases⟩ := List.exists_cons_of_ne_nil (phrases_ne_nil lexemes)
  have hruns := @runs_append_chars lexemes [] (by simp) hproper
  rw [hphrases] at hruns ⊢
  exact hruns

/-- The words of lexemes that are written one after the other are the phrases, each in one. -/
theorem mem_words_of_toList_eq_chars {lexemes : List Lexeme} {text name : String}
    (hproper : ∀ lexeme ∈ lexemes, lexeme.Proper) (htext : text.toList = chars lexemes) :
    name ∈ Text.words text ↔ name ≠ "" ∧ ∃ phrase ∈ phrases lexemes, String.join phrase = name := by
  rw [Text.words, htext, runs_chars hproper]
  simp only [List.mem_map, List.mem_filter, decide_eq_true_eq]
  constructor
  · intro h
    obtain ⟨_, ⟨⟨phrase, hphrase, rfl⟩, hne⟩, rfl⟩ := h
    rw [String.ofList_toList]
    exact ⟨fun hempty => hne (String.toList_eq_nil_iff.mpr hempty), phrase, hphrase, rfl⟩
  · intro h
    obtain ⟨hne, phrase, hphrase, rfl⟩ := h
    refine ⟨(String.join phrase).toList, ⟨⟨phrase, hphrase, rfl⟩, ?_⟩, String.ofList_toList⟩
    exact fun hempty => hne (String.toList_eq_nil_iff.mp hempty)

end Lexeme

end PastTime

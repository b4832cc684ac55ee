import PastTime.Proofs.Formula.Drawing
import PastTime.Proofs.Names.History
import PastTime.Proofs.Session.Shadowing

/-!
# Names are unique over whole sessions

The answers and the journal of a session tell its history: which names were issued and reserved, in
their order. Whatever is asked of a session, in whatever order, no name of the history is issued
after it was issued or reserved.
-/

namespace PastTime

/-- What is made of the result does not matter to the state. -/
theorem run_map_snd {ε σ α β : Type} (action : ExceptT ε (StateM σ) α) (finish : α → β)
    (source : σ) :
    ((do return finish (← action) : ExceptT ε (StateM σ) β).run source).2 =
      (action.run source).2 := by
  rcases hrun : action.run source with ⟨error | value, later⟩
  · rw [run_bind_of_error hrun]
  · rw [run_bind_of_ok hrun]
    rfl

/-! ## Accepted texts -/

namespace Formula

/-- Whether a text is read as a formula. -/
def accepts (text : String) : Bool := (parse text).isOk

variable {text : String}

theorem takeWhile_accepts_of_ok {formula : Formula} (h : parse text = .ok formula)
    (rest : List String) : (text :: rest).takeWhile accepts = text :: rest.takeWhile accepts :=
  List.takeWhile_cons_of_pos (by rw [accepts, h]; rfl)

theorem takeWhile_accepts_of_error {error : GrammarError} (h : parse text = .error error)
    (rest : List String) : (text :: rest).takeWhile accepts = [] :=
  List.takeWhile_cons_of_neg (by rw [accepts, h]; exact Bool.false_ne_true)

end Formula

/-! ## What entries tell -/

namespace Entry

/-- What an entry tells about names. The identifiers of a parsed text were reserved before the
auxiliaries of its predicate were issued. -/
def events : Entry → List NameEvent
  | parsed text predicate =>
    (Text.identifiers text).map .reserved ++ predicate.auxiliaries.map (.issued ·.name)
  | naming _ | rejected .. | compiled _ => []

/-- The name that the entry reports as issued, if it does. -/
def issued? : Entry → Option String
  | naming note => note.issued?
  | rejected .. | parsed .. | compiled _ => none

/-- The text that was parsed, if one was. -/
def parsedText? : Entry → Option String
  | parsed text _ => some text
  | naming _ | rejected .. | compiled _ => none

@[simp] theorem filterMap_issued?_naming (notes : List NameNote) :
    (notes.map naming).filterMap issued? = notes.filterMap NameNote.issued? :=
  List.filterMap_map ..

@[simp] theorem filterMap_parsedText?_naming (notes : List NameNote) :
    (notes.map naming).filterMap parsedText? = [] := by
  simp [List.filterMap_eq_nil_iff, parsedText?]

@[simp] theorem flatMap_events_naming (notes : List NameNote) :
    (notes.map naming).flatMap events = [] := by
  simp [List.flatMap_eq_nil_iff, events]

end Entry

namespace Journal

variable {σ : Type} [ReportingSource σ]

/-- Between two journals the entries were added while the events happened. The entries report what
the events issue, and that the texts were parsed. -/
structure Tells (events : List NameEvent) (texts : List String) (entries : List Entry)
    (journal later : Journal σ) : Prop where
  added : later.entries = journal.entries ++ entries
  happens : Happens events journal.names later.names
  issued : entries.filterMap Entry.issued? = events.filterMap NameEvent.issued?
  parsed : entries.filterMap Entry.parsedText? = texts

namespace Tells

variable {events moreEvents : List NameEvent} {texts moreTexts : List String}
  {entries moreEntries : List Entry} {journal middle later : Journal σ}

theorem refl (journal : Journal σ) : Tells [] [] [] journal journal where
  added := (List.append_nil _).symm
  happens := .nil _
  issued := rfl
  parsed := rfl

theorem append (h : Tells events texts entries journal middle)
    (hmore : Tells moreEvents moreTexts moreEntries middle later) :
    Tells (events ++ moreEvents) (texts ++ moreTexts) (entries ++ moreEntries) journal later where
  added := by rw [hmore.added, h.added, List.append_assoc]
  happens := h.happens.append hmore.happens
  issued := by rw [List.filterMap_append, List.filterMap_append, h.issued, hmore.issued]
  parsed := by rw [List.filterMap_append, h.parsed, hmore.parsed]

/-- Entries that report no issued name can be written down at the end. -/
theorem record (h : Tells events texts entries journal later)
    (hmore : moreEntries.filterMap Entry.issued? = []) :
    Tells events (texts ++ moreEntries.filterMap Entry.parsedText?) (entries ++ moreEntries) journal
      (later.record moreEntries) where
  added := by rw [Journal.record, h.added, List.append_assoc]
  happens := h.happens
  issued := by rw [List.filterMap_append, h.issued, hmore, List.append_nil]
  parsed := by rw [List.filterMap_append, h.parsed]

variable [TruthfulSource σ]

theorem of_fresh {tag name : String} (h : NameSource.fresh tag journal = (name, later)) :
    Tells [.issued name] [] ((ReportingSource.notes tag journal.names).map .naming)
      journal later := by
  cases h
  refine ⟨rfl, .issued rfl (.nil _), ?_, Entry.filterMap_parsedText?_naming _⟩
  rw [Entry.filterMap_issued?_naming, TruthfulSource.issued_notes]
  rfl

theorem of_issued {auxiliaries : List Auxiliary} (h : Issued auxiliaries journal later) :
    ∃ notes : List NameNote,
      Tells (auxiliaries.map (.issued ·.name)) [] (notes.map .naming) journal later := by
  induction h with
  | nil => exact ⟨[], refl _⟩
  | cons hfresh _ ih =>
      obtain ⟨notes, hnotes⟩ := ih
      have happended := (of_fresh hfresh).append hnotes
      rw [← List.map_append] at happended
      exact ⟨_, happended⟩

theorem of_draws (h : Draws journal later) :
    ∃ (names : List String) (notes : List NameNote),
      Tells (names.map .issued) [] (notes.map .naming) journal later := by
  induction h with
  | refl => exact ⟨[], [], refl _⟩
  | @tail middle _ _ hstep ih =>
      obtain ⟨names, notes, hnotes⟩ := ih
      obtain ⟨tag, rfl⟩ := hstep
      have happended := hnotes.append (of_fresh (rfl : NameSource.fresh tag middle = _))
      rw [← List.map_append, ← List.map_singleton, ← List.map_append] at happended
      exact ⟨_, _, happended⟩

end Tells

/-! ## Texts -/

theorem entries_reserveAll (names : List String) (journal : Journal σ) :
    (NameSource.reserveAll names journal).entries = journal.entries := by
  induction names generalizing journal with
  | nil => rfl
  | cons name rest ih => exact ih _

theorem Tells.of_reserveAll (names : List String) (journal : Journal σ) :
    Tells (names.map .reserved) [] [] journal (NameSource.reserveAll names journal) where
  added := by rw [entries_reserveAll, List.append_nil]
  happens := by
    rw [names_reserveAll]
    exact .of_reserveAll names journal.names
  issued := (NameEvent.filterMap_reserved names).symm
  parsed := rfl

/-- The entries of a computation tell by themselves what it does to names, and that it parses the
texts. -/
def Reports {α : Type} (texts : List String) (action : Serve (Journal σ) α) : Prop :=
  ∀ journal, ∃ entries,
    Tells (entries.flatMap Entry.events) texts entries journal (action.run journal).2

theorem Reports.map {α β : Type} {texts : List String} {action : Serve (Journal σ) α}
    (h : Reports texts action) (finish : α → β) :
    Reports texts (do return finish (← action)) := by
  intro journal
  rw [run_map_snd]
  exact h journal

/-- All that a computation does to names is to issue them, and its entries name them. -/
def Issues {α : Type} (action : Serve (Journal σ) α) : Prop :=
  ∀ journal, ∃ (names : List String) (entries : List Entry),
    Tells (names.map .issued) [] entries journal (action.run journal).2

theorem Issues.map {α β : Type} {action : Serve (Journal σ) α} (h : Issues action)
    (finish : α → β) : Issues (do return finish (← action)) := by
  intro journal
  rw [run_map_snd]
  exact h journal

/-- To write down that a text was rejected makes no difference. -/
theorem Issues.recording {α : Type} {action : Serve (Journal σ) α} (h : Issues action)
    (text : String) : Issues (recording text action fun _ => []) := by
  intro journal
  obtain ⟨names, entries, htells⟩ := h journal
  rcases hrun : action.run journal with ⟨(error | error) | value, later⟩ <;> rw [hrun] at htells
  · have hnone : [Entry.rejected text error].filterMap Entry.issued? = [] := rfl
    rw [run_recording_of_error hrun]
    exact ⟨names, _, htells.record hnone⟩
  · refine ⟨names, entries, ?_⟩
    change Tells _ _ _ _ (Journal.recording text action _ journal).2
    rw [Journal.recording, hrun]
    exact htells
  · have hnone : ([] : List Entry).filterMap Entry.issued? = [] := rfl
    rw [run_recording_of_ok hrun]
    exact ⟨names, _, htells.record hnone⟩

variable [TruthfulSource σ]

theorem Issues.of_onlyDraws {α : Type} {action : Serve (Journal σ) α} (h : OnlyDraws action) :
    Issues action := by
  intro journal
  obtain ⟨names, notes, htells⟩ := Tells.of_draws (h journal)
  exact ⟨names, notes.map .naming, htells⟩

section

variable {α : Type} {text : String} {action : Serve (Journal σ) α} {finish : Predicate → α}
  {report : α → List Entry}

/-- The predicate of a text is built, something is made of it, and it is written down that the text
was parsed. -/
theorem reports_recording
    (hok : ∀ {journal later : Journal σ} {predicate},
      (PastTime.parsePredicate text).run journal = (.ok predicate, later) →
        action.run journal = (.ok (finish predicate), later))
    (herror : ∀ {journal later : Journal σ} {error},
      (PastTime.parsePredicate text).run journal = (.error error, later) →
        action.run journal = (.error error, later))
    (hreport : ∀ predicate, ∃ more, report (finish predicate) = .parsed text predicate :: more ∧
      more.flatMap Entry.events = [] ∧ more.filterMap Entry.issued? = [] ∧
      more.filterMap Entry.parsedText? = []) :
    Reports ([text].takeWhile Formula.accepts) (recording text action report) := by
  intro journal
  cases hparse : Formula.parse text with
  | error error =>
      have hnone : [Entry.rejected text error].filterMap Entry.issued? = [] := rfl
      rw [run_recording_of_error (herror (run_parsePredicate_of_error hparse journal)),
        Formula.takeWhile_accepts_of_error hparse]
      exact ⟨[.rejected text error], (Tells.refl journal).record hnone⟩
  | ok formula =>
      obtain ⟨predicate, later, hrun, -, hissued⟩ := run_parsePredicate hparse journal
      obtain ⟨notes, hnotes⟩ := Tells.of_issued hissued
      obtain ⟨more, hmore, hevents, hnames, hparsed⟩ := hreport predicate
      have hnone : (Entry.parsed text predicate :: more).filterMap Entry.issued? = [] := hnames
      -- the entry comes last, but it tells of the identifiers first, which were reserved first
      have htells := ((Tells.of_reserveAll (Text.identifiers text) journal).append hnotes).record
        hnone
      rw [run_recording_of_ok (hok hrun), hmore, Formula.takeWhile_accepts_of_ok hparse]
      refine ⟨notes.map .naming ++ .parsed text predicate :: more, ?_⟩
      rw [List.flatMap_append, Entry.flatMap_events_naming, List.flatMap_cons, hevents]
      simpa [Entry.events, Entry.parsedText?, hparsed] using htells

end

theorem reports_parsePredicate (text : String) :
    Reports ([text].takeWhile Formula.accepts)
      (parsePredicate text : Serve (Journal σ) Predicate) :=
  @reports_recording _ _ _ _ text _ id _ (fun h => h) (fun h => h)
    fun _ => ⟨[], rfl, rfl, rfl, rfl⟩

theorem reports_compile (text : String) :
    Reports ([text].takeWhile Formula.accepts) (compile text : Serve (Journal σ) Compilation) :=
  @reports_recording _ _ _ _ text _ (⟨text, ·⟩) _ (fun h => run_bind_of_ok h _)
    (fun h => run_bind_of_error h _) fun _ => ⟨[.compiled _], rfl, rfl, rfl, rfl⟩

theorem reports_compileAll (texts : List String) :
    Reports (texts.takeWhile Formula.accepts)
      (compileAll texts : Serve (Journal σ) (List Compilation)) := by
  induction texts with
  | nil => exact fun journal => ⟨[], .refl journal⟩
  | cons text rest ih =>
      intro journal
      obtain ⟨entries, htells⟩ := reports_compile text journal
      rw [compileAll, List.mapM_cons]
      cases hparse : Formula.parse text with
      | error error =>
          -- the batch ends here
          have hrun := run_bind_of_error (run_parsePredicate_of_error hparse journal)
            fun predicate => pure (Compilation.mk text predicate)
          have hcompile : (compile text).run journal = _ :=
            run_recording_of_error hrun text _
          rw [Formula.takeWhile_accepts_of_error hparse, hcompile] at htells
          rw [Formula.takeWhile_accepts_of_error hparse, run_bind_of_error hcompile]
          exact ⟨entries, htells⟩
      | ok formula =>
          obtain ⟨predicate, later, hrun, -⟩ := run_parsePredicate hparse journal
          have hrun := run_bind_of_ok hrun fun predicate => pure (Compilation.mk text predicate)
          have hcompile : (compile text).run journal = _ := run_recording_of_ok hrun text _
          obtain ⟨more, hmore⟩ := (ih.map (Compilation.mk text predicate :: ·)) _
          rw [Formula.takeWhile_accepts_of_ok hparse, hcompile] at htells
          rw [Formula.takeWhile_accepts_of_ok hparse, run_bind_of_ok hcompile]
          refine ⟨entries ++ more, ?_⟩
          rw [List.flatMap_append]
          exact htells.append hmore

end Journal

/-! ## Requests -/

/-- The texts of a request whose identifiers are reserved: those that are read as formulas, up to
the first that is not. -/
def Request.accepted : Request → List String
  | .compile text | .predicate text => [text].takeWhile Formula.accepts
  | .compileAll texts => texts.takeWhile Formula.accepts
  | _ => []

namespace Session

variable {σ : Type}

/-- What a request did to names. Entries tell it for the texts that were parsed. Of the other
requests, those for names are answered with what they issued, and the journal reports it for the
rest. -/
def events (request : Request) (outcome : Outcome σ) : List NameEvent :=
  match request, outcome.result with
  | .reserve name, _ => [.reserved name]
  | .fresh _, .ok (.name name) => [.issued name]
  | .freshMany .., .ok (.names names) => names.map .issued
  | .compile _, _ | .compileAll _, _ | .predicate _, _ => outcome.entries.flatMap Entry.events
  | _, _ => (outcome.entries.filterMap Entry.issued?).map .issued

variable [ReportingSource σ]

/-- What a request does to names is what its outcome tells, and its outcome tells which of its texts
were parsed. -/
structure Faithful (request : Request) (names : σ) : Prop where
  happens : Happens (events request (step request names)) names (step request names).names
  issued : (step request names).entries.filterMap Entry.issued? =
    (events request (step request names)).filterMap NameEvent.issued?
  parsed : (step request names).entries.filterMap Entry.parsedText? = request.accepted

section

variable {request : Request} {names : σ}

theorem faithful_of_tells {result : Except CompileError Answer} {later : Journal σ}
    {found : List NameEvent} {entries : List Entry}
    (hserve : (serve request).run { names } = (result, later))
    (h : Journal.Tells found request.accepted entries { names } later)
    (hevents : events request ⟨result, entries, later.names⟩ = found) : Faithful request names := by
  have hstep : step request names = ⟨result, entries, later.names⟩ := by
    rw [step_eq hserve, h.added]
    rfl
  refine ⟨?_, ?_, ?_⟩ <;> rw [hstep]
  · rw [hevents]
    exact h.happens
  · rw [hevents]
    exact h.issued
  · exact h.parsed

theorem faithful_of_reports
    (h : Journal.Reports request.accepted (serve request : Serve (Journal σ) Answer))
    (hevents : ∀ outcome : Outcome σ,
      events request outcome = outcome.entries.flatMap Entry.events) :
    Faithful request names := by
  obtain ⟨entries, htells⟩ := h { names }
  exact faithful_of_tells rfl htells (hevents _)

theorem faithful_of_issues (h : Journal.Issues (serve request : Serve (Journal σ) Answer))
    (haccepted : request.accepted = [])
    (hevents : ∀ outcome : Outcome σ,
      events request outcome = (outcome.entries.filterMap Entry.issued?).map .issued) :
    Faithful request names := by
  obtain ⟨found, entries, htells⟩ := h { names }
  refine faithful_of_tells rfl (haccepted ▸ htells) ?_
  rw [hevents, htells.issued, NameEvent.filterMap_issued]

end

variable [TruthfulSource σ]

theorem tells_freshMany (tag : String) (count : Nat) (journal : Journal σ) :
    ∃ entries, Journal.Tells ((freshMany tag count journal).1.map .issued) [] entries journal
      (freshMany tag count journal).2 := by
  induction count generalizing journal with
  | zero => exact ⟨[], .refl journal⟩
  | succ count ih =>
      obtain ⟨entries, hentries⟩ := ih (NameSource.fresh tag journal).2
      exact ⟨_, (Journal.Tells.of_fresh (rfl : NameSource.fresh tag journal = _)).append hentries⟩

theorem faithful (request : Request) (names : σ) : Faithful request names := by
  cases request with
  | compile text => exact faithful_of_reports ((Journal.reports_compile text).map _) fun _ => rfl
  | compileAll texts =>
      exact faithful_of_reports ((Journal.reports_compileAll texts).map _) fun _ => rfl
  | predicate text =>
      exact faithful_of_reports ((Journal.reports_parsePredicate text).map _) fun _ => rfl
  | lowerText text =>
      have hdraws : OnlyDraws (do Serve.build (← Serve.parse text).lower :
          Serve (Journal σ) Value) :=
        (OnlyDraws.ofExcept _).bind fun formula => (OnlyDraws.lower formula).serve
      exact faithful_of_issues (((Journal.Issues.of_onlyDraws hdraws).recording text).map _) rfl
        fun _ => rfl
  | lower formula =>
      exact faithful_of_issues ((Journal.Issues.of_onlyDraws (OnlyDraws.lower formula).serve).map _)
        rfl fun _ => rfl
  | normalize sketch =>
      have hdraws : OnlyDraws (do
          let value ← sketch.build
          return Answer.predicate (← Build.normalize value) : Build (Journal σ) Answer) :=
        (OnlyDraws.build sketch).bind fun _ => (OnlyDraws.normalize _).bind fun _ => .pure _
      exact faithful_of_issues (.of_onlyDraws hdraws.serve) rfl fun _ => rfl
  | term sketch =>
      have hdraws : OnlyDraws (do
          let value ← sketch.build
          return Answer.term (← ofExcept (value.toTerm.mapError .invalidTerm)) :
            Build (Journal σ) Answer) :=
        (OnlyDraws.build sketch).bind fun _ => (OnlyDraws.ofExcept _).bind fun _ => .pure _
      exact faithful_of_issues (.of_onlyDraws hdraws.serve) rfl fun _ => rfl
  | fresh tag =>
      exact faithful_of_tells rfl (.of_fresh (rfl : NameSource.fresh tag _ = _)) rfl
  | freshMany tag count =>
      obtain ⟨entries, hentries⟩ := tells_freshMany tag count ({ names } : Journal σ)
      exact faithful_of_tells rfl hentries rfl
  | reserve name =>
      have htells : Journal.Tells [.reserved name] [] [] ({ names } : Journal σ)
          (NameSource.reserve name { names }) := .of_reserveAll [name] { names }
      exact faithful_of_tells rfl htells rfl

/-! ## Runs -/

/-- All that a run did to names, in order. -/
def history (requests : List Request) (names : σ) : List NameEvent :=
  (List.zipWith events requests (run requests names)).flatten

/-- The names that were reported as issued in a run. -/
def issuedNames (outcomes : List (Outcome σ)) : List String :=
  outcomes.flatMap (·.entries.filterMap Entry.issued?)

/-- The texts that were reported as parsed in a run. -/
def parsedTexts (outcomes : List (Outcome σ)) : List String :=
  outcomes.flatMap (·.entries.filterMap Entry.parsedText?)

theorem exists_happens_history (requests : List Request) (names : σ) :
    ∃ later, Happens (history requests names) names later := by
  induction requests generalizing names with
  | nil => exact ⟨names, .nil names⟩
  | cons request rest ih =>
      obtain ⟨later, hrest⟩ := ih (step request names).names
      exact ⟨later, (faithful request names).happens.append hrest⟩

theorem issuedNames_run (requests : List Request) (names : σ) :
    issuedNames (run requests names) =
      (history requests names).filterMap NameEvent.issued? := by
  induction requests generalizing names with
  | nil => rfl
  | cons request rest ih =>
      have hrest := ih (step request names).names
      rw [history] at hrest ⊢
      rw [run, List.zipWith_cons_cons, List.flatten_cons, List.filterMap_append, ← hrest,
        ← (faithful request names).issued]
      rfl

theorem parsedTexts_run (requests : List Request) (names : σ) :
    parsedTexts (run requests names) = requests.flatMap Request.accepted := by
  induction requests generalizing names with
  | nil => rfl
  | cons request rest ih =>
      rw [List.flatMap_cons, ← (faithful request names).parsed, ← ih (step request names).names]
      rfl

/-- Names are unique over every session, whatever is asked and from whatever names. No name is
issued twice, and no event of the history issues the name of an earlier event. The history leaves
nothing out: the names that it issues are those that were reported, in their order, and the texts
whose identifiers it reserves are those that the requests have accepted. -/
theorem names_unique (requests : List Request) (names : Names) :
    (issuedNames (run requests names)).Nodup ∧
      (history requests names).Pairwise (fun earlier later => later ≠ .issued earlier.name) ∧
      (history requests names).filterMap NameEvent.issued? = issuedNames (run requests names) ∧
      parsedTexts (run requests names) = requests.flatMap Request.accepted := by
  obtain ⟨later, hhistory⟩ := exists_happens_history requests names
  have hissued := issuedNames_run requests names
  refine ⟨?_, hhistory.pairwise, hissued.symm, parsedTexts_run requests names⟩
  rw [hissued]
  exact hhistory.nodup

end Session

end PastTime

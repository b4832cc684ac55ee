import PastTime.Proofs.Formula.Variables
import PastTime.Session

/-!
# Which variables an auxiliary can shadow

A session compiles texts one after the other from one source of names. The identifiers of a text
are reserved before its auxiliaries are issued, and stay reserved, so no auxiliary has the name of
an identifier of this text or of an earlier one. A variable of a predicate is not always an
identifier of its text, though: words that only blanks separate run together in a term, and what
they give is not reserved. Such a variable can be shadowed, and only such a variable.
-/

namespace PastTime

/-! ## Journals -/

variable {σ : Type}

section

variable {α : Type} {action : Serve (Journal σ) α} {journal later : Journal σ}

theorem Journal.run_recording_of_ok {value : α} (h : action.run journal = (.ok value, later))
    (text : String) (events : α → List Entry) :
    (recording text action events).run journal = (.ok value, later.record (events value)) := by
  change recording text action events journal = _
  rw [recording, h]

theorem Journal.run_recording_of_error {error : GrammarError}
    (h : action.run journal = (.error (.grammar error), later)) (text : String)
    (events : α → List Entry) :
    (recording text action events).run journal =
      (.error (.grammar error), later.record [.rejected text error]) := by
  change recording text action events journal = _
  rw [recording, h]

end

variable [ReportingSource σ]

theorem Journal.fresh_names {tag name : String} {journal next : Journal σ}
    (h : NameSource.fresh tag journal = (name, next)) :
    NameSource.fresh tag journal.names = (name, next.names) := by
  cases h
  rfl

theorem Journal.names_reserveAll (names : List String) (journal : Journal σ) :
    (NameSource.reserveAll names journal).names = NameSource.reserveAll names journal.names := by
  induction names generalizing journal with
  | nil => rfl
  | cons name rest ih => exact ih _

/-- What a journal issues is issued by its source of names. -/
theorem Issued.of_journal {auxiliaries : List Auxiliary} {journal later : Journal σ}
    (h : Issued auxiliaries journal later) : Issued auxiliaries journal.names later.names := by
  induction h with
  | nil => exact .nil _
  | cons hfresh _ ih => exact .cons (Journal.fresh_names hfresh) ih

/-! ## One compilation -/

namespace Session

theorem step_eq {request : Request} {names : σ} {result : Except CompileError Answer}
    {journal : Journal σ} (h : (serve request).run { names } = (result, journal)) :
    step request names = ⟨result, journal.entries, journal.names⟩ := by
  rw [step, h]

theorem step_compile_of_ok {text : String} {formula : Formula}
    (h : Formula.parse text = .ok formula) (names : σ) :
    ∃ predicate, (step (.compile text) names).result = .ok (.compilation ⟨text, predicate⟩) ∧
      Compiles formula predicate ∧
      Issued predicate.auxiliaries (NameSource.reserveAll (Text.identifiers text) names)
        (step (.compile text) names).names := by
  obtain ⟨predicate, later, hrun, hcompiles, hissued⟩ :=
    run_parsePredicate h ({ names } : Journal σ)
  have hcompile : (compile text).run ({ names } : Journal σ) = (.ok ⟨text, predicate⟩, later) :=
    run_bind_of_ok hrun _
  have hrecorded := Journal.run_recording_of_ok hcompile text
    fun compilation => [.parsed text compilation.predicate, .compiled compilation]
  have hserve : (serve (.compile text)).run { names } =
      (.ok (.compilation ⟨text, predicate⟩), later.record _) :=
    run_bind_of_ok hrecorded _
  refine ⟨predicate, ?_, hcompiles, ?_⟩
  · rw [step_eq hserve]
  · rw [step_eq hserve]
    have hnames := hissued.of_journal
    rw [Journal.names_reserveAll] at hnames
    exact hnames

theorem step_compile_of_error {text : String} {error : GrammarError}
    (h : Formula.parse text = .error error) (names : σ) :
    (step (.compile text) names).result = .error (.grammar error) ∧
      (step (.compile text) names).names = names := by
  have hrun := run_parsePredicate_of_error h ({ names } : Journal σ)
  have hcompile : (compile text).run ({ names } : Journal σ) =
      (.error (.grammar error), { names }) :=
    run_bind_of_error hrun _
  have hrecorded := Journal.run_recording_of_error hcompile text
    fun compilation => [.parsed text compilation.predicate, .compiled compilation]
  have hserve : (serve (.compile text)).run { names } =
      (.error (.grammar error), ({ names } : Journal σ).record _) :=
    run_bind_of_error hrecorded _
  rw [step_eq hserve]
  exact ⟨rfl, rfl⟩

/-! ## Runs -/

/-- The compilation that a request was answered with. -/
def Outcome.compilation? (outcome : Outcome σ) : Option Compilation :=
  match outcome.result with
  | .ok (.compilation compilation) => some compilation
  | _ => none

/-- The successful compilations of texts, one after the other. -/
def compiled (texts : List String) (names : σ) : List Compilation :=
  (run (texts.map .compile) names).filterMap Outcome.compilation?

/-- What the first text adds to a run: nothing if it is rejected, and otherwise a compilation whose
auxiliaries are issued after its identifiers were reserved. -/
theorem compiled_cons (text : String) (rest : List String) (names : σ) :
    compiled (text :: rest) names = compiled rest names ∨
      ∃ formula predicate later, Formula.parse text = .ok formula ∧ Compiles formula predicate ∧
        Issued predicate.auxiliaries (NameSource.reserveAll (Text.identifiers text) names) later ∧
        compiled (text :: rest) names = ⟨text, predicate⟩ :: compiled rest later := by
  cases hparse : Formula.parse text with
  | error error =>
      obtain ⟨hresult, hnames⟩ := step_compile_of_error hparse names
      left
      rw [compiled, List.map_cons, run, List.filterMap_cons, Outcome.compilation?, hresult, hnames]
      rfl
  | ok formula =>
      obtain ⟨predicate, hresult, hcompiles, hissued⟩ := step_compile_of_ok hparse names
      right
      refine ⟨formula, predicate, _, rfl, hcompiles, hissued, ?_⟩
      rw [compiled, List.map_cons, run, List.filterMap_cons, Outcome.compilation?, hresult]
      rfl

variable [LawfulSource σ] {texts : List String} {names : σ} {compilation later : Compilation}
  {auxiliary : Auxiliary}

/-- Every compilation of a run issues its auxiliaries after its identifiers were reserved, from a
source that bars whatever was barred when the run started. -/
theorem issued_of_mem_compiled (h : compilation ∈ compiled texts names) :
    ∃ (formula : Formula) (before after : σ), Formula.parse compilation.source = .ok formula ∧
      Compiles formula compilation.predicate ∧
      Issued compilation.auxiliaries
        (NameSource.reserveAll (Text.identifiers compilation.source) before) after ∧
      ∀ name, Barred names name → Barred before name := by
  induction texts generalizing names with
  | nil => simp [compiled, run] at h
  | cons text rest ih =>
      rcases compiled_cons text rest names with heq | ⟨formula, predicate, next, hparse, hcompiles,
        hissued, heq⟩
      · exact ih (heq ▸ h)
      · rcases List.mem_cons.mp (heq ▸ h) with rfl | h
        · exact ⟨formula, names, next, hparse, hcompiles, hissued, fun _ hname => hname⟩
        · obtain ⟨formula, before, after, hparse, hcompiles, hrest, hbarred⟩ := ih h
          refine ⟨formula, before, after, hparse, hcompiles, hrest, fun name hname => ?_⟩
          exact hbarred name (hissued.barred_of_barred (barred_reserveAll (.inr hname)))

/-- No auxiliary has the name of an identifier of its own text, or of an earlier one. -/
theorem not_mem_identifiers_of_le {i j : Nat} (hle : i ≤ j)
    (hcompilation : (compiled texts names)[i]? = some compilation)
    (hlater : (compiled texts names)[j]? = some later)
    (hauxiliary : auxiliary ∈ later.auxiliaries) :
    auxiliary.name ∉ Text.identifiers compilation.source := by
  induction texts generalizing names i j with
  | nil => simp [compiled, run] at hlater
  | cons text rest ih =>
      rcases compiled_cons text rest names with heq | ⟨formula, predicate, next, -, -, hissued, heq⟩
      · exact ih hle (heq ▸ hcompilation) (heq ▸ hlater)
      · rw [heq] at hcompilation hlater
        cases i with
        | succ i =>
            obtain ⟨j, rfl⟩ := Nat.exists_eq_add_of_le' (Nat.le_trans (Nat.succ_pos i) hle)
            exact ih (Nat.le_of_succ_le_succ hle) hcompilation hlater
        | zero =>
            -- the identifiers of the first text are barred before anything is issued
            cases hcompilation
            intro hmem
            have hreserved : Barred (NameSource.reserveAll (Text.identifiers text) names)
                auxiliary.name := barred_reserveAll (.inl hmem)
            cases j with
            | zero =>
                cases hlater
                exact hissued.not_barred hauxiliary hreserved
            | succ j =>
                rw [List.getElem?_cons_succ] at hlater
                obtain ⟨-, before, after, -, -, hlaterIssued, hbarred⟩ :=
                  issued_of_mem_compiled (List.mem_of_getElem? hlater)
                refine hlaterIssued.not_barred hauxiliary (barred_reserveAll (.inr ?_))
                exact hbarred _ (hissued.barred_of_barred hreserved)

end Session

/-- Which variables auxiliaries shadow in a session that compiles texts. An auxiliary never has the
name of an identifier of its own text, or of one compiled earlier. It has the name of a variable
there exactly if neighbouring words of that text, written in one, give this name. -/
theorem Session.auxiliary_mem_freeVariables_iff (texts : List String) (names : Names) {i j : Nat}
    (hle : i ≤ j) {compilation later : Compilation}
    (hcompilation : (compiled texts names)[i]? = some compilation)
    (hlater : (compiled texts names)[j]? = some later) {auxiliary : Auxiliary}
    (hauxiliary : auxiliary ∈ later.auxiliaries) :
    auxiliary.name ∉ Text.identifiers compilation.source ∧
      (auxiliary.name ∈ compilation.freeVariables ↔
        ∃ phrase ∈ Lexeme.phrases (Lexeme.lexemes compilation.source),
          2 ≤ phrase.length ∧ String.join phrase = auxiliary.name) := by
  have hnot := not_mem_identifiers_of_le hle hcompilation hlater hauxiliary
  obtain ⟨formula, _, _, hparse, hcompiles, -, -⟩ :=
    issued_of_mem_compiled (List.mem_of_getElem? hcompilation)
  obtain ⟨_, _, _, -, -, hissued, -⟩ := issued_of_mem_compiled (List.mem_of_getElem? hlater)
  obtain ⟨stem, ending, hname⟩ := hissued.eq_joinName hauxiliary
  have hidentifier : Text.isIdentifier auxiliary.name = true := by
    rw [hname]
    exact isIdentifier_joinName stem ending auxiliary.kind
  exact ⟨hnot, hcompiles.mem_freeVariables_iff_mem_phrases hparse hidentifier hnot⟩

set_option maxRecDepth 20000 in
theorem Session.auxiliary_mem_freeVariables_iff_batch :
    let texts := ["T_previ ously_0 < x", "previously(y", "previously(z)"]
    ∃ compilation later auxiliary,
      (compiled texts (Names.sequential (.new "T")))[0]? = some compilation ∧
      (compiled texts (Names.sequential (.new "T")))[1]? = some later ∧
      auxiliary ∈ later.auxiliaries ∧ auxiliary.name ∉ Text.identifiers compilation.source ∧
      auxiliary.name ∈ compilation.freeVariables := by
  intro texts
  have hcompiled : compiled texts (Names.sequential (.new "T")) =
      [⟨"T_previ ously_0 < x", .term ⟨"T_previously_0<x"⟩⟩,
        ⟨"previously(z)", .previously (.term ⟨"z"⟩) "T_previously_0"⟩] := by
    decide +kernel
  have hphrases : Lexeme.phrases (Lexeme.lexemes "T_previ ously_0 < x") =
      [["T_previ", "ously_0"], ["x"]] := by
    decide +kernel
  have hfirst := congrArg (·[0]?) hcompiled
  have hlast := congrArg (·[1]?) hcompiled
  obtain ⟨hnot, hiff⟩ := auxiliary_mem_freeVariables_iff texts (.sequential (.new "T"))
    (Nat.zero_le 1) hfirst hlast List.mem_cons_self
  refine ⟨_, _, ⟨"T_previously_0", .previously⟩, hfirst, hlast, List.mem_cons_self, hnot, ?_⟩
  refine hiff.mpr ⟨["T_previ", "ously_0"], ?_, by decide, rfl⟩
  rw [hphrases]
  exact List.mem_cons_self

set_option maxRecDepth 20000 in
/-- One text is enough: here the auxiliary has the name of the only variable. -/
theorem Session.auxiliary_shadows_variable :
    ∃ compilation auxiliary,
      compiled ["previously(T_previously _0)"] (Names.sequential (.new "T")) = [compilation] ∧
      auxiliary ∈ compilation.auxiliaries ∧ auxiliary.name ∈ compilation.freeVariables := by
  have hidentifiers : Text.identifiers "T_previously_0" = ["T_previously_0"] := by decide +kernel
  refine ⟨⟨"previously(T_previously _0)", .previously (.term ⟨"T_previously_0"⟩) "T_previously_0"⟩,
    ⟨"T_previously_0", .previously⟩, by decide +kernel, List.mem_cons_self, ?_⟩
  change "T_previously_0" ∈ Text.freeVariables "T_previously_0"
  rw [Text.mem_freeVariables, hidentifiers]
  exact List.mem_cons_self

end PastTime

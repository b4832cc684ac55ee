import PastTime.Names
import PastTime.Proofs.Formula.Lowering

/-!
# Failed compilations

A text is compiled whenever it is read as a formula: once it is read, nothing that is built from it
can fail. So the only errors are those of the grammar, and they arise before the source of names is
touched. A batch that ends at a rejected text leaves the names of the texts before it.
-/

namespace PastTime

variable {σ : Type} [NameSource σ]

/-! ## One text -/

theorem run_compile_of_ok {text : String} {formula : Formula}
    (h : Formula.parse text = .ok formula) (names : σ) :
    ∃ predicate later, (parsePredicate text).run names = (.ok predicate, later) ∧
      (compile text).run names = (.ok ⟨text, predicate⟩, later) := by
  obtain ⟨predicate, later, hrun, -, -⟩ := run_parsePredicate h names
  exact ⟨predicate, later, hrun, run_bind_of_ok hrun _⟩

theorem run_compile_of_error {text : String} {error : GrammarError}
    (h : Formula.parse text = .error error) (names : σ) :
    (compile text).run names = (.error (.grammar error), names) :=
  run_bind_of_error (run_parsePredicate_of_error h names) _

/-- Whatever error the work on a text ends in, the text was not read as a formula, this is the
error, and the names are as before. -/
def FailsByGrammar {α : Type} (text : String) (action : Serve σ α) (names : σ) : Prop :=
  ∀ error later, action.run names = (.error error, later) →
    (∃ found, Formula.parse text = .error found ∧ error = .grammar found) ∧ later = names

theorem failsByGrammar_parsePredicate (text : String) (names : σ) :
    FailsByGrammar text (parsePredicate text) names := by
  intro error later hrun
  cases hparse : Formula.parse text with
  | ok formula =>
      obtain ⟨predicate, _, hok, -⟩ := run_compile_of_ok hparse names
      rw [hok] at hrun
      cases hrun
  | error found =>
      rw [run_parsePredicate_of_error hparse names] at hrun
      cases hrun
      exact ⟨⟨found, rfl, rfl⟩, rfl⟩

/-- What is made of the predicate changes nothing about the errors. -/
theorem failsByGrammar_compile (text : String) (names : σ) :
    FailsByGrammar text (compile text) names := by
  intro error later hrun
  rcases hpredicate : (parsePredicate text).run names with ⟨found | predicate, next⟩
  · have hcompile : (compile text).run names = (.error found, next) :=
      run_bind_of_error hpredicate _
    rw [hcompile] at hrun
    cases hrun
    exact failsByGrammar_parsePredicate text names _ _ hpredicate
  · have hcompile : (compile text).run names = (.ok ⟨text, predicate⟩, next) :=
      run_bind_of_ok hpredicate _
    rw [hcompile] at hrun
    cases hrun

/-! ## Batches -/

/-- The names that are left when the texts are compiled one after the other. -/
def namesAfter (texts : List String) (names : σ) : σ :=
  texts.foldl (fun names text => ((compile text).run names).2) names

theorem run_compileAll_of_ok {texts : List String}
    (h : ∀ text ∈ texts, ∃ formula, Formula.parse text = .ok formula) (names : σ) :
    ∃ compilations, compilations.map (·.source) = texts ∧
      (compileAll texts).run names = (.ok compilations, namesAfter texts names) := by
  induction texts generalizing names with
  | nil => exact ⟨[], rfl, rfl⟩
  | cons text rest ih =>
      obtain ⟨⟨formula, hparse⟩, hrest⟩ := List.forall_mem_cons.mp h
      obtain ⟨predicate, next, -, hcompile⟩ := run_compile_of_ok hparse names
      obtain ⟨compilations, rfl, hcompilations⟩ := ih hrest next
      refine ⟨⟨text, predicate⟩ :: compilations, rfl, ?_⟩
      rw [compileAll, List.mapM_cons, namesAfter, List.foldl_cons, hcompile]
      apply (run_bind_of_ok hcompile _).trans
      exact run_bind_of_ok hcompilations _

theorem run_compileAll_of_error {before : List String} {text : String} {error : GrammarError}
    (hbefore : ∀ earlier ∈ before, ∃ formula, Formula.parse earlier = .ok formula)
    (h : Formula.parse text = .error error) (after : List String) (names : σ) :
    (compileAll (before ++ text :: after)).run names =
      (.error (.grammar error), namesAfter before names) := by
  induction before generalizing names with
  | nil =>
      rw [compileAll, List.nil_append, List.mapM_cons]
      exact run_bind_of_error (run_compile_of_error h names) _
  | cons earlier rest ih =>
      obtain ⟨⟨formula, hparse⟩, hrest⟩ := List.forall_mem_cons.mp hbefore
      obtain ⟨predicate, next, -, hcompile⟩ := run_compile_of_ok hparse names
      rw [compileAll, List.cons_append, List.mapM_cons, namesAfter, List.foldl_cons, hcompile]
      apply (run_bind_of_ok hcompile _).trans
      exact run_bind_of_error (ih hrest next) _

/-- Compilation is all or nothing. A text that is read as a formula is compiled. Every error is one
of the grammar, and leaves the names as they were. A batch in which the text at index `k` is the
first that is rejected ends in the error of this text, and leaves the names as the compilations of
the `k` texts before it leave them. -/
theorem compile_atomic (names : σ) :
    (∀ text formula, Formula.parse text = .ok formula →
      ∃ predicate later, (parsePredicate text).run names = (.ok predicate, later) ∧
        (compile text).run names = (.ok ⟨text, predicate⟩, later)) ∧
    (∀ text, FailsByGrammar text (parsePredicate text) names ∧
      FailsByGrammar text (compile text) names) ∧
    ∀ (texts : List String) (k : Nat) text error, texts[k]? = some text →
      Formula.parse text = .error error →
      (∀ earlier ∈ texts.take k, ∃ formula, Formula.parse earlier = .ok formula) →
      (∃ compilations, compilations.map (·.source) = texts.take k ∧
        (compileAll (texts.take k)).run names =
          (.ok compilations, namesAfter (texts.take k) names)) ∧
      (compileAll texts).run names =
        (.error (.grammar error), namesAfter (texts.take k) names) := by
  refine ⟨fun text formula h => run_compile_of_ok h names, fun text =>
    ⟨failsByGrammar_parsePredicate text names, failsByGrammar_compile text names⟩, ?_⟩
  intro texts k text error htext hparse hbefore
  refine ⟨run_compileAll_of_ok hbefore names, ?_⟩
  obtain ⟨hlt, rfl⟩ := List.getElem?_eq_some_iff.mp htext
  have hsplit : texts = texts.take k ++ texts[k] :: texts.drop (k + 1) := by simp
  have hrun := run_compileAll_of_error hbefore hparse (texts.drop (k + 1)) names
  rwa [← hsplit] at hrun

set_option maxRecDepth 20000 in
theorem compile_atomic_batch :
    let names := SequentialNames.new "AUX"
    (∃ predicate later, (compile "previously(a)").run names =
      (.ok ⟨"previously(a)", predicate⟩, later)) ∧
    ∃ error, (compile "a &&").run names = (.error (.grammar error), names) ∧
      FailsByGrammar "a &&" (compile "a &&") names ∧
      (compileAll ["previously(a)", "a &&", "since(a, b)"]).run names =
        (.error (.grammar error), namesAfter ["previously(a)"] names) ∧
      (namesAfter ["previously(a)"] names).next = 1 := by
  intro names
  have hfirst : Formula.parse "previously(a)" =
      .ok (.unary .previously (.terminal [.word "a"])) := by
    decide +kernel
  have hsecond : Formula.parse "a &&" = .error (.mismatch ⟨4, ""⟩) := by decide +kernel
  have hnext : (namesAfter ["previously(a)"] names).next = 1 := by decide +kernel
  obtain ⟨haccepted, hfails, hbatch⟩ := compile_atomic names
  obtain ⟨predicate, later, -, hcompile⟩ := haccepted _ _ hfirst
  have hbefore : ∀ earlier ∈ ["previously(a)"], ∃ formula, Formula.parse earlier = .ok formula := by
    intro earlier hearlier
    rw [List.mem_singleton.mp hearlier]
    exact ⟨_, hfirst⟩
  obtain ⟨-, hall⟩ := hbatch ["previously(a)", "a &&", "since(a, b)"] 1 "a &&" _ rfl hsecond hbefore
  exact ⟨⟨predicate, later, hcompile⟩, _, run_compile_of_error hsecond names, (hfails _).2, hall,
    hnext⟩

end PastTime

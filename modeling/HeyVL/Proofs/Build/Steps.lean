import HeyVL.Build.Run
import HeyVL.Proofs.Bytes.Characters
import HeyVL.Proofs.Grammar.Generating
import Mathlib.Data.List.TakeWhile

/-!
The steps of a build. A step fails for a reason of its own or leaves its file, and a build is the run of
its steps up to the first that fails. Main statement: the result of a build is that of the first failing
step, and exactly the files of the steps before it are there afterwards.
-/

namespace HeyVL

namespace Build

/-- The parts of a build that can fail or leave a file, of which those before the last one make the
parser. -/
inductive Step
  | findOutDir
  | readGrammar
  | generate
  | checkName
  | makeHeaderDirectory
  | writeHeader
  | writeParser
  | compile
deriving DecidableEq, Repr

/-- The compiler can put the library into the output directory. -/
def OutDir.isUsable : OutDir → Bool
  | unset | file => false
  | directory | missing | headerFile | parserDirectory => true

namespace Site

def grammarText? (site : Site) : Option String := site.grammar.bind Bytes.text?

/-- The name of the described grammar, if a parser can be generated from it. -/
def grammarName? (generator : String → Option String) (site : Site) : Option String :=
  site.grammarText?.bind generator

/-- The steps of a build in their order. A committed parser is only compiled. -/
def steps (site : Site) : List Step :=
  if site.committedParser then [.compile]
  else
    [.findOutDir, .readGrammar, .generate, .checkName, .makeHeaderDirectory, .writeHeader,
      .writeParser, .compile]

end Site

namespace Step

def artifact? : Step → Option Artifact
  | writeHeader => some .header
  | writeParser => some .parser
  | compile => some .library
  | findOutDir | readGrammar | generate | checkName | makeHeaderDirectory => none

/-- Why a step fails at a site, whatever becomes of the others. A step that has nothing to work on does
not fail, and neither does the compiler. -/
def failure? (generator : String → Option String) (site : Site) : Step → Option Failure
  | findOutDir => if site.outDir = .unset then some .outDirUnset else none
  | readGrammar =>
    match site.grammar with
    | none => some .grammarMissing
    | some bytes => if bytes.text? = none then some .grammarUndecodable else none
  | generate =>
    match site.grammarText? with
    | none => none
    | some text => if generator text = none then some .notGenerated else none
  | checkName =>
    match site.grammarName? generator with
    | none => none
    | some name => if name = Grammar.languageName then none else some (.wrongName name)
  | makeHeaderDirectory =>
    match site.outDir with
    | .file => some .outDirIsFile
    | .headerFile => some .headerDirIsFile
    | .directory | .missing | .unset | .parserDirectory => none
  | writeParser => if site.outDir = .parserDirectory then some .parserIsDirectory else none
  | writeHeader | compile => none

def task (generator : String → Option String) (site : Site) (s : Step) : Task Unit :=
  match s.failure? generator site, s.artifact? with
  | some f, _ => throw f
  | none, some a => Task.make a
  | none, none => pure ()

end Step

variable {generator : String → Option String} {site : Site}

theorem Task.pure_bind {α β : Type} (a : α) (k : α → Task β) : ((pure a : Task α) >>= k) = k a := rfl

theorem task_eq_forM (generator : String → Option String) (site : Site) :
    Build.task generator site = forM site.steps (Step.task generator site) := by
  obtain ⟨grammar, committed, outDir⟩ := site
  cases committed with
  | true => rfl
  | false =>
    -- What the description tells is read step by step, and the step that finds nothing fails.
    cases grammar with
    | none => cases outDir <;> rfl
    | some bytes =>
      rw [Build.task, generateParser, Site.steps]
      simp only [Bool.false_eq_true, if_false, List.forM_cons, Step.task, Step.failure?, Site.grammarName?,
        Site.grammarText?, Option.bind_some, Task.require, Task.pure_bind]
      cases bytes.text? with
      | none => cases outDir <;> rfl
      | some text =>
        simp only [Option.bind_some, Task.pure_bind]
        cases generator text with
        | none => cases outDir <;> rfl
        | some name =>
          simp only [Task.pure_bind]
          by_cases hname : name = Grammar.languageName
          · subst hname
            cases outDir <;> rfl
          · have hne : (name != Grammar.languageName) = true := by simpa using hname
            rw [hne, if_neg hname]
            cases outDir <;> rfl

def resultOf (generator : String → Option String) (site : Site) (steps : List Step) :
    Except Failure Unit :=
  match steps.findSome? (Step.failure? generator site) with
  | some f => .error f
  | none => .ok ()

/-- The steps before the first that fails. -/
def passed (generator : String → Option String) (site : Site) (steps : List Step) : List Step :=
  steps.takeWhile fun s => (s.failure? generator site).isNone

theorem run_forM (steps : List Step) (made : List Artifact) :
    (forM steps (Step.task generator site)).run.run made =
      (resultOf generator site steps,
        ((passed generator site steps).filterMap Step.artifact?).reverse ++ made) := by
  induction steps generalizing made with
  | nil => rfl
  | cons s steps ih =>
    rw [List.forM_cons, resultOf, passed, List.findSome?_cons, List.takeWhile_cons, Step.task]
    cases s.failure? generator site with
    | some f => rfl
    | none =>
      rw [Option.isNone_none, if_pos rfl, List.filterMap_cons]
      cases s.artifact? with
      | none => exact ih made
      | some a =>
        rw [List.reverse_cons, List.append_assoc, List.singleton_append]
        exact ih (a :: made)

/-- The files that are there after a build are those of the steps before the first that fails. -/
theorem run_eq (generator : String → Option String) (site : Site) :
    (run generator site).result = resultOf generator site site.steps ∧
      ∀ a, a ∈ (run generator site).files ↔
        ∃ s ∈ passed generator site site.steps, s.artifact? = some a := by
  have hrun := @run_forM generator site site.steps []
  rw [← task_eq_forM] at hrun
  constructor
  · rw [run, hrun]
  · intro a
    have hall : a ∈ Artifact.all := by cases a <;> decide
    rw [run, hrun, List.mem_filter]
    simp [hall]

theorem resultOf_eq_error_iff {steps : List Step} {f : Failure} :
    resultOf generator site steps = .error f ↔ ∃ before s after, steps = before ++ s :: after ∧
      (∀ x ∈ before, x.failure? generator site = none) ∧ s.failure? generator site = some f := by
  have hfirst : resultOf generator site steps = .error f ↔
      steps.findSome? (Step.failure? generator site) = some f := by
    rw [resultOf]
    cases steps.findSome? (Step.failure? generator site) <;> simp
  rw [hfirst, List.findSome?_eq_some_iff]
  constructor
  · rintro ⟨before, s, after, rfl, hs, hbefore⟩
    exact ⟨before, s, after, rfl, hbefore, hs⟩
  · rintro ⟨before, s, after, rfl, hbefore, hs⟩
    exact ⟨before, s, after, rfl, hs, hbefore⟩

theorem resultOf_eq_ok_iff {steps : List Step} :
    resultOf generator site steps = .ok () ↔ ∀ s ∈ steps, s.failure? generator site = none := by
  rw [resultOf, ← List.findSome?_eq_none_iff]
  cases steps.findSome? (Step.failure? generator site) <;> simp

theorem passed_eq {before after : List Step} {s : Step}
    (hbefore : ∀ x ∈ before, x.failure? generator site = none)
    (hs : s.failure? generator site ≠ none) :
    passed generator site (before ++ s :: after) = before := by
  rw [passed, List.takeWhile_append_of_pos (by simpa using hbefore),
    List.takeWhile_cons_of_neg (by simpa using hs), List.append_nil]

theorem run_eq_ok_iff {text : String} (hname : generator text = some Grammar.languageName)
    (outDir : OutDir) :
    (run generator ⟨some (Bytes.ofText text), false, outDir⟩).result = .ok () ↔
      outDir = .directory ∨ outDir = .missing := by
  have htext : (Bytes.ofText text).text? = some text := Bytes.text?_eq_some_iff.mpr rfl
  rw [(run_eq _ _).1, resultOf_eq_ok_iff]
  cases outDir <;>
    simp [Site.steps, Step.failure?, Site.grammarName?, Site.grammarText?, htext, hname]

/-- From the description of HeyVL the library is built wherever the output directory can be used. -/
theorem run_text_eq_ok_iff (outDir : OutDir) :
    (run Grammar.generate? ⟨some (Bytes.ofText Grammar.text), false, outDir⟩).result = .ok () ↔
      outDir = .directory ∨ outDir = .missing :=
  run_eq_ok_iff Grammar.generate?_text outDir

/-- The outcome of a build that does its steps in their order up to the first that fails. -/
structure DoesSteps (generator : String → Option String) (site : Site) (o : Outcome) : Prop where
  /-- A build that succeeds tells to link the library, and no other one does. -/
  linked : o.result = .ok () ↔ linkLine ∈ o.printed
  built : o.result = .ok () ↔ Artifact.library ∈ o.files
  succeeds : o.result = .ok () ↔ ∀ s ∈ site.steps, s.failure? generator site = none
  fails : ∀ f, o.result = .error f ↔ ∃ before s after, site.steps = before ++ s :: after ∧
    (∀ x ∈ before, x.failure? generator site = none) ∧ s.failure? generator site = some f
  /-- The files of a build that succeeds are those of all its steps. -/
  complete : o.result = .ok () → ∀ a, a ∈ o.files ↔ ∃ s ∈ site.steps, s.artifact? = some a
  /-- The files of a build that fails are those of the steps before the first that fails. -/
  partly : ∀ before s after, site.steps = before ++ s :: after →
    (∀ x ∈ before, x.failure? generator site = none) → s.failure? generator site ≠ none →
    ∀ a, a ∈ o.files ↔ ∃ x ∈ before, x.artifact? = some a
  /-- A description of no grammar or of another one leaves nothing. -/
  clean : site.committedParser = false → site.grammarName? generator ≠ some Grammar.languageName →
    (∃ f, o.result = .error f) ∧ o.files = []
  headed : Artifact.parser ∈ o.files → Artifact.header ∈ o.files
  /-- The description does not matter where a parser is committed. -/
  committed : site.committedParser = true → site.outDir.isUsable = true →
    o.result = .ok () ∧ o.files = [.library] ∧
      ∀ grammar, run generator { site with grammar := grammar } = o

theorem grammarName?_of_passes (hread : Step.failure? generator site .readGrammar = none)
    (hgenerate : Step.failure? generator site .generate = none)
    (hname : Step.failure? generator site .checkName = none) :
    site.grammarName? generator = some Grammar.languageName := by
  simp only [Step.failure?] at hread hgenerate hname
  obtain ⟨grammar, committed, outDir⟩ := site
  cases grammar with
  | none => cases hread
  | some bytes =>
    simp only [Site.grammarName?, Site.grammarText?, Option.bind_some] at hread hgenerate hname ⊢
    cases htext : bytes.text? with
    | none => simp [htext] at hread
    | some text =>
      simp only [htext, Option.bind_some] at hgenerate hname ⊢
      cases hgenerator : generator text with
      | none => simp [hgenerator] at hgenerate
      | some name => simpa [hgenerator] using hname

theorem artifact?_of_mem_passed (hcommitted : site.committedParser = false)
    (hname : site.grammarName? generator ≠ some Grammar.languageName) {s : Step}
    (hs : s ∈ passed generator site site.steps) : s.artifact? = none := by
  have hsteps : site.steps = [.findOutDir, .readGrammar, .generate, .checkName] ++
      [.makeHeaderDirectory, .writeHeader, .writeParser, .compile] := by
    rw [Site.steps, hcommitted]
    rfl
  have hnot : ¬ ∀ s ∈ [Step.findOutDir, .readGrammar, .generate, .checkName],
      (s.failure? generator site).isNone = true := by
    intro hall
    refine hname (grammarName?_of_passes ?_ ?_ ?_)
    all_goals exact Option.isNone_iff_eq_none.mp (hall _ (by simp))
  rw [passed, hsteps, List.takeWhile_append, if_neg] at hs
  · have hmem := (List.takeWhile_prefix _).subset hs
    simp only [List.mem_cons, List.not_mem_nil, or_false] at hmem
    rcases hmem with rfl | rfl | rfl | rfl <;> rfl
  · intro hlength
    refine hnot ?_
    rw [← List.takeWhile_eq_self_iff]
    exact (List.takeWhile_prefix _).eq_of_length hlength

theorem writeHeader_mem_passed (hs : .writeParser ∈ passed generator site site.steps) :
    .writeHeader ∈ passed generator site site.steps := by
  cases hcommitted : site.committedParser with
  | true =>
    have hmem := (List.takeWhile_prefix _).subset hs
    simp [Site.steps, hcommitted] at hmem
  | false =>
    have hsteps : site.steps =
        [.findOutDir, .readGrammar, .generate, .checkName, .makeHeaderDirectory] ++
          .writeHeader :: [.writeParser, .compile] := by
      rw [Site.steps, hcommitted]
      rfl
    rw [passed, hsteps, List.takeWhile_append] at hs ⊢
    split at hs
    · next hlength =>
      rw [if_pos hlength, List.takeWhile_cons_of_pos rfl]
      simp
    · have hmem := (List.takeWhile_prefix _).subset hs
      simp at hmem

theorem resultOf_of_compile_mem_passed (h : .compile ∈ passed generator site site.steps) :
    resultOf generator site site.steps = .ok () := by
  cases hresult : resultOf generator site site.steps with
  | ok => rfl
  | error f =>
    obtain ⟨before, s, after, hsteps, hbefore, hs⟩ := resultOf_eq_error_iff.mp hresult
    rw [hsteps, passed_eq hbefore (by simp [hs])] at h
    have hlast : .compile ∉ site.steps.dropLast := by
      rw [Site.steps]
      split <;> decide
    refine absurd ?_ hlast
    rw [hsteps, List.dropLast_append_of_ne_nil (List.cons_ne_nil s after)]
    exact List.mem_append_left _ h

theorem linkLine_mem_printed_iff :
    linkLine ∈ (run generator site).printed ↔ (run generator site).result = .ok () := by
  have hnot : linkLine ∉ dependencyLines := by decide
  rw [run]
  generalize ((Build.task generator site).run).run [] = outcome
  obtain ⟨result, made⟩ := outcome
  cases result with
  | ok => simp
  | error f => simp [hnot]

theorem doesSteps_run (generator : String → Option String) (site : Site) :
    DoesSteps generator site (run generator site) := by
  obtain ⟨hresult, hfiles⟩ := run_eq generator site
  have hok := @resultOf_eq_ok_iff generator site site.steps
  rw [← hresult] at hok
  have hall (h : (run generator site).result = .ok ()) :
      passed generator site site.steps = site.steps := by
    rw [passed, List.takeWhile_eq_self_iff]
    simpa using hok.mp h
  have hcompile : Step.compile ∈ site.steps := by
    rw [Site.steps]
    split <;> simp
  refine ⟨linkLine_mem_printed_iff.symm, ⟨fun h => ?_, fun h => ?_⟩, hok,
    fun f => by rw [hresult, resultOf_eq_error_iff], fun h a => by rw [hfiles, hall h],
    fun before s after hsteps hbefore hs a => by rw [hfiles, hsteps, passed_eq hbefore hs], ?_, ?_, ?_⟩
  · rw [hfiles, hall h]
    exact ⟨.compile, hcompile, rfl⟩
  · obtain ⟨s, hs, hartifact⟩ := (hfiles _).mp h
    obtain rfl : s = .compile := by cases s <;> simp_all [Step.artifact?]
    rw [hresult]
    exact resultOf_of_compile_mem_passed hs
  · intro hcommitted hname
    have hempty (a : Artifact) : a ∉ (run generator site).files := by
      rw [hfiles]
      rintro ⟨s, hs, ha⟩
      rw [artifact?_of_mem_passed hcommitted hname hs] at ha
      cases ha
    refine ⟨?_, List.eq_nil_iff_forall_not_mem.mpr hempty⟩
    cases h : (run generator site).result with
    | error f => exact ⟨f, rfl⟩
    | ok =>
      refine absurd ((hfiles .library).mpr ?_) (hempty .library)
      rw [hall h]
      exact ⟨.compile, hcompile, rfl⟩
  · rw [hfiles, hfiles]
    rintro ⟨s, hs, hartifact⟩
    obtain rfl : s = .writeParser := by cases s <;> simp_all [Step.artifact?]
    exact ⟨.writeHeader, writeHeader_mem_passed hs, rfl⟩
  · intro hcommitted _
    obtain ⟨grammar, committed, outDir⟩ := site
    obtain rfl : committed = true := hcommitted
    exact ⟨rfl, rfl, fun _ => rfl⟩

/-- The name of the grammar is checked before the output directory is used. -/
example : (run (fun _ => some "other") ⟨some [], false, .file⟩).result = .error (.wrongName "other") :=
  rfl

end Build

end HeyVL

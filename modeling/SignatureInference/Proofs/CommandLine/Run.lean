import SignatureInference.CommandLine.Run
import SignatureInference.Proofs.Editing.Account

/-! # Runs and their reports

A run that comes to its report has carried out the instructions on the files that it indexed, and
these are the files at its beginning, except that the log may have been opened among them. So its
report agrees with what happened to the files.
-/
namespace SignatureInference.CommandLine

/-! ### Steps of a session -/

namespace Session

variable {α β : Type} {x : Session α} {f : α → Session β} {p : Progress}

/-- If the steps succeed from some progress on, then with a result and a progress as stated. -/
def Gives (x : Session α) (p : Progress) (post : α → Progress → Prop) : Prop :=
  ∀ a q, x.run.run p = (.ok a, q) → post a q

theorem Gives.mono {post post' : α → Progress → Prop} (h : Gives x p post)
    (hpost : ∀ a q, post a q → post' a q) :
    Gives x p post' := fun a q hrun => hpost a q (h a q hrun)

theorem Gives.bind {post : β → Progress → Prop} (h : Gives x p fun a q => Gives (f a) q post) :
    Gives (x >>= f) p post := by
  intro b r hrun
  change (ExceptT.bindCont f (x.run.run p).1).run (x.run.run p).2 = (.ok b, r) at hrun
  cases hx : x.run.run p with
  | mk result q =>
    rw [hx] at hrun
    cases result with
    | error e => cases hrun
    | ok a => exact h a q hx b r hrun

theorem gives_pure {post : α → Progress → Prop} {a : α} (h : post a p) : Gives (pure a) p post := by
  intro b q hrun
  cases hrun
  exact h

theorem gives_throw {post : α → Progress → Prop} (e : RunError) : Gives (throw e) p post := by
  intro b q hrun
  cases hrun

theorem gives_get {post : Progress → Progress → Prop} (h : post p p) : Gives get p post := by
  intro b q hrun
  cases hrun
  exact h

theorem gives_set {post : Unit → Progress → Prop} {q : Progress} (h : post () q) :
    Gives (set q) p post := by
  intro b r hrun
  cases hrun
  exact h

theorem gives_modify {post : Unit → Progress → Prop} {g : Progress → Progress} (h : post () (g p)) :
    Gives (modify g) p post := by
  intro b r hrun
  cases hrun
  exact h

section

variable {f : Unit → Session β} {mid : Progress → Prop} {post : β → Progress → Prop}

theorem Gives.when {c : Prop} [Decidable c] {x : Session Unit} (hx : Gives x p fun _ => mid)
    (hp : mid p) (hf : ∀ q, mid q → Gives (f ()) q post) :
    Gives (if c then x >>= f else f ()) p post := by
  split
  · exact Gives.bind (hx.mono fun _ => hf)
  · exact hf p hp

theorem Gives.whenGiven {c d : Prop} [Decidable c] [Decidable d] {o : Option Path} {b : Path → Prop}
    [DecidablePred b] {x : Path → Session Unit} {y : Session Unit}
    (hx : ∀ path, Gives (x path) p fun _ => mid) (hy : Gives y p fun _ => mid) (hp : mid p)
    (hf : ∀ q, mid q → Gives (f ()) q post) :
    Gives (if c then
        match o with
        | some path => if b path then x path >>= f else f ()
        | none => if d then y >>= f else f ()
      else f ()) p post := by
  split
  · split
    · exact Gives.when (hx _) hp hf
    · exact Gives.when hy hp hf
  · exact hf p hp

end

def KeepsFiles (x : Session α) : Prop :=
  ∀ {p : Progress} {files : FileTree}, p.files = files → Gives x p fun _ q => q.files = files

theorem keepsFiles_print (lines : List String) : KeepsFiles (print lines) :=
  fun hp => gives_modify hp

theorem keepsFiles_remark (lines : List String) : KeepsFiles (remark lines) :=
  fun hp => gives_modify hp

theorem keepsFiles_throw (e : RunError) : KeepsFiles (throw e : Session α) := fun _ => gives_throw e

theorem gives_configured {files : FileTree} (result : Except ConfigError α) (hp : p.files = files) :
    Gives (configured result) p fun a q => q.files = files ∧ result = .ok a := by
  cases result with
  | error e => exact gives_throw _
  | ok a => exact gives_pure ⟨hp, rfl⟩

theorem gives_logged {files : FileTree} (y : Logged α) (hp : p.files = files) :
    Gives (logged y) p fun a q => q.files = files ∧ ∃ log log', y.run.run log = (.ok a, log') := by
  refine Gives.bind (gives_get ?_)
  refine Gives.bind (gives_set ?_)
  split
  · next a ha => exact gives_pure ⟨hp, p.log, _, Prod.ext ha rfl⟩
  · exact gives_throw _

theorem keepsFiles_logged (y : Logged α) : KeepsFiles (logged y) :=
  fun hp => (gives_logged y hp).mono fun _ _ h => h.1

theorem gives_attempt {files : FileTree} {ε : Type} (asError : ε → AnalysisError)
    (result : Except ε α) (hp : p.files = files) :
    Gives (logged (Log.attempt asError result)) p fun a q => q.files = files ∧ result = .ok a := by
  refine (gives_logged _ hp).mono fun a q h => ⟨h.1, ?_⟩
  obtain ⟨-, log, log', hrun⟩ := h
  cases result with
  | error e => cases hrun
  | ok b =>
    cases hrun
    rfl

end Session

open Session

/-! ### What a run works with -/

/-- The configuration of a run: none if it is not wanted or not there. -/
inductive UsesConfig (files : FileTree) (args : Arguments) : Config → Prop
  | unwanted (hwanted : args.noConfig = true) : UsesConfig files args {}
  | given {path : Path} {config : Config} (hwanted : args.noConfig = false)
      (hpath : args.config = some path) (hload : Config.load files path = .ok config) :
      UsesConfig files args config
  | found {path : Path} {config : Config} (hwanted : args.noConfig = false)
      (hpath : args.config = none)
      (hfind : Config.find files files.workingDirectory = .ok (some (config, path))) :
      UsesConfig files args config
  | absent (hwanted : args.noConfig = false) (hpath : args.config = none)
      (hfind : Config.find files files.workingDirectory = .ok none) : UsesConfig files args {}

inductive NamesStorage : Option String → Trace.StorageKind → Prop
  | unnamed : NamesStorage none .memory
  | memory : NamesStorage (some "memory") .memory
  | file : NamesStorage (some "file") (.file ⟨"trace-store"⟩)

/-- The files once the log is opened, which empties its file, or once it is not wanted. -/
def OpensLog (env : Environment) (args : Arguments) (files : FileTree) : Prop :=
  match args.log with
  | none => files = env.files
  | some target => env.files.write (target.getD env.defaultLog) (.text "") = .ok files

structure Setup where
  files : FileTree
  config : Config
  storage : Trace.StorageKind
  format : Format

/-- Where both speak of the same thing, the command line counts and not the configuration. -/
structure Setup.Chosen (s : Setup) (env : Environment) (args : Arguments) : Prop where
  files : OpensLog env args s.files
  config : UsesConfig env.files args s.config
  storage : NamesStorage (args.storage <|> s.config.storage) s.storage
  format : Format.ofName? ((args.format <|> s.config.format).getD "text") = some s.format

/-- What is analysed: the paths that are there, with the kinds of evidence that both the command
line and the configuration admit. -/
def Setup.settings (s : Setup) (args : Arguments) : Settings where
  roots := args.paths.filter s.files.holds
  filter := s.config.filter
  useDocs := !args.noStatic && s.config.useDocs
  trace := if !args.noDynamic && s.config.useTrace then args.trace <|> s.config.traceFile else none
  storage := s.storage

theorem gives_loadConfig {files : FileTree} (t : FileTree) (args : Arguments) {p : Progress}
    (hp : p.files = files) :
    Gives (loadConfig t args) p fun config q => q.files = files ∧ UsesConfig t args config := by
  unfold loadConfig
  split
  · next hwanted => exact gives_pure ⟨hp, .unwanted hwanted⟩
  · next hwanted =>
    have hwanted : args.noConfig = false := by simpa using hwanted
    split
    · next path hpath =>
      exact (gives_configured _ hp).mono fun config q h => ⟨h.1, .given hwanted hpath h.2⟩
    · next hpath =>
      refine Gives.bind ((gives_configured _ hp).mono fun found p hfound => ?_)
      obtain ⟨hp, hfind⟩ := hfound
      split
      · exact gives_pure ⟨hp, .absent hwanted hpath hfind⟩
      · exact Gives.when (keepsFiles_remark _ hp) hp fun p hp =>
          gives_pure ⟨hp, .found hwanted hpath hfind⟩

theorem gives_storageKind {files : FileTree} (name : Option String) {p : Progress}
    (hp : p.files = files) :
    Gives (storageKind name) p fun kind q => q.files = files ∧ NamesStorage name kind := by
  unfold storageKind
  split
  · exact gives_pure ⟨hp, .unnamed⟩
  · exact gives_pure ⟨hp, .memory⟩
  · exact gives_pure ⟨hp, .file⟩
  · exact gives_throw _

theorem gives_openLog (env : Environment) (args : Arguments) (text : Bool) {p : Progress}
    (hp : p.files = env.files) :
    Gives (openLog env args text) p fun _ q => OpensLog env args q.files := by
  unfold openLog OpensLog
  split
  · next target htarget =>
    rw [htarget]
    refine Gives.bind (gives_get ?_)
    dsimp only
    rw [hp]
    split
    · next files hwrite =>
      refine Gives.bind (gives_set ?_)
      split
      · exact (keepsFiles_print _ rfl).mono fun _ q hq => hwrite.trans (congrArg _ hq.symm)
      · exact gives_pure hwrite
    · exact Gives.bind (gives_throw _)
  · next hlog =>
    have hnone : args.log = none := Option.eq_none_iff_forall_ne_some.mpr hlog
    rw [hnone]
    exact gives_pure hp

theorem gives_decide {files : FileTree} (r : Registry) (widen : Bool) {p : Progress}
    (hp : p.files = files) :
    Gives (logged (Analysis.decide r widen)) p fun report q =>
      q.files = files ∧ report = .ofRegistry r widen := by
  refine (gives_logged _ hp).mono fun report q h => ⟨h.1, ?_⟩
  obtain ⟨-, log, log', hrun⟩ := h
  cases hrun
  rfl

theorem gives_revise {files : FileTree} (args : Arguments) (index : Index) (report : Report)
    {p : Progress} (hp : p.files = files) :
    Gives (revise args index report) p fun account q =>
      account = ⟨args.mode, report,
        .run { index, dryRun := args.mode = .check, files } report.instructions⟩ ∧
        q.files = account.revision.editor.files := by
  subst hp
  unfold revise
  refine Gives.bind (gives_get ?_)
  refine Gives.bind ((keepsFiles_logged _ rfl).mono fun _ q _ => ?_)
  refine Gives.bind (gives_modify ?_)
  exact gives_pure ⟨rfl, rfl⟩

/-! ### The account of a run -/

/-- What a run has done that comes to its report: it indexed and analysed the files as the command
line and the configuration asked, carried out the instructions on them, and printed the account of
it at last. -/
structure Reported (env : Environment) (args : Arguments) (exit : Exit) (out : String)
    (files : FileTree) (account : Account) : Prop where
  exists_setup : ∃ (s : Setup) (index : Index) (r : Registry) (said : String)
    (log log' : Array String),
    s.Chosen env args ∧
      Index.build s.files (s.settings args).roots (s.settings args).filter = .ok index ∧
      (Analysis.run s.files {} index (s.settings args)).run.run log = (.ok r, log') ∧
      account.report = .ofRegistry r (args.widen || s.config.widen) ∧
      account.revision =
        .run { index, dryRun := args.mode = .check, files := s.files } account.report.instructions ∧
      out = said ++ account.output s.format
  done : account.revision.failure = none
  mode_eq : account.mode = args.mode
  exit_eq : exit = account.exit
  files_eq : files = account.revision.editor.files

theorem gives_session (env : Environment) (args : Arguments) :
    Gives (session env args) { files := env.files } fun exit p =>
      ∃ account, Reported env args exit p.out p.files account := by
  unfold session
  refine Gives.bind ((gives_loadConfig env.files args rfl).mono fun config p hload => ?_)
  obtain ⟨hp, hconfig⟩ := hload
  dsimp only
  split
  · next format hformat =>
    refine Gives.bind ((gives_openLog env args _ hp).mono fun _ start hstart => ?_)
    -- from here to the edits no file is written
    refine Gives.bind (gives_get ?_)
    refine Gives.when (keepsFiles_remark _ rfl) rfl fun p hp => ?_
    refine Gives.when (keepsFiles_throw _ hp) hp fun p hp => ?_
    refine Gives.bind ((gives_storageKind _ hp).mono fun storage p hkind => ?_)
    obtain ⟨hp, hstorage⟩ := hkind
    refine Gives.when (keepsFiles_print _ hp) hp fun p hp => ?_
    refine Gives.bind ((keepsFiles_logged _ hp).mono fun _ p hp => ?_)
    refine Gives.bind ((gives_attempt _ _ hp).mono fun index p hindex => ?_)
    obtain ⟨hp, hbuild⟩ := hindex
    refine Gives.bind ((keepsFiles_logged _ hp).mono fun _ p hp => ?_)
    refine Gives.whenGiven (fun path => keepsFiles_throw _ hp) (keepsFiles_remark _ hp) hp
      fun p hp => ?_
    refine Gives.bind ((gives_logged _ hp).mono fun r p hanalysis => ?_)
    obtain ⟨hp, log, log', hrun⟩ := hanalysis
    refine Gives.bind ((gives_decide r _ hp).mono fun report p hreport => ?_)
    obtain ⟨hp, rfl⟩ := hreport
    refine Gives.bind ((gives_revise args index _ hp).mono fun account p haccount => ?_)
    obtain ⟨rfl, hp⟩ := haccount
    refine Gives.when (keepsFiles_print _ hp) hp fun p hp => ?_
    split
    · exact Gives.bind (gives_throw _)
    · next hfailure =>
      have hdone := Option.eq_none_iff_forall_ne_some.mpr fun failure h => hfailure _ _ h
      rw [List.partition_eq_filter_filter] at hbuild hrun
      refine Gives.bind (gives_modify ?_)
      refine gives_pure ⟨_, ⟨⟨start.files, config, storage, format⟩, index, r, p.out,
        log, log', ?_⟩, hdone, rfl, rfl, hp⟩
      exact ⟨⟨hstart, hconfig, hstorage, hformat⟩, hbuild, hrun, rfl, rfl, rfl⟩
  · exact gives_throw _

theorem OpensLog.readText {env : Environment} {args : Arguments} {files : FileTree}
    (h : OpensLog env args files) {p : Path} {s : String} (hread : files.readText p = .ok s)
    (hne : s ≠ "") : env.files.readText p = .ok s := by
  unfold OpensLog at h
  split at h
  · rw [← h]
    exact hread
  · exact FileTree.readText_of_write h hread hne

theorem Reported.balances {env : Environment} {args : Arguments} {exit : Exit} {out : String}
    {files : FileTree} {account : Account} (h : Reported env args exit out files account) :
    account.revision.Balances env.files account.report.instructions := by
  obtain ⟨s, index, -, -, -, -, hchosen, hbuild, -, -, hrevision, -⟩ := h.exists_setup
  have hdone := h.done
  rw [hrevision] at hdone ⊢
  exact Revision.balances_of_build hbuild (fun _ _ => hchosen.files.readText) _ _ hdone

/-- There are changes to be made exactly if an instruction was carried out and nothing was
written. -/
theorem Account.code_exit (a : Account) :
    a.exit.code = if a.mode = .check ∧ 0 < a.summary.applied then 2 else 0 := by
  have hsize : a.summary.filesWithChanges =
      (a.revision.appliedPaths.map Path.components).toFinset.card :=
    Changes.size_ofResults _
  have hpositive : 0 < a.summary.filesWithChanges ↔ 0 < a.summary.applied := by
    rw [hsize, Finset.card_pos, List.toFinset_nonempty_iff, ← List.length_pos_iff, List.length_map,
      Revision.length_appliedPaths]
    rfl
  unfold exit
  simp only [Bool.and_eq_true, decide_eq_true_eq, gt_iff_lt, hpositive]
  split <;> rfl

/-- A run that does not fail comes to its report. -/
theorem exists_reported {env : Environment} {words : List String} {args : Arguments}
    (hread : Arguments.read words = .ok args) (hfailed : (execute env words).exit ≠ .failed)
    (haborted : (execute env words).exit ≠ .aborted) :
    ∃ account, Reported env args (execute env words).exit (execute env words).out
      (execute env words).files account := by
  unfold execute at *
  rw [hread] at hfailed haborted ⊢
  cases hrun : (session env args).run.run { files := env.files } with
  | mk result p =>
    simp only [hrun] at hfailed haborted ⊢
    cases result with
    | error e => cases haborts : e.aborts <;> simp [haborts] at hfailed haborted
    | ok exit => exact gives_session env args exit p hrun

/-- The report of a run agrees with what happened to the files. Whatever instructions are carried
out on indexed files, the account of it balances. If a run comes to its report, this holds of what
it prints, with respect to the files at its beginning; and its exit code tells whether there are
changes that were not written. -/
theorem report_agrees_with_files :
    (∀ (t : FileTree) (roots : List Path) (filter : PathFilter) (index : Index) (dryRun : Bool)
      (is : List Instruction), Index.build t roots filter = .ok index →
        (Revision.run { index, dryRun, files := t } is).failure = none →
        (Revision.run { index, dryRun, files := t } is).Balances t is) ∧
    ∀ (env : Environment) (words : List String) (args : Arguments),
      Arguments.read words = .ok args →
      (execute env words).exit ≠ .failed → (execute env words).exit ≠ .aborted →
      ∃ account,
        Reported env args (execute env words).exit (execute env words).out
          (execute env words).files account ∧
        account.revision.Balances env.files account.report.instructions ∧
        account.summary.applied + account.summary.skipped = account.summary.instructions ∧
        account.summary.filesWithChanges =
          (account.revision.appliedPaths.map Path.components).toFinset.card ∧
        (execute env words).exit.code =
          if args.mode = .check ∧ 0 < account.summary.applied then 2 else 0 := by
  constructor
  · intro t roots filter index dryRun is hbuild hdone
    exact Revision.balances_of_build hbuild (fun _ _ hread _ => hread) dryRun is hdone
  · intro env words args hread hfailed haborted
    obtain ⟨account, h⟩ := exists_reported hread hfailed haborted
    refine ⟨account, h, h.balances, h.balances.counts_eq, h.balances.files_eq, ?_⟩
    rw [← h.mode_eq, ← Account.code_exit, ← h.exit_eq]

/-- A project with a class that has two methods with documented types. -/
def documented : FileTree :=
  (FileTree.ofBase ["p"]).put ["p", "src", "A.php"] (.file (.text
    ("<?php class A \x7b /** @return int */ function f() \x7b\x7d " ++
      "/** @param int $x */ function g($x) \x7b\x7d \x7d")))

def scattered : List Instruction :=
  [⟨⟨"A"⟩, "g", .parameter 0, ⟨"int", false⟩⟩, ⟨⟨"B"⟩, "f", .result, ⟨"int", false⟩⟩,
   ⟨⟨"A"⟩, "f", .result, ⟨"int", true⟩⟩]

theorem report_agrees_with_files_documented :
    (∃ index, Index.build documented [⟨"src"⟩] ⟨[]⟩ = .ok index ∧
      (Revision.run { index, dryRun := false, files := documented } scattered).Balances
        documented scattered) ∧
    Arguments.read ["src"] = .ok { paths := [⟨"src"⟩] } ∧
    (execute ⟨documented, ⟨"/tmp/run.log"⟩⟩ ["src"]).exit = .pending ∧
    ∃ account : Account, account.revision.Balances documented account.report.instructions ∧
      0 < account.summary.applied := by
  have hread : Arguments.read ["src"] = .ok { paths := [⟨"src"⟩] } := by decide +kernel
  have hexit : (execute ⟨documented, ⟨"/tmp/run.log"⟩⟩ ["src"]).exit = .pending := by decide +kernel
  have hdone : (Index.build documented [⟨"src"⟩] ⟨[]⟩).map (fun index =>
      (Revision.run { index, dryRun := false, files := documented } scattered).failure) =
        .ok none := by
    decide +kernel
  refine ⟨?_, hread, hexit, ?_⟩
  · cases hbuild : Index.build documented [⟨"src"⟩] ⟨[]⟩ with
    | error e =>
      rw [hbuild] at hdone
      cases hdone
    | ok index =>
      rw [hbuild] at hdone
      exact ⟨index, rfl, report_agrees_with_files.1 _ _ _ _ _ _ hbuild (Except.ok.inj hdone)⟩
  · have hreport := report_agrees_with_files.2 ⟨documented, ⟨"/tmp/run.log"⟩⟩ ["src"] _ hread
    obtain ⟨account, -, hbalances, -, -, hcode⟩ :=
      hreport (by rw [hexit]; decide) (by rw [hexit]; decide)
    refine ⟨account, hbalances, ?_⟩
    by_contra hnone
    rw [hexit, if_neg fun h => hnone h.2] at hcode
    cases hcode

end SignatureInference.CommandLine

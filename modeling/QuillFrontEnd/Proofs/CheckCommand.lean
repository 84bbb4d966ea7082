import QuillFrontEnd.Command
import QuillFrontEnd.Proofs.Verdict

/-!
# Checking files

Checking several files is checking each of them, in order: what is written and the exit status are put together from what each file
gives by itself. For one file, checking it and parsing it come to the same verdict with the same report, and an error that lexing
it finds is an error for both.
-/

namespace QuillFrontEnd

/-- An error that the lexer reports is an error of the analysis, since the queue never counts fewer errors than it did. -/
theorem status_failed_of_lex {source : String} {lexed : LexOutput} (hlex : lex source = .ok lexed)
    (herrors : ((Queue.empty .standard).addAll lexed.diagnostics).errorCount ≠ 0) :
    ∃ a, analyze source = .ok a ∧ a.status = .failed := by
  refine ⟨_, by rw [analyze, hlex], if_neg fun hzero => herrors ?_⟩
  have hle := Queue.errorCount_le_addAll ((Queue.empty .standard).addAll lexed.diagnostics) (parse lexed.tokens).diagnostics
  change (((Queue.empty .standard).addAll lexed.diagnostics).addAll (parse lexed.tokens).diagnostics).errorCount = 0 at hzero
  omega

namespace Command

variable {env : Surroundings} {o : Options} {path : String}

/-! ## What a file gives -/

namespace Surroundings

/-- What is known of the file at a path: the file with its analysis, or why it has none. -/
def examine (env : Surroundings) (path : String) : Except Failure (SourceFile × Analysis) :=
  env.source path >>= fun file => (analyzeFile file).map (file, ·)

/-- The status of the file at a path; there is none for a file that cannot be read as a text or is too large to analyse. -/
def status? (env : Surroundings) (path : String) : Option Status := (env.examine path).toOption.map (·.2.status)

/-- What is said against the file at a path: the report of its analysis, or why it has none. -/
def complaint (env : Surroundings) (colors : Bool) (path : String) : String :=
  match env.examine path with
  | .ok (file, a) => analysisReport colors file a
  | .error f => "error: " ++ f.message ++ "\n"

/-- What is known of a file depends on what is read at its path only. -/
theorem examine_congr {env' : Surroundings} (h : env'.read path = env.read path) : env'.examine path = env.examine path := by
  unfold examine source
  rw [h]

theorem source_of_read {text : String} (h : env.read path = .ok text.toUTF8) : env.source path = .ok ⟨path, text⟩ := by
  have htext : String.fromUTF8? text.toUTF8 = some text := dif_pos text.isValidUTF8
  rw [source, h]
  simp only [htext]

theorem source_cases (env : Surroundings) (path : String) :
    (∃ cause, env.source path = .error (.unreadable path cause)) ∨ ∃ text, env.source path = .ok ⟨path, text⟩ := by
  unfold source
  cases env.read path with
  | error cause => exact .inl ⟨cause, rfl⟩
  | ok bytes =>
    cases htext : String.fromUTF8? bytes with
    | none => exact .inl ⟨.invalidText, by simp only [htext]⟩
    | some text => exact .inr ⟨text, by simp only [htext]⟩

theorem examine_of_source_error {f : Failure} (h : env.source path = .error f) : env.examine path = .error f := by
  rw [examine, h]
  rfl

theorem examine_of_source {text : String} (h : env.source path = .ok ⟨path, text⟩) :
    env.examine path = ((analyze text).mapError (.tooLarge path)).map (⟨path, text⟩, ·) := by
  rw [examine, h]
  rfl

/-- The bytes of a text that can be analysed give the text and its analysis. -/
theorem examine_of_read {text : String} {a : Analysis} (hread : env.read path = .ok text.toUTF8) (ha : analyze text = .ok a) :
    env.examine path = .ok (⟨path, text⟩, a) := by
  rw [examine_of_source (source_of_read hread), ha]
  rfl

theorem examine_of_read_error {cause : ReadError} (h : env.read path = .error cause) :
    env.examine path = .error (.unreadable path cause) := by
  refine examine_of_source_error ?_
  rw [source, h]

/-- A file without an analysis is no reason to explain how commands are used. -/
theorem advice_of_examine {f : Failure} (h : env.examine path = .error f) : f.advice = "" := by
  rcases env.source_cases path with ⟨cause, hsource⟩ | ⟨text, hsource⟩
  · rw [examine_of_source_error hsource] at h
    cases h
    rfl
  · rw [examine_of_source hsource] at h
    cases hanalyze : analyze text with
    | error cause =>
      rw [hanalyze] at h
      cases h
      rfl
    | ok a =>
      rw [hanalyze] at h
      cases h

end Surroundings

/-- Checking a file gives its status and what is said against it, and confirms it if it is clean. -/
theorem checkFile_eq (env : Surroundings) (o : Options) (path : String) :
    checkFile env o path =
      { status := env.status? path
        output := if o.quiet then "" else if env.status? path = some .clean then "OK: " ++ path ++ "\n" else ""
        errors := env.complaint (env.colors o) path } := by
  have hexamine : (env.source path >>= fun file => (analyzeFile file).map (file, ·)) = env.examine path := rfl
  rw [checkFile, hexamine, Surroundings.status?, Surroundings.complaint]
  cases env.examine path with
  | error f => cases o.quiet <;> rfl
  | ok known =>
    obtain ⟨file, a⟩ := known
    cases a.status <;> cases o.quiet <;> simp [Except.toOption]

/-! ## Several files -/

/-- What is written for some items only is what is written for those among all. -/
theorem join_map_ite {α : Type} (p : α → Bool) (f : α → String) (xs : List α) :
    String.join (xs.map fun x => if p x then f x else "") = String.join ((xs.filter p).map f) := by
  induction xs with
  | nil => rfl
  | cons x xs ih =>
    rw [List.map_cons, String.join_cons, ih]
    cases hx : p x with
    | true => simp [List.filter_cons_of_pos hx]
    | false => simp [hx]

/-- The number of files that have no status. -/
def uncheckable (env : Surroundings) (files : List String) : Nat := files.countP fun p => (env.status? p).isNone

/-- The exit status for files with the given statuses: a file that has none outweighs one with errors. -/
def exitCodeOf (statuses : List (Option Status)) : Nat :=
  if none ∈ statuses then 2 else if some .failed ∈ statuses then 1 else 0

theorem uncheckable_singleton (env : Surroundings) (path : String) :
    uncheckable env [path] = if env.status? path = none then 1 else 0 := by
  simp [uncheckable, List.countP_cons]

theorem uncheckable_pos_iff {files : List String} : 0 < uncheckable env files ↔ none ∈ files.map env.status? := by
  rw [uncheckable, List.countP_pos_iff, List.mem_map]
  simp only [Option.isNone_iff_eq_none]

theorem line_incomplete (failed total : Nat) :
    (Failure.incomplete failed total).line = "error: " ++ failed.repr ++ " of " ++ total.repr ++ " files could not be checked\n" := by
  have hend : " files could not be checked" ++ "\n" = " files could not be checked\n" := rfl
  simp only [Failure.line, Failure.message, String.append_assoc, hend]

/-- Checking files puts together what each of them gives. -/
theorem runCheck_eq (env : Surroundings) (o : Options) :
    runCheck env o =
      { code := exitCodeOf (o.files.map env.status?)
        output :=
          if o.quiet then ""
          else String.join ((o.files.filter fun p => env.status? p == some .clean).map fun p => "OK: " ++ p ++ "\n")
        errors :=
          String.join (o.files.map (env.complaint (env.colors o))) ++
            if 0 < uncheckable env o.files then (Failure.incomplete (uncheckable env o.files) o.files.length).line else "" } := by
  have houtput : String.join ((o.files.map (checkFile env o)).map (·.output)) =
      if o.quiet then ""
      else String.join ((o.files.filter fun p => env.status? p == some .clean).map fun p => "OK: " ++ p ++ "\n") := by
    simp only [List.map_map, Function.comp_def, checkFile_eq]
    cases o.quiet with
    | true =>
      have hnone := join_map_ite (fun _ => false) (fun _ => "") o.files
      rw [List.filter_eq_nil_iff.2 (by simp)] at hnone
      exact hnone
    | false => simpa using join_map_ite (fun p => env.status? p == some .clean) (fun p => "OK: " ++ p ++ "\n") o.files
  have herrors : String.join ((o.files.map (checkFile env o)).map (·.errors)) =
      String.join (o.files.map (env.complaint (env.colors o))) := by
    simp only [List.map_map, Function.comp_def, checkFile_eq]
  have hfailed : (o.files.map (checkFile env o)).countP (fun c => c.status.isNone) = uncheckable env o.files := by
    simp only [List.countP_map, Function.comp_def, checkFile_eq, uncheckable]
  have hany : ((o.files.map (checkFile env o)).any fun c => c.status == some .failed) = true ↔
      some .failed ∈ o.files.map env.status? := by
    simp [checkFile_eq]
  unfold runCheck
  simp only [houtput, herrors, hfailed]
  unfold exitCodeOf
  by_cases hnone : 0 < uncheckable env o.files
  · rw [if_pos hnone, if_pos hnone, if_pos (uncheckable_pos_iff.1 hnone)]
    simp [Failure.transcript, Failure.advice]
  · rw [if_neg hnone, if_neg hnone, if_neg (fun h => hnone (uncheckable_pos_iff.2 h)), String.append_empty]
    by_cases hany' : some .failed ∈ o.files.map env.status?
    · rw [if_pos hany', if_pos (hany.2 hany')]
      rfl
    · rw [if_neg hany', if_neg (fun h => hany' (hany.1 h))]
      rfl

/-! ## Command lines -/

theorem run_of_request {arguments : List String} {r : Request} (h : Request.ofArguments arguments = .ok r) :
    run env arguments = match r.run env with | .ok transcript => transcript | .error f => f.transcript "" "" := by
  rw [run, h]
  rfl

theorem run_check {arguments : List String} (h : Options.ofArguments arguments = .ok o) :
    run env ("check" :: arguments) = runCheck env o := by
  have hrequest : Request.ofArguments ("check" :: arguments) = .ok (.check o) := by
    simp [Request.ofArguments, h, Except.map]
  rw [run_of_request hrequest]
  rfl

theorem singleFile_eq (hfile : o.files = [path]) (command : String) : o.singleFile command = .ok path := by
  rw [Options.singleFile, hfile]

theorem runParse_eq (hfile : o.files = [path]) :
    runParse env o = (env.examine path).map fun known =>
      ⟨known.2.status.exitCode, parseText o path known.2, analysisReport (env.colors o) known.1 known.2⟩ := by
  rw [runParse, singleFile_eq hfile, Surroundings.examine]
  change (env.source path >>= _) = _
  cases env.source path with
  | error f => rfl
  | ok file =>
    change (analyzeFile file >>= _) = Except.map _ ((analyzeFile file).map _)
    cases analyzeFile file <;> rfl

/-- Parsing a file comes to its status and says what is said against it. -/
theorem run_parse {arguments : List String} (h : Options.ofArguments arguments = .ok o) (hfile : o.files = [path]) :
    (run env ("parse" :: arguments)).code = exitCodeOf [env.status? path] ∧
      (run env ("parse" :: arguments)).errors = env.complaint (env.colors o) path := by
  have hrequest : Request.ofArguments ("parse" :: arguments) = .ok (.parse o) := by
    simp [Request.ofArguments, h, Except.map]
  rw [run_of_request hrequest, Request.run, runParse_eq hfile, Surroundings.status?, Surroundings.complaint]
  cases hexamine : env.examine path with
  | error f =>
    have hadvice := Surroundings.advice_of_examine hexamine
    refine ⟨rfl, ?_⟩
    simp only [Except.map, Failure.transcript, Failure.line, hadvice, String.empty_append, String.append_empty]
  | ok known =>
    obtain ⟨file, a⟩ := known
    refine ⟨?_, rfl⟩
    cases hstatus : a.status <;> simp [Except.map, Except.toOption, hstatus, exitCodeOf, Status.exitCode]

/-- Where lexing a file gives a transcript, the file is a text, and its exit status is decided by the diagnostics of the lexer. -/
theorem code_of_runLex (hfile : o.files = [path]) {t : Transcript} (ht : runLex env o = .ok t) :
    ∃ text lexed, env.source path = .ok ⟨path, text⟩ ∧ lex text = .ok lexed ∧
      t.code = (Status.ofErrorCount ((Queue.empty .standard).addAll lexed.diagnostics).errorCount).exitCode := by
  rw [runLex, singleFile_eq hfile] at ht
  change (env.source path >>= _) = _ at ht
  rcases env.source_cases path with ⟨cause, hsource⟩ | ⟨text, hsource⟩
  · rw [hsource] at ht
    cases ht
  · rw [hsource] at ht
    change ((lex text).mapError _ >>= _) = _ at ht
    cases hlex : lex text with
    | error cause =>
      rw [hlex] at ht
      cases ht
    | ok lexed =>
      rw [hlex] at ht
      cases ht
      exact ⟨text, lexed, hsource, hlex, rfl⟩

/-- Where lexing a file comes to errors, the file has failed. -/
theorem status?_of_run_lex {arguments : List String} (h : Options.ofArguments arguments = .ok o) (hfile : o.files = [path])
    (hcode : (run env ("lex" :: arguments)).code = 1) : env.status? path = some .failed := by
  have hrequest : Request.ofArguments ("lex" :: arguments) = .ok (.lex o) := by
    simp [Request.ofArguments, h, Except.map]
  rw [run_of_request hrequest, Request.run] at hcode
  cases hrun : runLex env o with
  | error f =>
    rw [hrun] at hcode
    cases hcode
  | ok t =>
    obtain ⟨text, lexed, hsource, hlex, ht⟩ := code_of_runLex hfile hrun
    rw [hrun] at hcode
    have herrors : ((Queue.empty .standard).addAll lexed.diagnostics).errorCount ≠ 0 := fun hzero => by
      rw [hzero] at ht
      cases hcode.symm.trans ht
    obtain ⟨a, hanalyze, hstatus⟩ := status_failed_of_lex hlex herrors
    rw [Surroundings.status?, Surroundings.examine_of_source hsource, hanalyze]
    exact congrArg some hstatus

/-- Let arguments name options and files. Checking the files confirms those with a clean analysis, in order, unless it is to be
quiet; it says what is said against each of them, in order, and then how many could not be checked, if there are any; and it exits
with 2 if a file has no status, otherwise with 1 if one has errors, otherwise with 0. What is known of a file is the analysis of what
is read at its path, or why that cannot be read, whatever the other files are. Parsing a single file exits with the same status and
says the same, up to the line that counts the files that could not be checked; and where lexing it exits with 1, so do parsing and
checking it. -/
theorem check_combines_files (env : Surroundings) {arguments : List String} {o : Options}
    (h : Options.ofArguments arguments = .ok o) :
    let checked := run env ("check" :: arguments)
    (checked.output =
      if o.quiet then ""
      else String.join ((o.files.filter fun p => env.status? p == some .clean).map fun p => "OK: " ++ p ++ "\n")) ∧
    (checked.errors =
      String.join (o.files.map (env.complaint (env.colors o))) ++
        if 0 < uncheckable env o.files then
          "error: " ++ (uncheckable env o.files).repr ++ " of " ++ o.files.length.repr ++ " files could not be checked\n"
        else "") ∧
    (checked.code =
      if ∃ p ∈ o.files, env.status? p = none then 2 else if ∃ p ∈ o.files, env.status? p = some .failed then 1 else 0) ∧
    (∀ path text a, env.read path = .ok text.toUTF8 → analyze text = .ok a → env.examine path = .ok (⟨path, text⟩, a)) ∧
    (∀ path cause, env.read path = .error cause → env.examine path = .error (.unreadable path cause)) ∧
    (∀ (env' : Surroundings) (path : String), env'.read path = env.read path → env'.examine path = env.examine path) ∧
    ∀ path, o.files = [path] →
      let parsed := run env ("parse" :: arguments)
      parsed.code = checked.code ∧
      (checked.errors = parsed.errors ++ if env.status? path = none then "error: 1 of 1 files could not be checked\n" else "") ∧
      ((run env ("lex" :: arguments)).code = 1 → parsed.code = 1 ∧ checked.code = 1) := by
  intro checked
  have hchecked : checked = runCheck env o := run_check h
  rw [hchecked, runCheck_eq]
  refine ⟨rfl, ?_, ?_, fun path text a => Surroundings.examine_of_read, fun path cause => Surroundings.examine_of_read_error,
    fun env' path => Surroundings.examine_congr, fun path hfile => ?_⟩
  · simp only [line_incomplete]
  · simp only [exitCodeOf, List.mem_map]
  · intro parsed
    obtain ⟨hcode, herrors⟩ : parsed.code = _ ∧ parsed.errors = _ := run_parse h hfile
    rw [hcode, herrors, hfile]
    refine ⟨rfl, ?_, fun hlex => ?_⟩
    · have hline : (Failure.incomplete 1 1).line = "error: 1 of 1 files could not be checked\n" := by decide
      simp only [List.map_singleton, String.join_cons, String.join_nil, String.append_empty, uncheckable_singleton]
      cases env.status? path with
      | none => simp [hline]
      | some _ => rfl
    · rw [List.map_singleton, status?_of_run_lex h hfile hlex]
      exact ⟨rfl, rfl⟩

/-- A missing file and a clean one: the clean one is confirmed all the same. -/
theorem check_combines_files_missing :
    let env : Surroundings := ⟨fun path => if path = "p" then .ok "program p: main {}".toUTF8 else .error .notFound, false, none⟩
    Options.ofArguments ["q", "p"] = .ok { files := ["q", "p"] } ∧
      (run env ["check", "q", "p"]).code = 2 ∧ (run env ["check", "q", "p"]).output = "OK: p\n" := by
  intro env
  have hoptions : Options.ofArguments ["q", "p"] = .ok { files := ["q", "p"] } := rfl
  have hmissing : env.status? "q" = none := rfl
  have hclean : env.status? "p" = some .clean := by
    rw [Surroundings.status?, Surroundings.examine_of_source (Surroundings.source_of_read rfl)]
    decide +kernel
  obtain ⟨houtput, -, hcode, -⟩ := check_combines_files env hoptions
  refine ⟨hoptions, hcode.trans (if_pos ⟨"q", List.mem_cons_self, hmissing⟩), ?_⟩
  rw [houtput]
  simp [hmissing, hclean]

end Command

end QuillFrontEnd

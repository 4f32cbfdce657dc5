import JsonProjection.CommandLine.Projector
import JsonProjection.Proofs.Engine.Isolation
import JsonProjection.Proofs.Pool.Parallel
import JsonProjection.Proofs.Selection.Compile

/-!
What is written for records does not depend on how they are read.

One engine or a pool of workers, the sizes of reads, queues and caches, and the order of the steps
change the time that a call takes and nothing else. Each line adds what a call for that line alone
prints, or a warning.
-/

namespace JsonProjection

def Record.output (record : Record) : Bytes :=
  match record.outcome with
  | .error _ => []
  | .ok document =>
    Projector.rawLines document.raws ++
      match document.value? with
      | some value => Projector.valueLines true value
      | none => []

def Record.warning? (record : Record) : Option (Nat × String) :=
  match record.outcome with
  | .error error => some (record.line, error.message)
  | .ok _ => none

theorem Record.output_of_warning {record : Record} (fails : record.warning?.isSome) :
    record.output = [] := by
  unfold warning? at fails
  unfold output
  rcases outcome : record.outcome with error | document
  · rfl
  · rw [outcome] at fails
    cases fails

namespace Projector

def Call.single (call : Call) : Call :=
  { call with records := false, compact := true }

def Call.alone (call : Call) (environment : Settings) (line : Line) : Report :=
  report call.single (call.single.settings environment) (.content line.bytes)

/-- What a call for records writes, however it is tuned. -/
structure Writes (call : Call) (group : Group) (bytes : Bytes) (result : Report) : Prop where
  tuned : ∀ workers? chunkSize? environment,
    let tuned : Call := { call with workers?, chunkSize? }
    report tuned (tuned.settings environment) (.content bytes) = result
  /-- With one engine, the source may arrive in any chunks. -/
  inTurn : ∀ (options : EngineOptions) (source : List Arrival), options.mode = call.mode →
    Arrival.Unbroken source → Arrival.joined source = bytes →
    ∃ records, readRecords call.query options source = .ok records ∧
      reportRecords call records = result
  /-- On a pool, the reader and the workers may take their steps in any order. -/
  onPool : ∀ (config : PoolConfig) (source : List Arrival), Arrival.Unbroken source →
    Arrival.joined source = bytes →
    ∃ items, (ParallelRun.new (Pool.new config) call.query call.mode source).Yields items ∧
      reportResponses call ⟨[], []⟩ items = result
  output : ∀ environment, result.output =
    (numberedLines bytes).flatMap fun line => (call.alone environment line).output
  warnings : ∀ options, options.mode = call.mode → result.badLines =
    (numberedLines bytes).filterMap fun line => (line.record group options).warning?
  failing : ∀ environment, result.badLines.map Prod.fst =
    ((numberedLines bytes).filter fun line => (call.alone environment line).code = 1).map (·.number)
  silent : ∀ environment line, (call.alone environment line).code = 1 →
    (call.alone environment line).output = []
  code : ∀ environment, result.code = 1 ↔
    ∃ line ∈ numberedLines bytes, (call.alone environment line).code = 1

/-! ### Records -/

def Progress.record (progress : Progress) (record : Record) : Progress :=
  match record.outcome with
  | .ok document => progress.good document.raws document.value?
  | .error error => progress.bad record.line error.message

theorem Progress.record_writes (progress : Progress) (record : Record) :
    (progress.record record).latest.reverse.flatten =
        progress.latest.reverse.flatten ++ record.output ∧
      (progress.record record).failed.reverse =
        progress.failed.reverse ++ record.warning?.toList := by
  have behind (bytes : Bytes) : (bytes :: progress.latest).reverse.flatten =
      progress.latest.reverse.flatten ++ bytes := by
    rw [List.reverse_cons, List.flatten_append, List.flatten_singleton]
  unfold Progress.record Record.output Record.warning?
  rcases record.outcome with error | document
  · exact ⟨(List.append_nil _).symm, List.reverse_cons⟩
  · exact ⟨behind _, (List.append_nil _).symm⟩

theorem Progress.foldl_record (progress : Progress) (records : List Record) :
    (records.foldl record progress).latest.reverse.flatten =
        progress.latest.reverse.flatten ++ records.flatMap Record.output ∧
      (records.foldl record progress).failed.reverse =
        progress.failed.reverse ++ records.filterMap Record.warning? := by
  induction records generalizing progress with
  | nil => exact ⟨(List.append_nil _).symm, (List.append_nil _).symm⟩
  | cons record rest ih =>
      obtain ⟨output, failed⟩ := progress.record_writes record
      obtain ⟨outputs, failures⟩ := ih (progress.record record)
      rw [List.foldl_cons, outputs, failures, output, failed, List.append_assoc, List.append_assoc,
        List.flatMap_cons, List.filterMap_cons]
      refine ⟨rfl, ?_⟩
      rcases record.warning? with _ | warning <;> rfl

def reportOf (stats : Bool) (records : List Record) : Report :=
  let warnings := records.filterMap Record.warning?
  ⟨records.flatMap Record.output,
    if 0 < warnings.length then some (toString warnings.length ++ " record(s) failed") else none,
    if stats then some (.failedRecords warnings.length) else none, warnings⟩

theorem Report.code_eq_one (report : Report) : report.code = 1 ↔ report.error?.isSome := by
  unfold Report.code
  split
  · exact iff_of_true rfl ‹_›
  · exact iff_of_false Nat.zero_ne_one ‹_›

theorem reportOf_code (stats : Bool) (records : List Record) :
    (reportOf stats records).code = 1 ↔ ∃ record ∈ records, record.warning?.isSome := by
  have fails : 0 < (records.filterMap Record.warning?).length ↔
      ∃ record ∈ records, record.warning?.isSome := by
    rw [List.length_pos_iff, ne_eq, List.filterMap_eq_nil_iff, Classical.not_forall]
    simp only [Classical.not_imp, Option.isSome_iff_ne_none, ne_eq]
  rw [Report.code_eq_one, ← fails]
  show (if 0 < (records.filterMap Record.warning?).length then _ else none).isSome ↔ _
  split
  · exact iff_of_true rfl ‹_›
  · exact iff_of_false Bool.false_ne_true ‹_›

theorem reportOf_lines (stats : Bool) (records : List Record) :
    (reportOf stats records).badLines.map Prod.fst =
      (records.filter (·.warning?.isSome)).map (·.line) := by
  show (records.filterMap Record.warning?).map Prod.fst = _
  induction records with
  | nil => rfl
  | cons record rest ih =>
      rw [List.filterMap_cons, List.filter_cons]
      unfold Record.warning? at ih ⊢
      rcases record.outcome with error | document
      · simp only [Option.isSome_some, if_true, List.map_cons, ih]
      · simp only [Option.isSome_none, Bool.false_eq_true, if_false, ih]

theorem Progress.report_foldl (stats : Bool) (records : List Record) :
    (records.foldl record ⟨[], []⟩).report stats none = reportOf stats records := by
  obtain ⟨output, failed⟩ := foldl_record ⟨[], []⟩ records
  simp only [Progress.report, reportOf, output, failed, List.reverse_nil, List.flatten_nil,
    List.nil_append]

theorem reportRecords_eq (call : Call) (records : List Record) :
    reportRecords call ⟨records, none⟩ = reportOf call.stats records :=
  Progress.report_foldl call.stats records

theorem reportResponses_eq (call : Call) (progress : Progress) (records : List Record) :
    reportResponses call progress (records.map fun record => .ok (.ofRecord record)) =
      (records.foldl Progress.record progress).report call.stats none := by
  induction records generalizing progress with
  | nil => rfl
  | cons record rest ih =>
      rw [List.map_cons, List.foldl_cons, reportResponses]
      rcases outcome : record.outcome with error | document
      · simp only [WorkResponse.ofRecord, outcome, Progress.record]
        exact ih _
      · simp only [WorkResponse.ofRecord, outcome, Progress.record]
        exact ih _

/-! ### A line alone -/

variable {call : Call} {group : Group}

theorem record_output (compiled : compile call.query = .ok group) {options : EngineOptions}
    {line : Line} {document : Document}
    (outcome : (line.record group options).outcome = .ok document) :
    (line.record group options).output =
      match options.mode with
      | .raw => rawLines document.raws
      | .materialize =>
        match document.value? with
        | some value => valueLines true value
        | none => [] := by
  have reached : (Engine.new group options).Reached := .new (compile_built compiled) options
  unfold Record.output
  rw [outcome]
  cases mode : options.mode with
  | raw =>
      have value : document.value? = none := by
        rw [Document.value?, Engine.run_mode reached outcome,
          show (Engine.new group options).plan.mode = options.mode from rfl, mode]
      simp only [value, List.append_nil]
  | materialize =>
      obtain ⟨tree, projects⟩ := Engine.run_projects reached mode outcome
      simp only [projects.raws]
      rfl

theorem alone_record (compiled : compile call.query = .ok group) (environment : Settings)
    (line : Line) :
    let record := line.record group (.ofMode call.mode)
    (call.alone environment line).output = record.output ∧
      ((call.alone environment line).code = 1 ↔ record.warning?.isSome) := by
  intro record
  rw [Report.code_eq_one]
  have settled : report call.single (call.single.settings environment) (.content line.bytes) =
      reportDocument call.single (call.single.settings environment) (.content line.bytes) := rfl
  have query : compile call.single.query = .ok group := compiled
  -- The engine for the line alone has a cache of its own size, which shows in nothing.
  have same := line.record_congr
    (show ((call.single.settings environment).engineOptions call.single.mode).mode =
      (EngineOptions.ofMode call.mode).mode from rfl) group
  have ran : ((Engine.new group
      ((call.single.settings environment).engineOptions call.single.mode)).run line.bytes).2 =
      record.outcome := congrArg Record.outcome same
  unfold Call.alone
  rw [settled, reportDocument, query]
  simp only [ran]
  rcases outcome : record.outcome with error | document
  · simp only [Record.output, Record.warning?, outcome]
    exact ⟨rfl, Iff.rfl⟩
  · rw [record_output compiled outcome]
    simp only [Record.warning?, outcome]
    exact ⟨rfl, Iff.rfl⟩

/-! ### All lines -/

theorem read_source {query : String} {options : EngineOptions} {source : List Arrival}
    (compiled : compile query = .ok group) (mode : options.mode = call.mode)
    (unbroken : Arrival.Unbroken source) :
    ∃ records, readRecords query options source = .ok records ∧
      reportRecords call records = reportOf call.stats
        ((numberedLines (Arrival.joined source)).map (Line.record group (.ofMode call.mode))) := by
  refine ⟨_, readRecords_record compiled options unbroken, ?_⟩
  rw [reportRecords_eq]
  congr 1
  apply List.map_congr_left
  intro line _
  exact line.record_congr mode group

theorem pool_source (config : PoolConfig) {source : List Arrival}
    (compiled : compile call.query = .ok group) (unbroken : Arrival.Unbroken source) :
    ∃ items, (ParallelRun.new (Pool.new config) call.query call.mode source).Yields items ∧
      reportResponses call ⟨[], []⟩ items = reportOf call.stats
        ((numberedLines (Arrival.joined source)).map (Line.record group (.ofMode call.mode))) := by
  refine ⟨_, ParallelRun.new_yields (Pool.new_sound config) rfl (Pool.new_pending config) compiled
    (.ofMode call.mode) unbroken, ?_⟩
  rw [reportResponses_eq, Progress.report_foldl]

theorem report_content (records : call.records = true)
    (compiled : compile call.query = .ok group) (settings : Settings) (bytes : Bytes) :
    report call settings (.content bytes) = reportOf call.stats
      ((numberedLines bytes).map (Line.record group (.ofMode call.mode))) := by
  have unbroken : Arrival.Unbroken [.chunk bytes] := Arrival.unbroken_of_chunks rfl
  have joined : Arrival.joined (Arrival.reads settings.chunkSize [.chunk bytes]) = bytes :=
    (Arrival.joined_reads _ _).trans (List.append_nil bytes)
  rw [report, if_pos records, reportLines]
  by_cases many : 1 < settings.workers
  · obtain ⟨items, yields, reported⟩ :=
      pool_source settings.poolConfig compiled (unbroken.reads settings.chunkSize)
    rw [joined] at reported
    simp only [if_pos many, compiled, yields.complete, reported]
  · obtain ⟨all, read, reported⟩ :=
      read_source compiled (show (settings.engineOptions call.mode).mode = call.mode from rfl)
        (unbroken.reads settings.chunkSize)
    rw [joined] at reported
    simp only [if_neg many, read, reported]

/-- A call for records writes one report, whatever its tuning and whatever the order of the steps:
line by line what a call for one document prints for the line, and a warning for each line that
fails. -/
theorem records_written (records : call.records = true)
    (compiled : compile call.query = .ok group) (bytes : Bytes) :
    Writes call group bytes (reportOf call.stats
      ((numberedLines bytes).map (Line.record group (.ofMode call.mode)))) := by
  have alone := alone_record compiled
  constructor
  case tuned =>
    intro workers? chunkSize? environment tuned
    exact @report_content tuned group records compiled _ bytes
  case inTurn =>
    rintro options source mode unbroken rfl
    exact read_source compiled mode unbroken
  case onPool =>
    rintro config source unbroken rfl
    exact pool_source config compiled unbroken
  case output =>
    intro environment
    show ((numberedLines bytes).map _).flatMap Record.output = _
    rw [List.flatMap_map]
    apply List.flatMap_congr
    exact fun line _ => (alone environment line).1.symm
  case warnings =>
    intro options mode
    show ((numberedLines bytes).map _).filterMap Record.warning? = _
    rw [List.filterMap_map]
    apply List.filterMap_congr
    intro line _
    exact congrArg Record.warning? (line.record_congr mode.symm group)
  case failing =>
    intro environment
    rw [reportOf_lines, List.filter_map, List.map_map]
    apply congrArg
    apply List.filter_congr
    intro line _
    exact Bool.eq_iff_iff.mpr ((alone environment line).2.symm.trans decide_eq_true_iff.symm)
  case silent =>
    intro environment line fails
    rw [(alone environment line).1]
    exact Record.output_of_warning ((alone environment line).2.mp fails)
  case code =>
    intro environment
    rw [reportOf_code]
    simp only [(alone environment _).2, List.mem_map, exists_exists_and_eq_and]

set_option maxRecDepth 20000 in
/-- The lines are `1`, a blank one, and `]` without a newline. -/
theorem records_written_failing :
    let call : Call := ⟨none, "\x7ba\x7d", true, .materialize, false, false, false, some 0, none⟩
    let bytes : Bytes := [0x31, 0x0A, 0x20, 0x0A, 0x5D]
    ∃ result, Writes call (Group.withField .empty "a" .leaf) bytes result ∧
      result.output = [0x31, 0x0A] ∧ result.code = 1 ∧ result.badLines.map Prod.fst = [3] := by
  intro call bytes
  have compiled : compile "\x7ba\x7d" = .ok (Group.withField .empty "a" .leaf) := rfl
  have written := @records_written call _ rfl compiled bytes
  refine ⟨_, written, ?_⟩
  unfold call bytes
  decide +kernel

end Projector
end JsonProjection

import JsonProjection.Proofs.Engine.Operations
import JsonProjection.Proofs.Source.Reads
import JsonProjection.Records

/-!
Records do not depend on the lines in front of them.

One engine runs all the lines of a source, bad ones among them. Each record is still what a new
engine gives for its line alone.
-/

namespace JsonProjection

/-- The record that a new engine gives for a line. -/
def Line.record (group : Group) (options : EngineOptions) (line : Line) : Record :=
  ⟨line.number, ((Engine.new group options).run line.bytes).2⟩

theorem Line.record_congr {options options' : EngineOptions} (same : options.mode = options'.mode)
    (group : Group) (line : Line) : line.record group options = line.record group options' := by
  unfold Line.record
  rw [(Engine.new group options).run_eq_new (StringCache.faithful_new _ _)
    (show options'.mode = options.mode from same.symm)]
  rfl

namespace Records

variable {engine : Engine} {group : Group} {options : EngineOptions}

theorem runLines_record (faithful : engine.lexer.cache.Faithful)
    (plan : engine.plan = ⟨group, options.mode⟩) (latest : List Record) (lines : List Line) :
    engine.Keeps (runLines engine latest lines).1 ∧
      (runLines engine latest lines).2.reverse =
        latest.reverse ++ lines.map (Line.record group options) := by
  induction lines generalizing engine latest with
  | nil => exact ⟨⟨rfl, id⟩, (List.append_nil _).symm⟩
  | cons line rest ih =>
      have kept := engine.run_keeps line.bytes
      have same := engine.run_eq_new faithful (congrArg Plan.mode plan).symm line.bytes
      rw [congrArg Plan.group plan] at same
      obtain ⟨later, records⟩ := ih (kept.faithful faithful) (kept.plan.trans plan)
        (⟨line.number, (engine.run line.bytes).2⟩ :: latest)
      refine ⟨kept.trans later, records.trans ?_⟩
      rw [same, List.reverse_cons, List.append_assoc]
      rfl

theorem readFrom_record (faithful : engine.lexer.cache.Faithful)
    (plan : engine.plan = ⟨group, options.mode⟩) (framer : LineFramer) (latest : List Record)
    {source : List Arrival} (unbroken : Arrival.Unbroken source) :
    readFrom engine framer latest source =
      ⟨latest.reverse ++ (framer.ahead (Arrival.joined source)).map (Line.record group options),
        none⟩ := by
  induction source generalizing engine framer latest with
  | nil =>
      have read := (runLines_record faithful plan latest framer.finish.2.toList).2
      rw [show Arrival.joined [] = [] from rfl, LineFramer.ahead_nil]
      exact congrArg (Records.mk · none) read
  | cons arrival rest ih =>
      cases arrival with
      | failure reason => exact absurd List.mem_cons_self (unbroken reason)
      | chunk chunk =>
          obtain ⟨kept, read⟩ := runLines_record faithful plan latest (framer.push chunk).2
          rw [show Arrival.joined (.chunk chunk :: rest) = chunk ++ Arrival.joined rest from rfl,
            ← LineFramer.push_ahead, List.map_append, ← List.append_assoc, ← read]
          exact ih (kept.faithful faithful) (kept.plan.trans plan) _ _ unbroken.rest

end Records

theorem readRecords_record {query : String} {group : Group} (compiled : compile query = .ok group)
    (options : EngineOptions) {source : List Arrival} (unbroken : Arrival.Unbroken source) :
    readRecords query options source =
      .ok ⟨(numberedLines (Arrival.joined source)).map (Line.record group options), none⟩ := by
  unfold readRecords
  rw [compiled, ← LineFramer.ahead_new]
  exact congrArg Except.ok (Records.readFrom_record (StringCache.faithful_new _ _) rfl _ [] unbroken)

/-- Each line of a source that is not blank has its record, in order and under its number among all
lines: what a new engine gives for the bytes of that line alone. A reader of any size changes
nothing. -/
theorem readRecords_lines {query : String} {group : Group} (compiled : compile query = .ok group)
    (options : EngineOptions) {source : List Arrival} (unbroken : Arrival.Unbroken source) :
    let records := (numberedLines (Arrival.joined source)).map fun line =>
      (⟨line.number, ((Engine.new group options).run line.bytes).2⟩ : Record)
    readRecords query options source = .ok ⟨records, none⟩ ∧
      ∀ size, readRecords query options (Arrival.reads size source) = .ok ⟨records, none⟩ := by
  intro records
  refine ⟨readRecords_record compiled options unbroken, fun size => ?_⟩
  have read := readRecords_record compiled options (unbroken.reads size)
  rw [Arrival.joined_reads] at read
  exact read

set_option maxRecDepth 20000 in
/-- The lines are `[tru`, a blank one, and `[]` at the end of the source. The first chunk ends
between the carriage return and the newline of the first line. -/
theorem readRecords_lines_cut :
    let source : List Arrival :=
      [.chunk [0x5B, 0x74, 0x72, 0x75, 0x0D], .chunk [0x0A, 0x20, 0x0A, 0x5B, 0x5D, 0x0D]]
    let options : EngineOptions := ⟨.materialize, 1, 0⟩
    ∃ error document, readRecords "\x7ba\x7d" options (Arrival.reads 2 source) =
        .ok ⟨[⟨1, .error error⟩, ⟨3, .ok document⟩], none⟩ ∧
      document.value? = some (.array []) ∧ document.counts.processed = 2 := by
  intro source options
  have unbroken : Arrival.Unbroken source := Arrival.unbroken_of_chunks rfl
  have compiled : compile "\x7ba\x7d" = .ok (.leaf "a" .empty) := rfl
  have read := (readRecords_lines compiled options unbroken).2 2
  exact ⟨_, _, read.trans rfl, rfl, rfl⟩

end JsonProjection

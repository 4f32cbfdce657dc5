import JsonProjection.Proofs.Pool.Collection
import JsonProjection.Proofs.Source.Records

/-!
Projecting lines on a pool gives what projecting them one by one gives.

Whatever the order in which the reader and the workers take their steps, the responses so far are
the first of those that belong to the records of the source. The steps come to an end, and then the
responses are all there.
-/

namespace JsonProjection

def WorkResponse.ofRecord (record : Record) : WorkResponse :=
  match record.outcome with
  | .error error => ⟨record.line, none, [], some (QueryError.document error).message⟩
  | .ok document => ⟨record.line, document.value?, document.raws, none⟩

theorem WorkResponse.ofRecord_id (record : Record) : (ofRecord record).id = record.line := by
  unfold ofRecord
  split <;> rfl

theorem Line.response_request {query : String} {group : Group} (compiled : compile query = .ok group)
    (options : EngineOptions) (line : Line) :
    (line.request query options.mode).response = .ofRecord (line.record group options) := by
  have same := (Engine.new group (EngineOptions.ofMode options.mode)).run_eq_new
    (StringCache.faithful_new _ _) (show options.mode = options.mode from rfl) line.bytes
  unfold WorkRequest.response WorkResponse.ofRecord Line.record
  rw [show compile (line.request query options.mode).query = _ from compiled]
  simp only
  rw [show ((Engine.new group options).run line.bytes).2 = _ from same.symm]
  rfl

namespace ParallelRun

inductive Steps : Nat → ParallelRun → ParallelRun → Prop where
  | none (run : ParallelRun) : Steps 0 run run
  | more {count : Nat} {run next last : ParallelRun} (step : run.Step next)
      (later : Steps count next last) : Steps (count + 1) run last

def Ended (run : ParallelRun) : Prop :=
  run.brokenOff = true ∨ run.exhausted = true ∧ run.lines = [] ∧ run.inFlight = []

/-- Under every schedule, a run gives these items, in this order. -/
structure Yields (start : ParallelRun) (items : List (Except QueryError WorkResponse)) :
    Prop where
  inOrder : ∀ (count : Nat) (run : ParallelRun), Steps count start run → run.responses <+: items
  ends : ∀ (count : Nat) (run : ParallelRun), Steps count start run → run.Ended →
    run.responses = items
  goesOn : ∀ (count : Nat) (run : ParallelRun), Steps count start run →
    run.Ended ∨ ∃ next, run.Step next
  bounded : ∀ (count : Nat) (run : ParallelRun), Steps count start run →
    count ≤ stepBound start.source
  complete : start.complete.responses = items

/-- What holds of a run with so many steps left, if it leads to these items. -/
structure Leads (holds : Nat → ParallelRun → Prop) (items : List (Except QueryError WorkResponse)) :
    Prop where
  step : ∀ {bound run next}, holds bound run → run.Step next → ∃ less < bound, holds less next
  stuck : ∀ {bound run}, holds bound run → run.step? = none → run.Ended
  inOrder : ∀ {bound run}, holds bound run → run.responses <+: items
  ends : ∀ {bound run}, holds bound run → run.Ended → run.responses = items

variable {query : String} {mode : EmitMode} {all : List Line} {run next : ParallelRun}

/-! ### Runs -/

theorem step?_step (step : run.step? = some next) : run.Step next := by
  unfold step? at step
  split at step
  · rename_i taken
    cases step
    exact .reader taken
  · obtain ⟨pool, first, rfl⟩ := Option.map_eq_some_iff.mp step
    obtain ⟨index, -, taken⟩ := List.exists_of_findSome?_eq_some first
    exact .worker taken

section Leads

variable {holds : Nat → ParallelRun → Prop} {items : List (Except QueryError WorkResponse)}
variable {bound : Nat}

theorem Leads.steps (leads : Leads holds items) {count : Nat} {last : ParallelRun}
    (here : holds bound run) (steps : Steps count run last) :
    ∃ rest, count + rest ≤ bound ∧ holds rest last := by
  induction steps generalizing bound with
  | none run => exact ⟨bound, Nat.le_of_eq (Nat.zero_add _), here⟩
  | more step later ih =>
      obtain ⟨fewer, less, onward⟩ := leads.step here step
      obtain ⟨rest, counted, there⟩ := ih onward
      exact ⟨rest, by omega, there⟩

theorem Leads.advance (leads : Leads holds items) {enough : Nat} (here : holds bound run)
    (room : bound ≤ enough) :
    ∃ count, Steps count run (advance enough run) ∧ (advance enough run).Ended := by
  induction enough generalizing run bound with
  | zero =>
      rcases step : run.step? with _ | next
      · exact ⟨0, .none run, leads.stuck here step⟩
      · obtain ⟨fewer, less, -⟩ := leads.step here (step?_step step)
        omega
  | succ enough ih =>
      unfold ParallelRun.advance
      rcases step : run.step? with _ | next
      · exact ⟨0, .none run, leads.stuck here step⟩
      · obtain ⟨fewer, less, onward⟩ := leads.step here (step?_step step)
        obtain ⟨count, steps, ended⟩ := ih onward (by omega)
        exact ⟨count + 1, .more (step?_step step) steps, ended⟩

theorem Leads.yields (leads : Leads holds items) (start : holds bound run)
    (enough : bound ≤ stepBound run.source) : run.Yields items := by
  constructor
  case inOrder =>
    intro count last steps
    obtain ⟨rest, -, there⟩ := leads.steps start steps
    exact leads.inOrder there
  case ends =>
    intro count last steps ended
    obtain ⟨rest, -, there⟩ := leads.steps start steps
    exact leads.ends there ended
  case goesOn =>
    intro count last steps
    obtain ⟨rest, -, there⟩ := leads.steps start steps
    rcases step : last.step? with _ | next
    · exact .inl (leads.stuck there step)
    · exact .inr ⟨next, step?_step step⟩
  case bounded =>
    intro count last steps
    obtain ⟨rest, counted, -⟩ := leads.steps start steps
    omega
  case complete =>
    obtain ⟨count, steps, ended⟩ := leads.advance start enough
    obtain ⟨rest, -, there⟩ := leads.steps start steps
    exact leads.ends there ended

end Leads

/-! ### Runs on their track -/

theorem OnTrack.inOrder (track : OnTrack query mode all run) :
    run.responses <+: all.map fun line => .ok (line.request query mode).response := by
  obtain ⟨passed, flying, rfl, responses, -⟩ := track.lines
  rw [responses, List.map_append]
  exact List.prefix_append _ _

theorem OnTrack.inFlight_of_quiet (track : OnTrack query mode all run) (quiet : run.pool.Quiet)
    (waits : run.passOn? = none) : run.inFlight = [] := by
  obtain ⟨passed, flying, -, -, flight⟩ := track.lines
  rcases inFlight : run.inFlight with _ | ⟨ticket, rest⟩
  · rfl
  rw [inFlight] at flight
  obtain ⟨line, later, awaits, -, -⟩ := List.forall₂_cons_left_iff.mp flight
  rcases track.sound.conserved.mem.mpr awaits.issued with answered | pending
  · obtain ⟨answer, found⟩ := Pool.answer?_of_answered answered
    simp only [passOn?, inFlight, found, Option.map_some, reduceCtorEq] at waits
  · rw [track.sound.scheduled.quiet_pending quiet] at pending
    cases pending

theorem OnTrack.ends (track : OnTrack query mode all run) (ended : run.Ended) :
    run.responses = all.map fun line => .ok (line.request query mode).response := by
  obtain ⟨passed, flying, split, responses, flight⟩ := track.lines
  rcases ended with brokenOff | ⟨exhausted, nothing, landed⟩
  · rw [track.whole] at brokenOff
    cases brokenOff
  · rw [landed] at flight
    rw [List.forall₂_nil_left_iff.mp flight, nothing, unread, if_pos exhausted] at split
    rw [responses, split, List.append_nil, List.append_nil, List.append_nil]

theorem OnTrack.room_of_quiet (track : OnTrack query mode all run) (quiet : run.pool.Quiet)
    (waits : run.passOn? = none) : run.inFlight.length < run.window := by
  rw [track.inFlight_of_quiet quiet waits]
  exact Nat.le_max_left 1 _

theorem OnTrack.ended_of_quiet (track : OnTrack query mode all run) (quiet : run.pool.Quiet)
    (waits : run.readerStep? = none) : run.Ended := by
  unfold readerStep? at waits
  rw [track.whole, if_neg Bool.false_ne_true] at waits
  split at waits
  · by_cases room : run.inFlight.length < run.window
    · rw [if_pos room] at waits
      cases waits
    · rw [if_neg room] at waits
      exact absurd (track.room_of_quiet quiet waits) room
  · rename_i nothing
    by_cases exhausted : run.exhausted = true
    · rw [if_pos exhausted] at waits
      exact .inr ⟨exhausted, nothing, track.inFlight_of_quiet quiet waits⟩
    · rw [if_neg exhausted] at waits
      cases waits

theorem quiet_of_step? (scheduled : run.pool.Scheduled) (last : run.step? = none) :
    run.readerStep? = none ∧ run.pool.Quiet := by
  unfold step? at last
  split at last
  · cases last
  · rename_i waits
    exact ⟨waits, scheduled.quiet_of_firstStep? (Option.map_eq_none_iff.mp last)⟩

theorem OnTrack.leads (query : String) (mode : EmitMode) (all : List Line) :
    Leads (fun bound run => OnTrack query mode all run ∧ run.left ≤ bound)
      (all.map fun line => .ok (line.request query mode).response) where
  step := by
    rintro bound run next ⟨track, left⟩ step
    obtain ⟨onward, less⟩ := track.step step
    exact ⟨next.left, Nat.lt_of_lt_of_le less left, onward, Nat.le_refl _⟩
  stuck := by
    rintro bound run ⟨track, -⟩ last
    obtain ⟨waits, quiet⟩ := quiet_of_step? track.sound.scheduled last
    exact track.ended_of_quiet quiet waits
  inOrder here := here.1.inOrder
  ends here := here.1.ends

/-! ### Starting -/

theorem stepBound_eq (source : List Arrival) :
    stepBound source = source.length + 5 * ((Arrival.joined source).length + 1) + 2 := by
  have sizes (start : Nat) : source.foldl (fun count arrival => count + arrivalSize arrival) start =
      start + (Arrival.joined source).length := by
    induction source generalizing start with
    | nil => rfl
    | cons arrival rest ih =>
        rw [List.foldl_cons, ih, show Arrival.joined (arrival :: rest) =
          arrival.bytes ++ Arrival.joined rest from rfl, List.length_append]
        cases arrival <;> simp only [arrivalSize, Arrival.bytes, List.length_nil] <;> omega
  unfold stepBound
  rw [sizes, Nat.zero_add]

theorem new_onTrack {pool : Pool} (sound : pool.Sound) (live : pool.terminated = false)
    (alone : pool.pending = []) (query : String) (mode : EmitMode) {source : List Arrival}
    (unbroken : Arrival.Unbroken source) :
    OnTrack query mode (numberedLines (Arrival.joined source)) (new pool query mode source) where
  sound := sound
  live := live
  asks := rfl
  emits := rfl
  whole := rfl
  unbroken := unbroken
  own ticket pending := by
    rw [show (new pool query mode source).pool.pending = [] from alone] at pending
    cases pending
  lines := ⟨[], [], (LineFramer.ahead_new _).symm, rfl, .nil⟩

theorem new_left {pool : Pool} (alone : pool.pending = []) (query : String) (mode : EmitMode)
    (source : List Arrival) : (new pool query mode source).left ≤ stepBound source := by
  have idle := pool.work_le
  rw [alone, List.length_nil] at idle
  have lines := numberedLines_length (Arrival.joined source)
  rw [← LineFramer.ahead_new] at lines
  rw [stepBound_eq]
  show source.length + 1 + 5 * (0 + (LineFramer.new.ahead (Arrival.joined source)).length) + 0 +
    pool.work ≤ _
  omega

theorem new_yields {pool : Pool} (sound : pool.Sound) (live : pool.terminated = false)
    (alone : pool.pending = []) {query : String} {group : Group}
    (compiled : compile query = .ok group) (options : EngineOptions) {source : List Arrival}
    (unbroken : Arrival.Unbroken source) :
    (new pool query options.mode source).Yields
      (((numberedLines (Arrival.joined source)).map (Line.record group options)).map
        fun record => .ok (WorkResponse.ofRecord record)) := by
  have track := new_onTrack sound live alone query options.mode unbroken
  have items : (numberedLines (Arrival.joined source)).map
      (fun line => (.ok (line.request query options.mode).response : Except QueryError WorkResponse)) =
        ((numberedLines (Arrival.joined source)).map (Line.record group options)).map
          fun record => .ok (WorkResponse.ofRecord record) := by
    rw [List.map_map]
    apply List.map_congr_left
    intro line _
    exact congrArg Except.ok (line.response_request compiled options)
  rw [← items]
  exact (OnTrack.leads _ _ _).yields ⟨track, Nat.le_refl _⟩
    (new_left alone query options.mode source)

/-- However a source arrives and however the steps interleave, the responses are those that belong
to its records. -/
theorem yields_records {config : PoolConfig} {actions : List Pool.Action} {pool : Pool}
    (reached : (Pool.new config).replay? actions = some pool) (live : pool.terminated = false)
    (alone : pool.pending = []) {query : String} {group : Group}
    (compiled : compile query = .ok group) (options : EngineOptions) {source source' : List Arrival}
    (unbroken : Arrival.Unbroken source) (unbroken' : Arrival.Unbroken source')
    (same : Arrival.joined source = Arrival.joined source') :
    ∃ records, readRecords query options source' = .ok ⟨records, none⟩ ∧
      records.map (fun record => (WorkResponse.ofRecord record).id) =
        (numberedLines (Arrival.joined source)).map (·.number) ∧
      (new pool query options.mode source).Yields
        (records.map fun record => .ok (WorkResponse.ofRecord record)) := by
  have sound := (Pool.new_sound config).replay reached
  refine ⟨_, readRecords_record compiled options unbroken', ?_, ?_⟩
  · rw [same, List.map_map]
    apply List.map_congr_left
    intro line _
    exact WorkResponse.ofRecord_id _
  · rw [← same]
    exact new_yields sound live alone compiled options unbroken

set_option maxRecDepth 20000 in
/-- The bytes are `{"a":1}`, a blank line and the unterminated line `]`, cut in two ways. -/
theorem yields_records_unterminated :
    let cut : List Arrival :=
      [.chunk [0x7B, 0x22, 0x61, 0x22], .chunk [0x3A, 0x31, 0x7D, 0x0A, 0x20, 0x0A, 0x5D]]
    let whole : List Arrival :=
      [.chunk [0x7B, 0x22, 0x61, 0x22, 0x3A, 0x31, 0x7D, 0x0A, 0x20, 0x0A, 0x5D]]
    ∃ records, readRecords "\x7ba\x7d" (.ofMode .materialize) whole = .ok ⟨records, none⟩ ∧
      records.map (fun record => (WorkResponse.ofRecord record).id) = [1, 3] ∧
      (new (Pool.new ⟨2, 0⟩) "\x7ba\x7d" .materialize cut).Yields
        (records.map fun record => .ok (WorkResponse.ofRecord record)) := by
  intro cut whole
  have compiled : compile "\x7ba\x7d" = .ok (Group.withField .empty "a" .leaf) := rfl
  have unbroken : Arrival.Unbroken cut := Arrival.unbroken_of_chunks rfl
  have unbroken' : Arrival.Unbroken whole := Arrival.unbroken_of_chunks rfl
  obtain ⟨records, read, numbered, yields⟩ :=
    yields_records (show (Pool.new ⟨2, 0⟩).replay? [] = some (Pool.new ⟨2, 0⟩) from rfl) rfl rfl
      compiled (.ofMode .materialize) unbroken unbroken' rfl
  refine ⟨records, read, numbered.trans ?_, yields⟩
  rfl

end ParallelRun
end JsonProjection

import JsonProjection.Proofs.Pool.Parallel
import JsonProjection.Proofs.Pool.Room
import JsonProjection.Proofs.Source.Ended

/-!
Projecting lines on a pool from a source that breaks off.

Up to the failing read the run is one over the arrivals in front of it. By then a line has been
passed on for each one that did not fit into the window. The failure ends the run, and the lines in
flight are lost.
-/

namespace JsonProjection.ParallelRun

/-- What a run gives of the lines that have ended when its source breaks off. -/
def itemsUntil (query : String) (mode : EmitMode) (width : Nat) (lines : List Line)
    (reason : String) : List (Except QueryError WorkResponse) :=
  (lines.take (lines.length - width)).map (fun line => .ok (line.request query mode).response) ++
    [.error (.source reason)]

def upTo (run : ParallelRun) (source : List Arrival) : ParallelRun :=
  { run with source }

/-- A run in front of the failing read, with these chunks in between. -/
structure Nearing (query : String) (mode : EmitMode) (width : Nat) (lines : List Line)
    (reason : String) (run : ParallelRun) (chunks : List Arrival) : Prop where
  source : ∃ rest, run.source = chunks ++ .failure reason :: rest
  track : ∃ last, OnTrack query mode (lines ++ last) (run.upTo chunks) ∧
    run.framer.ahead (Arrival.joined chunks) = run.framer.ended (Arrival.joined chunks) ++ last
  more : run.exhausted = false
  steady : run.window = width
  within : run.inFlight.length ≤ width
  /-- Once a response has been passed on, the window is full, or a line waits for the one place. -/
  fills : run.latest = [] ∨ run.inFlight.length = width ∨
    run.inFlight.length + 1 = width ∧ run.lines ≠ []

/-- A run whose source breaks off, and how many steps are left to it. -/
inductive Breaking (query : String) (mode : EmitMode) (width : Nat) (lines : List Line)
    (reason : String) : Nat → ParallelRun → Prop where
  | front {bound : Nat} {run : ParallelRun} {chunks : List Arrival}
      (nearing : Nearing query mode width lines reason run chunks)
      (left : (run.upTo chunks).left ≤ bound) : Breaking query mode width lines reason bound run
  | back {bound : Nat} {run : ParallelRun} (broken : run.brokenOff = true)
      (responses : run.responses = itemsUntil query mode width lines reason)
      (sound : run.pool.Sound) (live : run.pool.terminated = false)
      (left : run.pool.work ≤ bound) : Breaking query mode width lines reason bound run

variable {query : String} {mode : EmitMode} {width : Nat} {lines : List Line} {reason : String}
variable {run next : ParallelRun} {chunks : List Arrival}

/-! ### In front of the failure -/

theorem passOn?_upTo (run : ParallelRun) (source : List Arrival) :
    (run.upTo source).passOn? = run.passOn?.map (·.upTo source) := by
  unfold passOn?
  rw [show (run.upTo source).inFlight = run.inFlight from rfl]
  cases run.inFlight with
  | nil => rfl
  | cons ticket rest =>
      simp only [Option.map_map]
      rfl

theorem window_eq (config : next.pool.config = run.pool.config) : next.window = run.window := by
  rw [window, window, Pool.capacity, Pool.capacity, config]

theorem Nearing.whole (nearing : Nearing query mode width lines reason run chunks) :
    run.brokenOff = false := by
  obtain ⟨last, track, -⟩ := nearing.track
  exact track.whole

theorem Nearing.parts (nearing : Nearing query mode width lines reason run chunks) :
    ∃ passed flying : List Line,
      lines = passed ++ (flying ++ (run.lines ++ run.framer.ended (Arrival.joined chunks))) ∧
        run.responses = passed.map (fun line => .ok (line.request query mode).response) ∧
        run.latest.length = passed.length ∧ run.inFlight.length = flying.length := by
  obtain ⟨last, track, behind⟩ := nearing.track
  obtain ⟨passed, flying, split, responses, flight⟩ := track.lines
  have unread : (run.upTo chunks).unread =
      run.framer.ended (Arrival.joined chunks) ++ last := by
    unfold ParallelRun.unread
    rw [show (run.upTo chunks).exhausted = false from nearing.more, if_neg Bool.false_ne_true]
    exact behind
  refine ⟨passed, flying, ?_, responses, ?_, flight.length_eq⟩
  · apply (List.append_left_inj last).mp
    rw [split, unread, List.append_assoc, List.append_assoc, List.append_assoc]
    rfl
  · have count := congrArg List.length responses
    rwa [List.length_map, ParallelRun.responses, List.length_reverse] at count

theorem Nearing.inOrder (nearing : Nearing query mode width lines reason run chunks) :
    run.responses <+: itemsUntil query mode width lines reason := by
  obtain ⟨passed, flying, split, responses, count, flight⟩ := nearing.parts
  -- What has been passed on made room for a line that is now in flight or about to be.
  have enough : passed.length ≤ lines.length - width := by
    rw [split, List.length_append, List.length_append, List.length_append]
    rcases nearing.fills with nothing | full | ⟨almost, waits⟩
    · rw [nothing, List.length_nil] at count
      omega
    · omega
    · have one := List.length_pos_iff.mpr waits
      omega
  rw [responses, itemsUntil]
  apply List.IsPrefix.trans _ (List.prefix_append _ _)
  apply List.IsPrefix.map
  rw [List.prefix_take_iff]
  exact ⟨⟨_, split.symm⟩, enough⟩

/-! ### Steps -/

theorem Nearing.submitLine (nearing : Nearing query mode width lines reason run chunks)
    {line : Line} {rest : List Line} (waits : run.lines = line :: rest)
    (room : run.inFlight.length < run.window) :
    Nearing query mode width lines reason (run.submitLine line rest) chunks ∧
      ((run.submitLine line rest).upTo chunks).left < (run.upTo chunks).left := by
  obtain ⟨last, track, behind⟩ := nearing.track
  obtain ⟨onward, less⟩ := track.submitLine waits room
  have submit : run.pool.step? (.submit (line.request run.query run.mode)) =
    some (run.submitLine line rest).pool := rfl
  have config : (run.submitLine line rest).pool.config = run.pool.config :=
    (track.sound.transition submit).config
  have flights : (run.submitLine line rest).inFlight.length = run.inFlight.length + 1 :=
    List.length_append
  have steady := nearing.steady
  refine ⟨?_, less⟩
  constructor
  case source => exact nearing.source
  case track => exact ⟨last, onward, behind⟩
  case more => exact nearing.more
  case steady => exact (window_eq config).trans steady
  case within => omega
  case fills =>
    rcases nearing.fills with nothing | full | ⟨almost, -⟩
    · exact .inl nothing
    · omega
    · exact .inr (.inl (flights.trans almost))

theorem Nearing.passOn (nearing : Nearing query mode width lines reason run chunks)
    (waits : run.lines ≠ []) (full : ¬run.inFlight.length < run.window)
    (step : run.passOn? = some next) :
    Nearing query mode width lines reason next chunks ∧
      (next.upTo chunks).left < (run.upTo chunks).left := by
  obtain ⟨last, track, behind⟩ := nearing.track
  have passed : (run.upTo chunks).passOn? = some (next.upTo chunks) := by
    rw [passOn?_upTo, step]
    rfl
  obtain ⟨onward, less⟩ := track.passOn passed
  have steady := nearing.steady
  have within := nearing.within
  refine ⟨?_, less⟩
  unfold passOn? at step
  rcases inFlight : run.inFlight with _ | ⟨ticket, rest⟩ <;> rw [inFlight] at step
  · cases step
  obtain ⟨answer, found, rfl⟩ := Option.map_eq_some_iff.mp step
  rw [inFlight, List.length_cons] at full within
  constructor
  case source => exact nearing.source
  case track => exact ⟨last, onward, behind⟩
  case more => exact nearing.more
  case steady => exact steady
  case within => exact Nat.le_of_succ_le within
  case fills =>
    refine .inr (.inr ⟨?_, waits⟩)
    show rest.length + 1 = _
    omega

theorem Nearing.readChunk {bytes : Bytes}
    (nearing : Nearing query mode width lines reason run (.chunk bytes :: chunks))
    (nothing : run.lines = []) :
    Nearing query mode width lines reason run.read chunks ∧
      (run.read.upTo chunks).left < (run.upTo (.chunk bytes :: chunks)).left := by
  obtain ⟨last, track, behind⟩ := nearing.track
  obtain ⟨rest, source⟩ := nearing.source
  have same : run.read = { run with
      framer := (run.framer.push bytes).1
      lines := (run.framer.push bytes).2
      source := chunks ++ .failure reason :: rest } := by
    unfold ParallelRun.read
    rw [source]
    rfl
  obtain ⟨onward, less⟩ := track.read nothing nearing.more
  rw [same]
  refine ⟨?_, less⟩
  constructor
  case source => exact ⟨rest, rfl⟩
  case track =>
    refine ⟨last, onward, ?_⟩
    -- The lines of the chunk are in front of both sides.
    apply (List.append_right_inj (run.framer.push bytes).2).mp
    rw [LineFramer.push_ahead, ← List.append_assoc, LineFramer.ended_follows.push]
    exact behind
  case more => exact nearing.more
  case steady => exact nearing.steady
  case within => exact nearing.within
  case fills =>
    rcases nearing.fills with none | full | ⟨-, waits⟩
    · exact .inl none
    · exact .inr (.inl full)
    · exact absurd nothing waits

theorem Nearing.breaksOff (nearing : Nearing query mode width lines reason run [])
    (nothing : run.lines = []) :
    run.read.brokenOff = true ∧ run.read.pool = run.pool ∧
      run.read.responses = itemsUntil query mode width lines reason := by
  obtain ⟨rest, source⟩ := nearing.source
  have same : run.read = { run with
      brokenOff := true
      latest := .error (.source reason) :: run.latest } := by
    unfold ParallelRun.read
    rw [source]
    rfl
  obtain ⟨passed, flying, split, responses, passedOn, flight⟩ := nearing.parts
  rw [nothing, show Arrival.joined [] = [] from rfl, LineFramer.ended_nil, List.append_nil,
    List.append_nil] at split
  have within := nearing.within
  have count : lines.length - width = passed.length := by
    rw [split, List.length_append]
    rcases nearing.fills with none | full | ⟨-, waits⟩
    · rw [none, List.length_nil] at passedOn
      omega
    · omega
    · exact absurd nothing waits
  rw [same]
  refine ⟨rfl, rfl, ?_⟩
  rw [itemsUntil, count, split, List.take_left, ← responses]
  exact List.reverse_cons

theorem Nearing.worker (nearing : Nearing query mode width lines reason run chunks) {index : Nat}
    {pool : Pool} (step : run.pool.workerStep? index = some pool) :
    Nearing query mode width lines reason { run with pool } chunks ∧
      (upTo { run with pool } chunks).left < (run.upTo chunks).left := by
  obtain ⟨last, track, behind⟩ := nearing.track
  obtain ⟨onward, less⟩ := track.worker step
  obtain ⟨action, -, taken⟩ := Pool.workerStep?_step step
  have config : pool.config = run.pool.config := (track.sound.transition taken).config
  refine ⟨?_, less⟩
  constructor
  case source => exact nearing.source
  case track => exact ⟨last, onward, behind⟩
  case more => exact nearing.more
  case steady => exact (window_eq config).trans nearing.steady
  case within => exact nearing.within
  case fills => exact nearing.fills

theorem Nearing.reader (nearing : Nearing query mode width lines reason run chunks)
    (step : run.readerStep? = some next) :
    ∃ less < (run.upTo chunks).left, Breaking query mode width lines reason less next := by
  unfold readerStep? at step
  rw [nearing.whole, if_neg Bool.false_ne_true] at step
  split at step
  · rename_i line rest waits
    by_cases room : run.inFlight.length < run.window
    · rw [if_pos room] at step
      cases step
      obtain ⟨onward, less⟩ := nearing.submitLine waits room
      exact ⟨_, less, .front onward (Nat.le_refl _)⟩
    · rw [if_neg room] at step
      obtain ⟨onward, less⟩ := nearing.passOn (waits ▸ List.cons_ne_nil line rest) room step
      exact ⟨_, less, .front onward (Nat.le_refl _)⟩
  · rename_i nothing
    rw [nearing.more, if_neg Bool.false_ne_true] at step
    cases step
    obtain ⟨last, track, -⟩ := nearing.track
    cases chunks with
    | nil =>
        -- This is the failing read. From here on there is only what the workers have left to do.
        obtain ⟨broken, pool, responses⟩ := nearing.breaksOff nothing
        refine ⟨run.pool.work, ?_, .back broken responses (pool ▸ track.sound) (pool ▸ track.live)
          (Nat.le_of_eq (congrArg Pool.work pool))⟩
        unfold left
        rw [show (run.upTo []).exhausted = false from nearing.more, if_neg Bool.false_ne_true]
        show run.pool.work < _ + run.pool.work
        omega
    | cons arrival chunks =>
        cases arrival with
        | failure other => exact absurd List.mem_cons_self (track.unbroken other)
        | chunk bytes =>
            obtain ⟨onward, less⟩ := nearing.readChunk nothing
            exact ⟨_, less, .front onward (Nat.le_refl _)⟩

variable {bound : Nat}

theorem Breaking.step (breaking : Breaking query mode width lines reason bound run)
    (step : run.Step next) :
    ∃ less < bound, Breaking query mode width lines reason less next := by
  cases breaking with
  | front nearing left =>
      cases step with
      | reader step =>
          obtain ⟨fewer, less, onward⟩ := nearing.reader step
          exact ⟨fewer, Nat.lt_of_lt_of_le less left, onward⟩
      | worker step =>
          obtain ⟨onward, less⟩ := nearing.worker step
          exact ⟨_, Nat.lt_of_lt_of_le less left, .front onward (Nat.le_refl _)⟩
  | back broken responses sound live left =>
      cases step with
      | reader step =>
          rw [readerStep?, if_pos broken] at step
          cases step
      | worker step =>
          obtain ⟨action, own, taken⟩ := Pool.workerStep?_step step
          have advances := (sound.transition taken).advances own live
          exact ⟨_, Nat.lt_of_lt_of_le advances.less left,
            .back broken responses (sound.step taken) advances.live (Nat.le_refl _)⟩

/-! ### Endings -/

theorem Nearing.reads_on (nearing : Nearing query mode width lines reason run chunks)
    (quiet : run.pool.Quiet) : run.readerStep? ≠ none := by
  intro waits
  unfold readerStep? at waits
  rw [nearing.whole, if_neg Bool.false_ne_true] at waits
  split at waits
  · by_cases room : run.inFlight.length < run.window
    · rw [if_pos room] at waits
      cases waits
    · rw [if_neg room] at waits
      obtain ⟨last, track, -⟩ := nearing.track
      apply room
      apply track.room_of_quiet quiet
      rw [passOn?_upTo, waits, Option.map_none]
  · rw [nearing.more, if_neg Bool.false_ne_true] at waits
    cases waits

theorem Nearing.not_stuck (nearing : Nearing query mode width lines reason run chunks) :
    run.step? ≠ none := by
  intro stuck
  obtain ⟨last, track, -⟩ := nearing.track
  have scheduled : run.pool.Scheduled := track.sound.scheduled
  obtain ⟨waits, quiet⟩ := quiet_of_step? scheduled stuck
  exact nearing.reads_on quiet waits

theorem Nearing.not_ended (nearing : Nearing query mode width lines reason run chunks) :
    ¬run.Ended := by
  rintro (broken | ⟨exhausted, -⟩)
  · exact Bool.false_ne_true (nearing.whole.symm.trans broken)
  · exact Bool.false_ne_true (nearing.more.symm.trans exhausted)

theorem Breaking.leads (query : String) (mode : EmitMode) (width : Nat) (lines : List Line)
    (reason : String) : Leads (Breaking query mode width lines reason)
      (itemsUntil query mode width lines reason) where
  step breaking step := breaking.step step
  stuck breaking last := by
    cases breaking with
    | front nearing left => exact absurd last nearing.not_stuck
    | back broken responses sound live left => exact .inl broken
  inOrder breaking := by
    cases breaking with
    | front nearing left => exact nearing.inOrder
    | back broken responses sound live left => exact responses ▸ List.prefix_rfl
  ends breaking ended := by
    cases breaking with
    | front nearing left => exact absurd ended nearing.not_ended
    | back broken responses sound live left => exact responses

/-! ### Starting -/

theorem new_nearing {pool : Pool} (sound : pool.Sound) (live : pool.terminated = false)
    (alone : pool.pending = []) (query : String) (mode : EmitMode) {front : List Arrival}
    (unbroken : Arrival.Unbroken front) (reason : String) (rest : List Arrival) :
    Nearing query mode (max 1 pool.capacity) (endedLines (Arrival.joined front)) reason
      (new pool query mode (front ++ .failure reason :: rest)) front where
  source := ⟨rest, rfl⟩
  track := by
    obtain ⟨last, behind⟩ := LineFramer.new.ahead_ended (Arrival.joined front)
    refine ⟨last, ?_, behind⟩
    rw [← LineFramer.ended_new, ← behind, LineFramer.ahead_new]
    exact new_onTrack sound live alone query mode unbroken
  more := rfl
  steady := rfl
  within := Nat.zero_le _
  fills := .inl rfl

/-- Of a source that breaks off, the responses to all lines that have ended are given, in order, but
for the last ones, as many as may be in flight. One reader of records gives them all. -/
theorem yields_until_failure {config : PoolConfig} {actions : List Pool.Action} {pool : Pool}
    (reached : (Pool.new config).replay? actions = some pool) (live : pool.terminated = false)
    (alone : pool.pending = []) (query : String) (options : EngineOptions)
    {front front' : List Arrival} (unbroken : Arrival.Unbroken front)
    (unbroken' : Arrival.Unbroken front') (same : Arrival.joined front = Arrival.joined front')
    (reason : String) (rest rest' : List Arrival) :
    let lines := endedLines (Arrival.joined front)
    (new pool query options.mode (front ++ .failure reason :: rest)).Yields
        (itemsUntil query options.mode (max 1 pool.capacity) lines reason) ∧
      ∀ group, compile query = .ok group → ∃ records,
        readRecords query options (front' ++ .failure reason :: rest') =
          .ok ⟨records, some (.source reason)⟩ ∧
        records.map WorkResponse.ofRecord =
          lines.map fun line => (line.request query options.mode).response := by
  intro lines
  have sound := (Pool.new_sound config).replay reached
  constructor
  · have nearing := new_nearing sound live alone query options.mode unbroken reason rest
    apply (Breaking.leads _ _ _ _ _).yields (.front nearing (Nat.le_refl _))
    have bound := new_left alone query options.mode front
    rw [stepBound_eq] at bound ⊢
    show (new pool query options.mode front).left ≤
      (front ++ .failure reason :: rest).length + _ + _
    rw [show (new pool query options.mode _).source = front ++ .failure reason :: rest from rfl,
      Arrival.joined_append, List.length_append, List.length_append]
    omega
  · intro group compiled
    refine ⟨_, readRecords_broken compiled options unbroken' reason rest', ?_⟩
    rw [← same, List.map_map]
    apply List.map_congr_left
    intro line _
    exact (line.response_request compiled options).symm

set_option maxRecDepth 20000 in
/-- Two lines have ended and a third has not, when the source breaks off. One worker and no queue
leave one request in flight. -/
theorem yields_until_failure_unqueued :
    let front : List Arrival := [.chunk [0x31, 0x0A, 0x32, 0x0A], .chunk [0x33]]
    let front' : List Arrival := [.chunk [0x31, 0x0A, 0x32, 0x0A, 0x33]]
    (new (Pool.new ⟨1, 0⟩) "\x7ba\x7d" .materialize (front ++ [.failure "gone"])).Yields
        [.ok ⟨1, some (.integer 1), [], none⟩, .error (.source "gone")] ∧
      ∃ records, readRecords "\x7ba\x7d" (.ofMode .materialize) (front' ++ [.failure "gone"]) =
          .ok ⟨records, some (.source "gone")⟩ ∧
        records.map (fun record => (WorkResponse.ofRecord record).id) = [1, 2] := by
  intro front front'
  have compiled : compile "\x7ba\x7d" = .ok (Group.withField .empty "a" .leaf) := rfl
  have unbroken : Arrival.Unbroken front := Arrival.unbroken_of_chunks rfl
  have unbroken' : Arrival.Unbroken front' := Arrival.unbroken_of_chunks rfl
  obtain ⟨yields, records⟩ :=
    yields_until_failure (show (Pool.new ⟨1, 0⟩).replay? [] = some (Pool.new ⟨1, 0⟩) from rfl) rfl
      rfl "\x7ba\x7d" (.ofMode .materialize) unbroken unbroken' rfl "gone" [] []
  obtain ⟨records, read, responses⟩ := records _ compiled
  have ids := congrArg (List.map WorkResponse.id) responses
  rw [List.map_map] at ids
  exact ⟨yields, records, read, ids⟩

/-- Not all lines that have ended get their responses: one that is in flight is lost. -/
theorem breakage_misses :
    ¬∀ (config : PoolConfig) (query : String) (mode : EmitMode) (front : List Arrival)
        (reason : String), Arrival.Unbroken front →
      (new (Pool.new config) query mode (front ++ [.failure reason])).Yields
        ((endedLines (Arrival.joined front)).map
            (fun line => .ok (line.request query mode).response) ++ [.error (.source reason)]) := by
  intro all
  let front : List Arrival := [.chunk [0x7B, 0x22, 0x69, 0x64, 0x22, 0x3A, 0x31, 0x7D, 0x0A]]
  have unbroken : Arrival.Unbroken front := Arrival.unbroken_of_chunks rfl
  have yields := all ⟨1, 0⟩ "\x7bid\x7d" .materialize front "boom" unbroken
  exact absurd (congrArg List.length yields.complete) (by decide +kernel)

end JsonProjection.ParallelRun

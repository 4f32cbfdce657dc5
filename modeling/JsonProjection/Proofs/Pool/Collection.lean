import JsonProjection.Pool.Parallel
import JsonProjection.Proofs.Pool.Progress
import JsonProjection.Proofs.Source.Framing

/-!
A run over the lines of a source stays on its track.

At any time the lines fall into those whose responses have been passed on, those in flight, those
that wait and those unread, in this order. Each ticket in flight stands for its line. The run has
the pool to itself, so the window keeps the requests below what the pool takes. Every step
leaves the reader and the workers together less to do.
-/

namespace JsonProjection

def Line.request (query : String) (mode : EmitMode) (line : Line) : WorkRequest :=
  ⟨line.number, line.bytes, query, mode⟩

namespace ParallelRun

inductive Step (run : ParallelRun) : ParallelRun → Prop where
  | reader {next : ParallelRun} (step : run.readerStep? = some next) : Step run next
  | worker {index : Nat} {pool : Pool} (step : run.pool.workerStep? index = some pool) :
      Step run { run with pool }

structure Awaits (query : String) (mode : EmitMode) (pool : Pool) (ticket : Nat) (line : Line) :
    Prop where
  issued : ticket < pool.nextTicket
  stands : pool.Stands ticket (line.request query mode)

def unread (run : ParallelRun) : List Line :=
  if run.exhausted then [] else run.framer.ahead (Arrival.joined run.source)

structure OnTrack (query : String) (mode : EmitMode) (all : List Line) (run : ParallelRun) :
    Prop where
  sound : run.pool.Sound
  live : run.pool.terminated = false
  asks : run.query = query
  emits : run.mode = mode
  whole : run.brokenOff = false
  unbroken : Arrival.Unbroken run.source
  own : ∀ ticket ∈ run.pool.pending, ticket ∈ run.inFlight
  lines : ∃ passed flying : List Line,
    all = passed ++ (flying ++ (run.lines ++ run.unread)) ∧
      run.responses = passed.map (fun line => .ok (line.request query mode).response) ∧
      List.Forall₂ (Awaits query mode run.pool) run.inFlight flying

def left (run : ParallelRun) : Nat :=
  run.source.length + (if run.exhausted then 0 else 1) +
    5 * (run.lines.length + run.unread.length) + run.inFlight.length + run.pool.work

variable {query : String} {mode : EmitMode} {all : List Line} {run next : ParallelRun}

/-! ### The pool -/

theorem Awaits.step {pool next : Pool} {ticket : Nat} {line : Line} {action : Pool.Action}
    (awaits : Awaits query mode pool ticket line) (sound : pool.Sound)
    (step : pool.step? action = some next) (onward : action ≠ .stop) :
    Awaits query mode next ticket line where
  issued := Nat.lt_of_lt_of_le awaits.issued (sound.transition step).issued
  stands := (sound.transition step).stands sound.ready awaits.stands
    (fun _ _ same => absurd same (Nat.ne_of_lt awaits.issued)) fun stop => onward stop.1

theorem OnTrack.accepts (track : OnTrack query mode all run)
    (room : run.inFlight.length < run.window) : run.pool.refusal? = none := by
  apply track.sound.scheduled.accepts track.live
  have distinct : run.pool.pending.Nodup :=
    (List.nodup_append.mp track.sound.conserved.nodup).2.1
  have fewer : run.pool.pending.length ≤ run.inFlight.length :=
    (distinct.subperm fun ticket pending => track.own ticket pending).length_le
  have manned := track.sound.scheduled.manned
  unfold window Pool.capacity at room
  unfold Pool.capacity
  omega

theorem OnTrack.submitLine (track : OnTrack query mode all run) {line : Line} {rest : List Line}
    (waits : run.lines = line :: rest) (room : run.inFlight.length < run.window) :
    OnTrack query mode all (run.submitLine line rest) ∧
      (run.submitLine line rest).left < run.left := by
  have submit : run.pool.step? (.submit (line.request run.query run.mode)) =
    some (run.submitLine line rest).pool := rfl
  have accepted := track.accepts room
  have submission := track.sound.transition submit
  have issued : (run.submitLine line rest).pool.nextTicket = run.pool.nextTicket + 1 :=
    submission.submit_issued
  have soundBehind := track.sound.step submit
  obtain ⟨passed, flying, split, responses, flight⟩ := track.lines
  constructor
  · constructor
    case sound => exact soundBehind
    case live => exact submission.submit_live track.live
    case asks => exact track.asks
    case emits => exact track.emits
    case whole => exact track.whole
    case unbroken => exact track.unbroken
    case own =>
      intro ticket pending
      apply List.mem_append.mpr
      have given := soundBehind.conserved.mem.mp (.inr pending)
      rw [issued] at given
      rcases Nat.lt_succ_iff_lt_or_eq.mp given with old | rfl
      · exact .inl (track.own ticket (track.sound.pending_of_step submit pending old))
      · exact .inr (List.mem_singleton_self _)
    case lines =>
      refine ⟨passed, flying ++ [line], ?_, responses, ?_⟩
      · rw [split, waits, List.append_assoc]
        rfl
      · apply List.rel_append
        · exact flight.imp fun ticket line awaits =>
            awaits.step track.sound submit fun stop => by cases stop
        · refine .cons ⟨issued ▸ Nat.lt_succ_self _, ?_⟩ .nil
          rw [← track.asks, ← track.emits]
          exact track.sound.submit_stands accepted
  · have work := submission.submit_work
    have flights : (run.submitLine line rest).inFlight.length = run.inFlight.length + 1 :=
      List.length_append
    show run.source.length + _ + 5 * (rest.length + run.unread.length) + _ + _ < run.left
    rw [left, waits, List.length_cons, flights]
    show _ + (if run.exhausted then 0 else 1) + _ + _ + _ < _
    omega

theorem OnTrack.passOn (track : OnTrack query mode all run) (step : run.passOn? = some next) :
    OnTrack query mode all next ∧ next.left < run.left := by
  unfold passOn? at step
  rcases inFlight : run.inFlight with _ | ⟨ticket, rest⟩ <;> rw [inFlight] at step
  · cases step
  obtain ⟨answer, found, rfl⟩ := Option.map_eq_some_iff.mp step
  obtain ⟨passed, flying, split, responses, flight⟩ := track.lines
  have present := Pool.mem_of_answer? found
  rw [inFlight] at flight
  rcases List.forall₂_cons_left_iff.mp flight with ⟨line, later, awaits, others, rfl⟩
  obtain rfl := awaits.stands.replied answer present
  constructor
  · constructor
    case sound => exact track.sound
    case live => exact track.live
    case asks => exact track.asks
    case emits => exact track.emits
    case whole => exact track.whole
    case unbroken => exact track.unbroken
    case own =>
      intro other pending
      have flies := track.own other pending
      rw [inFlight] at flies
      rcases List.mem_cons.mp flies with rfl | flies
      · exact absurd pending (track.sound.conserved.apart (List.mem_map_of_mem present))
      · exact flies
    case lines =>
      refine ⟨passed ++ [line], later, ?_, ?_, others⟩
      · rw [split, List.append_assoc]
        rfl
      · rw [List.map_append, ← responses]
        exact List.reverse_cons
  · simp only [left, unread, inFlight, List.length_cons]
    omega

/-! ### Reading -/

theorem OnTrack.read (track : OnTrack query mode all run) (nothing : run.lines = [])
    (more : run.exhausted = false) :
    OnTrack query mode all run.read ∧ run.read.left < run.left := by
  obtain ⟨passed, flying, split, responses, flight⟩ := track.lines
  have unread : run.unread = run.framer.ahead (Arrival.joined run.source) := by
    rw [ParallelRun.unread, more, if_neg Bool.false_ne_true]
  rcases source : run.source with _ | ⟨arrival, rest⟩
  · have same : run.read = { run with
        framer := run.framer.finish.1
        lines := run.framer.finish.2.toList
        exhausted := true } := by
      unfold ParallelRun.read
      rw [source]
    have last : run.framer.ahead (Arrival.joined []) = run.framer.finish.2.toList :=
      run.framer.ahead_nil
    rw [same]
    constructor
    · refine ⟨track.sound, track.live, track.asks, track.emits, track.whole, track.unbroken,
        track.own, passed, flying, ?_, responses, flight⟩
      rw [split, nothing, unread, source, last]
      simp only [ParallelRun.unread, if_true, List.append_nil, List.nil_append]
    · simp only [left, more, nothing, source, last, ParallelRun.unread, if_true,
        Bool.false_eq_true, if_false, List.length_nil]
      omega
  · cases arrival with
    | failure reason =>
        exact absurd (source ▸ List.mem_cons_self) (track.unbroken reason)
    | chunk chunk =>
        have same : run.read = { run with
            framer := (run.framer.push chunk).1
            lines := (run.framer.push chunk).2
            source := rest } := by
          unfold ParallelRun.read
          rw [source]
        have parts : run.framer.ahead (Arrival.joined (.chunk chunk :: rest)) =
            (run.framer.push chunk).2 ++ (run.framer.push chunk).1.ahead (Arrival.joined rest) :=
          (run.framer.push_ahead chunk (Arrival.joined rest)).symm
        have unbroken := track.unbroken
        rw [source] at unbroken
        rw [same]
        constructor
        · refine ⟨track.sound, track.live, track.asks, track.emits, track.whole, unbroken.rest,
            track.own, passed, flying, ?_, responses, flight⟩
          rw [split, nothing, unread, source, parts]
          simp only [ParallelRun.unread, more, Bool.false_eq_true, if_false, List.nil_append]
        · simp only [left, more, nothing, parts, source, ParallelRun.unread, Bool.false_eq_true,
            if_false, List.length_nil, List.length_append, List.length_cons]
          omega

/-! ### Steps -/

theorem OnTrack.reader (track : OnTrack query mode all run)
    (step : run.readerStep? = some next) : OnTrack query mode all next ∧ next.left < run.left := by
  unfold readerStep? at step
  rw [track.whole, if_neg Bool.false_ne_true] at step
  split at step
  · rename_i line rest waits
    by_cases room : run.inFlight.length < run.window
    · rw [if_pos room] at step
      cases step
      exact track.submitLine waits room
    · rw [if_neg room] at step
      exact track.passOn step
  · rename_i nothing
    by_cases exhausted : run.exhausted = true
    · rw [if_pos exhausted] at step
      exact track.passOn step
    · rw [if_neg exhausted] at step
      cases step
      exact track.read nothing (Bool.not_eq_true _ ▸ exhausted)

theorem OnTrack.worker (track : OnTrack query mode all run) {index : Nat} {pool : Pool}
    (step : run.pool.workerStep? index = some pool) :
    OnTrack query mode all { run with pool } ∧ left { run with pool } < run.left := by
  obtain ⟨action, own, taken⟩ := Pool.workerStep?_step step
  have advances := (track.sound.transition taken).advances own track.live
  obtain ⟨passed, flying, split, responses, flight⟩ := track.lines
  constructor
  · constructor
    case sound => exact track.sound.step taken
    case live => exact advances.live
    case asks => exact track.asks
    case emits => exact track.emits
    case whole => exact track.whole
    case unbroken => exact track.unbroken
    case own =>
      intro ticket pending
      have given := (track.sound.step taken).conserved.mem.mp (.inr pending)
      rw [advances.issued] at given
      exact track.own ticket (track.sound.pending_of_step taken pending given)
    case lines =>
      refine ⟨passed, flying, split, responses, flight.imp fun ticket line awaits => ?_⟩
      exact awaits.step track.sound taken fun stop => by
        rw [stop] at own
        cases own
  · have less := advances.less
    simp only [left, unread]
    omega

theorem OnTrack.step (track : OnTrack query mode all run) (step : run.Step next) :
    OnTrack query mode all next ∧ next.left < run.left := by
  cases step with
  | reader step => exact track.reader step
  | worker step => exact track.worker step

end ParallelRun
end JsonProjection

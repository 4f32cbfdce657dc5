import JsonProjection.Proofs.Pool.Order

/-!
A stop divides the requests of a pool.

Those that wait in the queue are answered at once that the pool was stopped, and no worker ever gets
them. Those that a worker has, in its box, in its hands or answered but not yet replied to, are
still carried out. All later ones are refused. The workers come to an end of their own accord, and
further stops change nothing.
-/

namespace JsonProjection.Pool

def Action.request? : Action → Option WorkRequest
  | .submit request => some request
  | _ => none

/-- The requests that are submitted, in order; their tickets count them. -/
def submissions (actions : List Action) : List WorkRequest :=
  actions.filterMap Action.request?

def inWork (pool : Pool) : List Nat :=
  pool.workers.flatMap Worker.tickets

def AtRest (pool : Pool) : Prop :=
  ∀ action index, action.worker? = some index → pool.step? action = none

/-- What becomes of the requests when a pool is stopped that has come from `front` to `before`, and
the steps `back` follow. -/
structure WindsUp (front : List Action) (before : Pool) (back : List Action) (after : Pool) :
    Prop where
  stranded : ∀ ticket ∈ before.waiting,
    after.answersTo ticket = [.error .terminated] ∧ ticket ∉ after.inWork
  carriedOut : ∀ ticket ∈ before.inWork, ∃ request, (submissions front)[ticket]? = some request ∧
    (∀ answer ∈ after.answersTo ticket, answer = .ok request.response) ∧
    (after.Quiet → after.answersTo ticket = [.ok request.response])
  refused : ∀ ticket, before.nextTicket ≤ ticket → ticket < after.nextTicket →
    after.answersTo ticket = [.error .terminated]
  empty : after.queue = []
  /-- No worker has a request that it did not have before the stop. -/
  own : before.OnlyOwn after
  /-- Workers take a bounded number of steps, and then they have left. -/
  bounded : (back.filter fun action => action.worker?.isSome).length ≤
    3 * before.inWork.length + before.config.size
  exited : after.AtRest → ∀ worker ∈ after.workers, worker.phase = .exited
  answered : ∀ ticket ∈ before.answered, after.answersTo ticket = before.answersTo ticket
  again : after.stop = after ∧ before.stop.replay? (back.filter (· ≠ .stop)) = some after

variable {pool next last : Pool}

/-! ### Tickets count submissions -/

theorem Transition.issued_eq {action : Action} (step : Transition pool action next) :
    next.nextTicket = pool.nextTicket + action.request?.toList.length := by
  cases step <;> rfl

theorem submissions_cons (action : Action) (rest : List Action) :
    submissions (action :: rest) = action.request?.toList ++ submissions rest := by
  cases action <;> rfl

theorem Sound.exists_submission {actions : List Action} (sound : pool.Sound)
    (run : pool.replay? actions = some last) {ticket : Nat} (late : pool.nextTicket ≤ ticket)
    (issued : ticket < last.nextTicket) :
    ∃ front request back middle, pool.replay? front = some middle ∧
      middle.nextTicket = ticket ∧ (middle.submit request).replay? back = some last ∧
      (submissions actions)[ticket - pool.nextTicket]? = some request := by
  induction actions generalizing pool with
  | nil =>
      cases run
      exact absurd issued (Nat.not_lt_of_le late)
  | cons action rest ih =>
      obtain ⟨next, step, later⟩ := replay?_cons run
      have more := (sound.transition step).issued_eq
      rw [submissions_cons]
      by_cases given : next.nextTicket ≤ ticket
      · obtain ⟨front, request, back, middle, reached, same, onward, named⟩ :=
          ih (sound.step step) later given
        refine ⟨action :: front, request, back, middle, ?_, same, onward, ?_⟩
        · rw [replay?, step]
          exact reached
        · rw [List.getElem?_append_right (by omega), ← named]
          congr 1
          omega
      · -- The step itself gives the ticket out.
        cases action with
        | submit request =>
            cases step
            rw [show (Action.submit request).request?.toList.length = 1 from rfl] at more
            have same : pool.nextTicket = ticket := by omega
            refine ⟨[], request, rest, pool, rfl, same, later, ?_⟩
            rw [same, Nat.sub_self]
            rfl
        | stop => exact absurd (Nat.le_trans (Nat.le_of_eq more) late) given
        | receive index => exact absurd (Nat.le_trans (Nat.le_of_eq more) late) given
        | claim index => exact absurd (Nat.le_trans (Nat.le_of_eq more) late) given
        | reply index => exact absurd (Nat.le_trans (Nat.le_of_eq more) late) given
        | exit index => exact absurd (Nat.le_trans (Nat.le_of_eq more) late) given

theorem pending_stands {config : PoolConfig} {actions : List Action}
    (reached : (new config).replay? actions = some pool) {ticket : Nat}
    (pending : ticket ∈ pool.pending) :
    ∃ request, (submissions actions)[ticket]? = some request ∧ pool.Stands ticket request := by
  have start := new_sound config
  have sound := start.replay reached
  have issued := sound.conserved.mem.mp (.inr pending)
  have unanswered (answer : Except PoolError WorkResponse) : (ticket, answer) ∉ pool.answers :=
    fun present => sound.conserved.apart (List.mem_map_of_mem present) pending
  obtain ⟨front, request, back, middle, there, rfl, onward, named⟩ :=
    start.exists_submission reached (Nat.zero_le _) issued
  have soundMiddle := start.replay there
  have submit : middle.step? (.submit request) = some (middle.submit request) := rfl
  have submission := soundMiddle.transition submit
  have soundBehind := soundMiddle.step submit
  have accepted : middle.refusal? = none := by
    rcases refusal : middle.refusal? with _ | error
    · rfl
    · have present := soundBehind.replay_mem_answers onward (submission.submit_refused refusal)
      exact absurd present (unanswered _)
  refine ⟨request, named, ?_⟩
  apply soundBehind.replay_stands _ (soundMiddle.submit_stands accepted) _ onward
  · rw [submission.submit_issued]
    exact Nat.lt_succ_self _
  · intro strands
    exact unanswered _ (soundBehind.replay_strands strands onward)

/-! ### Behind a stop -/

theorem Transition.of_stop (step : Transition pool .stop next) : next.terminated = true ∧
    next.workers = pool.workers ∧ next.nextTicket = pool.nextTicket := by
  cases step with
  | stopped live => exact ⟨rfl, rfl, rfl⟩
  | still stopped => exact ⟨stopped, rfl, rfl⟩

theorem stop_of_terminated (stopped : pool.terminated = true) : pool.stop = pool :=
  if_pos stopped

theorem Transition.spends {action : Action} (step : Transition pool action next)
    (stopped : pool.terminated = true) :
    (if action.worker?.isSome then 1 else 0) + next.work + next.presence ≤
      pool.work + pool.presence := by
  cases own : action.worker? with
  | some index =>
      rw [Option.isSome_some, if_pos rfl]
      rcases step.lessens own with ⟨less, same⟩ | ⟨-, same, less⟩ <;> omega
  | none =>
      rw [Option.isSome_none, if_neg Bool.false_ne_true, Nat.zero_add]
      cases step with
      | refused request refusal => exact Nat.le_refl _
      | handed request live idle found => exact absurd (live.symm.trans stopped) Bool.false_ne_true
      | queued request live busy room => exact absurd (live.symm.trans stopped) Bool.false_ne_true
      | stopped live => exact absurd (live.symm.trans stopped) Bool.false_ne_true
      | still stopped => exact Nat.le_refl _
      | received found => cases own
      | claimed found live waits => cases own
      | rested found nothing => cases own
      | replied found => cases own
      | left stopped found => cases own

/-- Where a run of a stopped pool leads: it stays stopped, no worker gets a request, and the steps
of the workers use up what is left to do. -/
structure Winding (pool : Pool) (actions : List Action) (last : Pool) : Prop where
  stopped : last.terminated = true
  own : pool.OnlyOwn last
  spent : (actions.filter fun action => action.worker?.isSome).length + last.work + last.presence ≤
    pool.work + pool.presence

theorem Sound.winding {actions : List Action} (sound : pool.Sound)
    (stopped : pool.terminated = true) (run : pool.replay? actions = some last) :
    pool.Winding actions last := by
  induction actions generalizing pool with
  | nil =>
      cases run
      constructor
      case stopped => exact stopped
      case own => exact .of_same rfl
      case spent =>
        rw [List.filter_nil, List.length_nil, Nat.zero_add]
  | cons action rest ih =>
      obtain ⟨next, step, later⟩ := replay?_cons run
      have transition := sound.transition step
      have halted := transition.stays_stopped stopped
      have winding := ih (sound.step step) halted later
      constructor
      case stopped => exact winding.stopped
      case own => exact ((sound.passage step).stopped halted).2.trans winding.own
      case spent =>
        have first := transition.spends stopped
        have others := winding.spent
        rw [List.filter_cons]
        split
        · rename_i own
          rw [if_pos own] at first
          rw [List.length_cons]
          omega
        · rename_i other
          rw [if_neg other] at first
          omega

theorem Sound.not_strands {actions : List Action} (sound : pool.Sound)
    (stopped : pool.terminated = true) (ticket : Nat) : ¬pool.Strands ticket actions := by
  induction actions generalizing pool with
  | nil => exact id
  | cons action rest ih =>
      rintro (⟨-, live, -⟩ | ⟨next, step, strands⟩)
      · exact absurd (live.symm.trans stopped) Bool.false_ne_true
      · exact ih (sound.step step) ((sound.transition step).stays_stopped stopped) strands

theorem Sound.replay_without_stops {actions : List Action} (sound : pool.Sound)
    (stopped : pool.terminated = true) :
    pool.replay? (actions.filter (· ≠ .stop)) = pool.replay? actions := by
  induction actions generalizing pool with
  | nil => rfl
  | cons action rest ih =>
      by_cases again : action = .stop
      · subst again
        rw [List.filter_cons_of_neg (by decide), ih sound stopped, replay?]
        rw [show pool.step? .stop = some pool.stop from rfl, stop_of_terminated stopped]
        rfl
      · rw [List.filter_cons, if_pos (decide_eq_true again), replay?, replay?]
        rcases step : pool.step? action with _ | next
        · rfl
        · exact ih (sound.step step) ((sound.transition step).stays_stopped stopped)

theorem presence_le (pool : Pool) : pool.presence ≤ pool.workers.length := by
  have each (worker : Worker) : worker.presence ≤ 1 := by
    obtain ⟨box, phase, desk⟩ := worker
    cases phase <;> simp only [Worker.presence, Phase.presence, Nat.zero_le, Nat.le_refl]
  rw [presence]
  induction pool.workers with
  | nil => exact Nat.le_refl 0
  | cons worker rest ih =>
      have own := each worker
      rw [List.map_cons, List.sum_cons, List.length_cons]
      omega

theorem AtRest.exited (rest : pool.AtRest) (stopped : pool.terminated = true) (worker : Worker)
    (present : worker ∈ pool.workers) : worker.phase = .exited := by
  obtain ⟨index, found⟩ := List.mem_iff_getElem?.mp present
  obtain ⟨box, phase, desk⟩ := worker
  cases phase with
  | waiting =>
      cases box with
      | nil =>
          have still := rest (.exit index) index rfl
          simp only [step?, exit?, stopped, found, reduceCtorEq] at still
      | cons task boxed =>
          have still := rest (.receive index) index rfl
          simp only [step?, receive?, found, reduceCtorEq] at still
  | running task =>
      have still := rest (.claim index) index rfl
      simp only [step?, claim?, stopped, found] at still
      cases still
  | replying ticket response next? =>
      have still := rest (.reply index) index rfl
      simp only [step?, reply?, found, reduceCtorEq] at still
  | exited => rfl

theorem quiet_of_presence (left : pool.presence = 0) : pool.Quiet := by
  intro index
  rcases found : pool.workers[index]? with _ | worker
  · simp only [receive?, claim?, reply?, found, and_self]
  · have absent : worker.presence = 0 :=
      List.sum_eq_zero_iff_forall_eq_nat.mp left _
        (List.mem_map_of_mem (List.mem_of_getElem? found))
    obtain ⟨box, phase, desk⟩ := worker
    cases phase with
    | exited => simp only [receive?, claim?, reply?, found, and_self]
    | _ => cases absent

/-! ### The two sides -/

/-- A stop answers the requests in the queue, and workers carry out those that they have; each
request is on one side, whatever comes in between and behind. -/
theorem stop_winds_up {config : PoolConfig} {front back : List Action} {before after : Pool}
    (reached : (new config).replay? front = some before)
    (run : before.stop.replay? back = some after) : WindsUp front before back after := by
  have sound := (new_sound config).replay reached
  have stop : before.step? .stop = some before.stop := rfl
  have soundStop := sound.step stop
  have whole : before.replay? (.stop :: back) = some after := run
  have soundAfter := soundStop.replay run
  obtain ⟨stopped, workers, issued⟩ := (before.stop_transition).of_stop
  have winding := soundStop.winding stopped run
  have apart := (List.nodup_append.mp (List.nodup_append.mp sound.conserved.nodup).2.1).2.2
  constructor
  case stranded =>
    intro ticket waits
    have live : before.terminated = false := by
      cases stopped : before.terminated with
      | false => rfl
      | true =>
          rw [waiting, sound.scheduled.drained stopped] at waits
          cases waits
    have strands : before.Strands ticket (.stop :: back) := Or.inl ⟨rfl, live, waits⟩
    have answer := sound.replay_strands strands whole
    refine ⟨soundAfter.answersTo_eq answer, fun held => ?_⟩
    exact soundAfter.conserved.apart (List.mem_map_of_mem answer) (List.mem_append_right _ held)
  case carriedOut =>
    intro ticket held
    have pending : ticket ∈ before.pending := List.mem_append_right _ held
    obtain ⟨request, named, stands⟩ := pending_stands reached pending
    have given := sound.conserved.mem.mp (.inr pending)
    have carried : ¬before.Strands ticket (.stop :: back) := by
      rintro (⟨-, -, waits⟩ | ⟨next, same, strands⟩)
      · exact apart ticket waits ticket held rfl
      · cases same
        exact soundStop.not_strands stopped ticket strands
    have onward := sound.replay_stands given stands carried whole
    refine ⟨request, named, fun answer present => onward.replied _ (mem_answersTo.mp present), ?_⟩
    intro quiet
    have due := soundAfter.conserved.mem.mpr
      (Nat.lt_of_lt_of_le given (sound.replay_issued whole))
    rw [soundAfter.scheduled.quiet_pending quiet, or_iff_left List.not_mem_nil] at due
    obtain ⟨answer, found⟩ := answer?_of_answered due
    have present := mem_of_answer? found
    rw [soundAfter.answersTo_eq present, onward.replied answer present]
  case refused =>
    intro ticket late given
    obtain ⟨early, request, onward, middle, there, rfl, later, -⟩ :=
      soundStop.exists_submission run (issued ▸ late) given
    have soundMiddle := soundStop.replay there
    have halted := (soundStop.winding stopped there).stopped
    have submit : middle.step? (.submit request) = some (middle.submit request) := rfl
    have refusal : middle.refusal? = some .terminated := if_pos halted
    have present := (soundMiddle.transition submit).submit_refused refusal
    exact soundAfter.answersTo_eq ((soundMiddle.step submit).replay_mem_answers later present)
  case empty => exact soundAfter.scheduled.drained winding.stopped
  case own => exact OnlyOwn.trans (.of_same workers) winding.own
  case bounded =>
    have spent := winding.spent
    have work := before.stop.work_le
    have presence := before.stop.presence_le
    -- What is pending behind the stop is in the hands of workers.
    have idle : before.stop.pending = before.inWork := by
      rw [pending, soundStop.scheduled.drained stopped, workers]
      rfl
    rw [idle] at work
    rw [workers, sound.scheduled.size] at presence
    omega
  case exited => exact fun rest => rest.exited winding.stopped
  case answered =>
    intro ticket answered
    obtain ⟨entry, present, rfl⟩ := List.mem_map.mp answered
    have kept := sound.replay_mem_answers whole present
    rw [soundAfter.answersTo_eq kept, sound.answersTo_eq present]
  case again =>
    refine ⟨stop_of_terminated winding.stopped, ?_⟩
    rw [soundStop.replay_without_stops stopped]
    exact run

/-- Two workers: one has received its request, the other has not yet, and a third request waits. A
fourth comes behind the stop. -/
theorem stop_winds_up_queued :
    let request : WorkRequest := ⟨3, [0x31], "a", .materialize⟩
    let front : List Action := [.submit request, .submit request, .submit request, .receive 0]
    let back : List Action := [.submit request, .receive 1, .claim 0, .claim 1, .stop, .reply 1,
      .reply 0, .exit 0, .exit 1]
    ∃ before after, (new ⟨2, 1⟩).replay? front = some before ∧
      before.stop.replay? back = some after ∧ before.waiting = [2] ∧ before.inWork = [0, 1] ∧
      WindsUp front before back after ∧ after.answersTo 2 = [.error .terminated] ∧
      after.answersTo 0 = [.ok request.response] ∧ after.answersTo 1 = [.ok request.response] := by
  intro request front back
  have start : ((new ⟨2, 1⟩).replay? front).map (fun pool => (pool.waiting, pool.inWork)) =
      some ([2], [0, 1]) := by
    unfold front request
    decide +kernel
  obtain ⟨before, reached, here⟩ := Option.map_eq_some_iff.mp start
  obtain ⟨waits, held⟩ := Prod.mk.inj here
  have finish : (((new ⟨2, 1⟩).replay? front).bind fun before => before.stop.replay? back).map
      presence = some 0 := by
    unfold front back request
    decide +kernel
  rw [reached, Option.bind_some] at finish
  obtain ⟨after, run, left⟩ := Option.map_eq_some_iff.mp finish
  have windsUp := stop_winds_up reached run
  have carried (ticket : Nat) (own : ticket ∈ before.inWork) :
      after.answersTo ticket = [.ok request.response] := by
    obtain ⟨other, named, -, answered⟩ := windsUp.carriedOut ticket own
    have among : other ∈ List.replicate 3 request := List.mem_of_getElem? named
    rw [answered (quiet_of_presence left), List.eq_of_mem_replicate among]
  have stranded := (windsUp.stranded 2 (waits ▸ List.mem_singleton_self 2)).1
  have first := carried 0 (held ▸ List.mem_cons_self)
  have second := carried 1 (held ▸ List.mem_cons_of_mem 0 List.mem_cons_self)
  exact ⟨before, after, reached, run, waits, held, windsUp, stranded, first, second⟩

end JsonProjection.Pool

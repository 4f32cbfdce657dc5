import JsonProjection.Proofs.Pool.Desk
import JsonProjection.Proofs.Pool.Tickets

/-!
Every request is answered once, and as an engine of its own would answer it.

What a pool holds under a ticket stands for the request that the ticket was given out for, and so
does what it replies. Other answers come from a refusal, and from a stop that finds the request
still in the queue.
-/

namespace JsonProjection

structure Worker.Stands (worker : Worker) (ticket : Nat) (request : WorkRequest) : Prop where
  tasks : ∀ task ∈ worker.tasks, task.ticket = ticket → task.request = request
  replies : ∀ reply ∈ worker.phase.replies, reply.1 = ticket → reply.2 = request.response

namespace Pool

def answersTo (pool : Pool) (ticket : Nat) : List (Except PoolError WorkResponse) :=
  (pool.answers.filter (·.1 = ticket)).map (·.2)

/-- Whether one of the steps stops the pool while the request under the ticket is in its queue. -/
def Strands (ticket : Nat) : Pool → List Action → Prop
  | _, [] => False
  | pool, action :: rest =>
    (action = .stop ∧ pool.terminated = false ∧ ticket ∈ pool.queue.map (·.ticket)) ∨
      ∃ next, pool.step? action = some next ∧ Strands ticket next rest

structure Sound (pool : Pool) : Prop where
  scheduled : pool.Scheduled
  conserved : pool.Conserved
  ready : ∀ (index : Nat) (worker : Worker), pool.workers[index]? = some worker →
    worker.desk.Ready

/-- What a pool holds under a ticket is the request or the response to it. -/
structure Stands (pool : Pool) (ticket : Nat) (request : WorkRequest) : Prop where
  queued : ∀ task ∈ pool.queue, task.ticket = ticket → task.request = request
  held : ∀ (index : Nat) (worker : Worker), pool.workers[index]? = some worker →
    worker.Stands ticket request
  replied : ∀ answer, (ticket, answer) ∈ pool.answers → answer = .ok request.response

variable {pool next : Pool} {ticket : Nat} {request : WorkRequest}

theorem mem_answersTo {answer : Except PoolError WorkResponse} :
    answer ∈ pool.answersTo ticket ↔ (ticket, answer) ∈ pool.answers := by
  unfold answersTo
  rw [List.mem_map]
  constructor
  · rintro ⟨⟨own, answer⟩, kept, rfl⟩
    obtain ⟨present, same⟩ := List.mem_filter.mp kept
    obtain rfl : own = ticket := of_decide_eq_true same
    exact present
  · intro present
    exact ⟨(ticket, answer), List.mem_filter.mpr ⟨present, decide_eq_true rfl⟩, rfl⟩

theorem mem_of_answer? {answer : Except PoolError WorkResponse}
    (found : pool.answer? ticket = some answer) : (ticket, answer) ∈ pool.answers := by
  obtain ⟨latest, earlier, same, -⟩ := List.lookup_eq_some_iff.mp found
  rw [same]
  exact List.mem_append_right _ List.mem_cons_self

theorem answer?_of_answered (answered : ticket ∈ pool.answered) :
    ∃ answer, pool.answer? ticket = some answer := by
  obtain ⟨entry, present, rfl⟩ := List.mem_map.mp answered
  rcases found : pool.answer? entry.1 with _ | answer
  · have other := List.lookup_eq_none_iff.mp found entry present
    rw [bne_self_eq_false] at other
    cases other
  · exact ⟨answer, rfl⟩

theorem length_answersTo (pool : Pool) (ticket : Nat) :
    (pool.answersTo ticket).length = pool.answered.count ticket := by
  rw [answersTo, List.length_map, answered, List.count_eq_countP, List.countP_map,
    List.countP_eq_length_filter]
  rfl

/-! ### What holds throughout -/

theorem new_sound (config : PoolConfig) : (new config).Sound where
  scheduled := new_scheduled config
  conserved := new_conserved config
  ready index worker found := by
    rw [List.eq_of_mem_replicate (List.mem_of_getElem? found)]
    exact Desk.empty_ready

theorem new_pending (config : PoolConfig) : (new config).pending = [] := by
  apply List.eq_nil_iff_forall_not_mem.mpr
  intro ticket pending
  exact Nat.not_lt_zero ticket ((new_sound config).conserved.mem.mp (.inr pending))

theorem Transition.ready {action : Action} (step : Transition pool action next)
    (ready : ∀ (index : Nat) (worker : Worker), pool.workers[index]? = some worker →
      worker.desk.Ready) :
    ∀ (index : Nat) (worker : Worker), next.workers[index]? = some worker →
      worker.desk.Ready := by
  cases step with
  | refused request refusal => exact ready
  | handed request live idle found =>
      have own := ready _ _ found
      exact each_set own fun other worker _ => ready other worker
  | queued request live busy room => exact ready
  | stopped live => exact ready
  | still stopped => exact ready
  | received found =>
      have own := ready _ _ found
      exact each_set own fun other worker _ => ready other worker
  | claimed found live waits =>
      have own := ready _ _ found
      exact each_set (own.answer _).1 fun other worker _ => ready other worker
  | rested found nothing =>
      have own := ready _ _ found
      exact each_set (own.answer _).1 fun other worker _ => ready other worker
  | replied found =>
      have own := ready _ _ found
      exact each_set own fun other worker _ => ready other worker
  | left stopped found =>
      have own := ready _ _ found
      exact each_set own fun other worker _ => ready other worker

theorem Sound.transition (sound : pool.Sound) {action : Action}
    (step : pool.step? action = some next) : Transition pool action next :=
  sound.scheduled.transition step

theorem Sound.step (sound : pool.Sound) {action : Action} (step : pool.step? action = some next) :
    next.Sound :=
  have transition := sound.transition step
  ⟨transition.scheduled sound.scheduled, transition.conserved sound.conserved,
    transition.ready sound.ready⟩

theorem replay?_cons {action : Action} {rest : List Action} {last : Pool}
    (run : pool.replay? (action :: rest) = some last) :
    ∃ next, pool.step? action = some next ∧ next.replay? rest = some last :=
  Option.bind_eq_some_iff.mp run

theorem Sound.replay_keeps (P : Pool → Prop)
    (keeps : ∀ {pool next : Pool} {action : Action}, Transition pool action next → P pool → P next)
    {actions : List Action} {last : Pool} (sound : pool.Sound) (start : P pool)
    (run : pool.replay? actions = some last) : last.Sound ∧ P last := by
  induction actions generalizing pool with
  | nil =>
      cases run
      exact ⟨sound, start⟩
  | cons action rest ih =>
      obtain ⟨next, step, later⟩ := replay?_cons run
      exact ih (sound.step step) (keeps (sound.transition step) start) later

theorem Sound.replay {actions : List Action} {last : Pool} (sound : pool.Sound)
    (run : pool.replay? actions = some last) : last.Sound :=
  (sound.replay_keeps (fun _ => True) (fun _ kept => kept) trivial run).1

/-! ### Answers stay -/

theorem Transition.mem_answers {action : Action} (step : Transition pool action next)
    {entry : Nat × Except PoolError WorkResponse} (present : entry ∈ pool.answers) :
    entry ∈ next.answers := by
  cases step with
  | refused request refusal => exact List.mem_cons_of_mem _ present
  | handed request live idle found => exact present
  | queued request live busy room => exact present
  | stopped live => exact List.mem_append_right _ present
  | still stopped => exact present
  | received found => exact present
  | claimed found live waits => exact present
  | rested found nothing => exact present
  | replied found => exact List.mem_cons_of_mem _ present
  | left stopped found => exact present

theorem Sound.replay_mem_answers {actions : List Action} {last : Pool} (sound : pool.Sound)
    (run : pool.replay? actions = some last) {entry : Nat × Except PoolError WorkResponse}
    (present : entry ∈ pool.answers) : entry ∈ last.answers :=
  (sound.replay_keeps (entry ∈ ·.answers) (fun step before => step.mem_answers before) present run).2

theorem Transition.issued {action : Action} (step : Transition pool action next) :
    pool.nextTicket ≤ next.nextTicket := by
  rcases step.tickets with ⟨same, _⟩ | ⟨more, _⟩
  · exact Nat.le_of_eq same.symm
  · exact more ▸ Nat.le_succ _

theorem Sound.replay_issued {actions : List Action} {last : Pool} (sound : pool.Sound)
    (run : pool.replay? actions = some last) : pool.nextTicket ≤ last.nextTicket :=
  (sound.replay_keeps (pool.nextTicket ≤ ·.nextTicket)
    (fun step before => Nat.le_trans before step.issued) (Nat.le_refl _) run).2

theorem Sound.once (sound : pool.Sound) (ticket : Nat) : (pool.answersTo ticket).length ≤ 1 := by
  rw [length_answersTo]
  have once := List.nodup_iff_count_le_one.mp sound.conserved.nodup ticket
  rw [tickets, List.count_append] at once
  exact Nat.le_trans (Nat.le_add_right _ _) once

theorem Sound.answersTo_eq (sound : pool.Sound) {answer : Except PoolError WorkResponse}
    (present : (ticket, answer) ∈ pool.answers) : pool.answersTo ticket = [answer] := by
  have member := mem_answersTo.mpr present
  match found : pool.answersTo ticket, sound.once ticket with
  | [], _ =>
      rw [found] at member
      cases member
  | [only], _ =>
      rw [found] at member
      rw [List.mem_singleton.mp member]
  | _ :: _ :: rest, few => exact absurd few (by rw [List.length_cons, List.length_cons]; omega)

/-! ### Submissions -/

theorem Transition.submit_issued (step : Transition pool (.submit request) next) :
    next.nextTicket = pool.nextTicket + 1 := by
  cases step <;> rfl

theorem Transition.submit_refused (step : Transition pool (.submit request) next)
    {error : PoolError} (refusal : pool.refusal? = some error) :
    (pool.nextTicket, .error error) ∈ next.answers := by
  cases step with
  | refused request own =>
      cases own.symm.trans refusal
      exact List.mem_cons_self
  | handed request live idle found =>
      simp only [refusal?, live, idle, reduceCtorEq, false_and, if_false] at refusal
  | queued request live busy room =>
      simp only [refusal?, live, Bool.false_eq_true, if_false,
        if_neg (not_and_of_not_right _ (Nat.not_le_of_lt room)), reduceCtorEq] at refusal

theorem refusal?_ne_workerLost (pool : Pool) : pool.refusal? ≠ some .workerLost := by
  unfold refusal?
  split
  · intro same
    cases same
  · split <;> intro same <;> cases same

/-! ### One ticket -/

theorem Sound.stands_fresh (sound : pool.Sound) (request : WorkRequest) :
    pool.Stands pool.nextTicket request := by
  have free : ∀ ticket ∈ pool.tickets, ticket ≠ pool.nextTicket := by
    intro ticket present
    exact Nat.ne_of_lt (sound.conserved.mem.mp (List.mem_append.mp present))
  constructor
  case queued =>
    intro task waits same
    refine absurd same (free _ (List.mem_append_right _ (mem_pending.mpr (.inl ?_))))
    exact List.mem_map_of_mem waits
  case held =>
    intro index worker found
    have own : ∀ ticket ∈ worker.tickets, ticket ≠ pool.nextTicket := by
      intro ticket held
      exact free _ (List.mem_append_right _ (mem_pending.mpr (.inr ⟨index, worker, found, held⟩)))
    constructor
    · intro task held same
      exact absurd same (own _ (List.mem_append_left _ (List.mem_map_of_mem held)))
    · intro reply held same
      exact absurd same (own _ (List.mem_append_right _ (List.mem_map_of_mem held)))
  case replied =>
    intro answer present
    exact absurd rfl (free _ (List.mem_append_left _ (List.mem_map_of_mem present)))

theorem Stands.setWorker (stands : pool.Stands ticket request) {index : Nat} {own : Worker}
    (mine : own.Stands ticket request) : (pool.setWorker index own).Stands ticket request where
  queued := stands.queued
  held := each_set mine fun other worker _ => stands.held other worker
  replied := stands.replied

/-- A step puts nothing else under a ticket, if it neither gives the ticket out for another request
nor strands it. -/
theorem Transition.stands {action : Action} (step : Transition pool action next)
    (ready : ∀ (index : Nat) (worker : Worker), pool.workers[index]? = some worker →
      worker.desk.Ready)
    (stands : pool.Stands ticket request)
    (taken : ∀ other, action = .submit other → ticket = pool.nextTicket →
      other = request ∧ pool.refusal? = none)
    (carried : ¬(action = .stop ∧ pool.terminated = false ∧
      ticket ∈ pool.queue.map (·.ticket))) :
    next.Stands ticket request := by
  cases step with
  | @refused error other refusal =>
      refine ⟨stands.queued, stands.held, fun answer present => ?_⟩
      rcases List.mem_cons.mp present with same | present
      · have none := (taken other rfl (congrArg Prod.fst same)).2
        rw [refusal] at none
        cases none
      · exact stands.replied answer present
  | @handed index rest worker other live idle found =>
      have own := stands.held index worker found
      have inner : ({ pool.issue with idle := rest } : Pool).Stands ticket request :=
        ⟨stands.queued, stands.held, stands.replied⟩
      refine inner.setWorker ⟨fun task held same => ?_, own.replies⟩
      rcases List.mem_append.mp held with boxed | held
      · rcases List.mem_append.mp boxed with boxed | handed
        · exact own.tasks task (List.mem_append_left _ boxed) same
        · cases List.mem_singleton.mp handed
          exact (taken other rfl same.symm).1
      · exact own.tasks task (List.mem_append_right _ held) same
  | queued other live busy room =>
      refine ⟨fun task waits same => ?_, stands.held, stands.replied⟩
      rcases List.mem_append.mp waits with waits | last
      · exact stands.queued task waits same
      · cases List.mem_singleton.mp last
        exact (taken other rfl same.symm).1
  | stopped live =>
      refine ⟨fun task waits => (by cases waits), stands.held, fun answer present => ?_⟩
      rcases List.mem_append.mp present with stranded | present
      · obtain ⟨task, waited, same⟩ := List.mem_map.mp stranded
        have waits : ticket ∈ pool.queue.map (·.ticket) :=
          List.mem_map.mpr ⟨task, List.mem_reverse.mp waited, congrArg Prod.fst same⟩
        exact absurd ⟨rfl, live, waits⟩ carried
      · exact stands.replied answer present
  | still stopped => exact stands
  | @received index task rest desk found =>
      have own := stands.held index _ found
      refine stands.setWorker ⟨fun other held => ?_, fun reply held => by cases held⟩
      apply own.tasks other
      rcases List.mem_append.mp held with boxed | held
      · exact List.mem_append_left _ (List.mem_cons_of_mem _ boxed)
      · cases List.mem_singleton.mp held
        exact List.mem_append_left _ List.mem_cons_self
  | @claimed index box task waiting rest desk found live waits =>
      have own := stands.held index _ found
      have inner : ({ pool with queue := rest } : Pool).Stands ticket request :=
        ⟨fun task waiting => stands.queued task (waits ▸ List.mem_cons_of_mem _ waiting),
          stands.held, stands.replied⟩
      refine inner.setWorker ⟨fun other held same => ?_, fun reply held same => ?_⟩
      · rcases List.mem_append.mp held with boxed | claimed
        · exact own.tasks other (List.mem_append_left _ boxed) same
        · cases List.mem_singleton.mp claimed
          exact stands.queued _ (waits ▸ List.mem_cons_self) same
      · cases List.mem_singleton.mp held
        have ran := own.tasks task (List.mem_append_right _ (List.mem_singleton_self _)) same
        exact ran ▸ ((ready index _ found).answer task.request).2
  | @rested index box task desk found nothing =>
      have own := stands.held index _ found
      have inner : ({ pool with idle := index :: pool.idle } : Pool).Stands ticket request :=
        ⟨stands.queued, stands.held, stands.replied⟩
      refine inner.setWorker ⟨fun other held same => ?_, fun reply held same => ?_⟩
      · rcases List.mem_append.mp held with boxed | nobody
        · exact own.tasks other (List.mem_append_left _ boxed) same
        · cases nobody
      · cases List.mem_singleton.mp held
        have ran := own.tasks task (List.mem_append_right _ (List.mem_singleton_self _)) same
        exact ran ▸ ((ready index _ found).answer task.request).2
  | @replied index own box response next? desk found =>
      have held := stands.held index _ found
      have inner : (pool.setWorker index ⟨box, Phase.behind next?, desk⟩).Stands ticket request := by
        apply stands.setWorker
        constructor
        · intro task kept
          rw [Worker.tasks, Phase.tasks_behind] at kept
          exact held.tasks task kept
        · intro reply kept
          rw [Phase.replies_behind] at kept
          cases kept
      refine ⟨inner.queued, inner.held, fun answer present => ?_⟩
      rcases List.mem_cons.mp present with same | present
      · cases same
        exact congrArg Except.ok (held.replies _ (List.mem_singleton_self _) rfl)
      · exact stands.replied answer present
  | left stopped found =>
      exact stands.setWorker ⟨fun task held => (by cases held), fun reply held => (by cases held)⟩

theorem Sound.replay_stands {actions : List Action} {last : Pool} (sound : pool.Sound)
    (issued : ticket < pool.nextTicket) (stands : pool.Stands ticket request)
    (carried : ¬pool.Strands ticket actions) (run : pool.replay? actions = some last) :
    last.Stands ticket request := by
  induction actions generalizing pool with
  | nil =>
      cases run
      exact stands
  | cons action rest ih =>
      obtain ⟨next, step, later⟩ := replay?_cons run
      have transition := sound.transition step
      obtain ⟨here, onward⟩ := not_or.mp carried
      refine ih (sound.step step) (Nat.lt_of_lt_of_le issued transition.issued) ?_
        (fun strands => onward ⟨next, step, strands⟩) later
      exact transition.stands sound.ready stands
        (fun _ _ same => absurd same (Nat.ne_of_lt issued)) here

theorem Sound.replay_strands {actions : List Action} {last : Pool} (sound : pool.Sound)
    (strands : pool.Strands ticket actions) (run : pool.replay? actions = some last) :
    (ticket, .error .terminated) ∈ last.answers := by
  induction actions generalizing pool with
  | nil => cases strands
  | cons action rest ih =>
      obtain ⟨next, step, later⟩ := replay?_cons run
      rcases strands with ⟨rfl, live, waits⟩ | ⟨other, same, strands⟩
      · refine (sound.step step).replay_mem_answers later ?_
        obtain ⟨task, waiting, rfl⟩ := List.mem_map.mp waits
        cases sound.transition step with
        | stopped live =>
            refine List.mem_append_left _ (List.mem_map.mpr ⟨task, ?_, rfl⟩)
            exact List.mem_reverse.mpr waiting
        | still stopped =>
            rw [live] at stopped
            cases stopped
      · obtain rfl := Option.some.inj (same.symm.trans step)
        exact ih (sound.step step) strands later

theorem Sound.submit_stands (sound : pool.Sound) (accepted : pool.refusal? = none) :
    (pool.submit request).Stands pool.nextTicket request := by
  apply (sound.scheduled.submit_transition request).stands sound.ready (sound.stands_fresh request)
  · rintro other same -
    cases same
    exact ⟨rfl, accepted⟩
  · rintro ⟨stop, -⟩
    cases stop

/-! ### The answers to a request -/

/-- What becomes of a request that is submitted, when some more steps are done. -/
structure Fate (before : Pool) (request : WorkRequest) (actions : List Action) (after : Pool) :
    Prop where
  once : (after.answersTo before.nextTicket).length ≤ 1
  settled : after.Quiet → (after.answersTo before.nextTicket).length = 1
  refused : ∀ error, before.refusal? = some error →
    after.answersTo before.nextTicket = [.error error]
  stranded : before.refusal? = none → (before.submit request).Strands before.nextTicket actions →
    after.answersTo before.nextTicket = [.error .terminated]
  served : before.refusal? = none → ¬(before.submit request).Strands before.nextTicket actions →
    ∀ answer ∈ after.answersTo before.nextTicket, answer = .ok request.response
  echoed : request.response.id = request.id
  neverLost : .error .workerLost ∉ after.answersTo before.nextTicket

/-- Every request is answered at most once, and once when the workers have nothing more to do: with
the reason why it is refused, with the end of the pool if that finds it in the queue, and else with
its own response. -/
theorem answered_once {config : PoolConfig} {front back : List Action} {before after : Pool}
    (request : WorkRequest) (reached : (new config).replay? front = some before)
    (run : (before.submit request).replay? back = some after) :
    Fate before request back after := by
  have sound := (new_sound config).replay reached
  have submit : before.step? (.submit request) = some (before.submit request) := rfl
  have submission := sound.transition submit
  have soundBehind := sound.step submit
  have soundAfter := soundBehind.replay run
  have issued : before.nextTicket < (before.submit request).nextTicket := by
    rw [submission.submit_issued]
    exact Nat.lt_succ_self _
  have refused {error : PoolError} (refusal : before.refusal? = some error) :
      after.answersTo before.nextTicket = [.error error] :=
    soundAfter.answersTo_eq
      (soundBehind.replay_mem_answers run (submission.submit_refused refusal))
  have stranded (strands : (before.submit request).Strands before.nextTicket back) :
      after.answersTo before.nextTicket = [.error .terminated] :=
    soundAfter.answersTo_eq (soundBehind.replay_strands strands run)
  have served (accepted : before.refusal? = none)
      (carried : ¬(before.submit request).Strands before.nextTicket back)
      (answer : Except PoolError WorkResponse)
      (present : answer ∈ after.answersTo before.nextTicket) : answer = .ok request.response := by
    have stands := soundBehind.replay_stands issued (sound.submit_stands accepted) carried run
    exact stands.replied answer (mem_answersTo.mp present)
  constructor
  case once => exact soundAfter.once _
  case settled =>
    intro quiet
    have due := soundAfter.conserved.mem.mpr
      (Nat.lt_of_lt_of_le issued (soundBehind.replay_issued run))
    rw [soundAfter.scheduled.quiet_pending quiet, or_iff_left List.not_mem_nil] at due
    have some := List.count_pos_iff.mpr due
    have most := soundAfter.once before.nextTicket
    rw [length_answersTo] at most ⊢
    omega
  case refused => exact fun error => refused
  case stranded => exact fun _ => stranded
  case served => exact served
  case echoed => exact request.response_id
  case neverLost =>
    intro lost
    rcases refusal : before.refusal? with _ | error
    · by_cases strands : (before.submit request).Strands before.nextTicket back
      · rw [stranded strands] at lost
        cases List.mem_singleton.mp lost
      · cases served refusal strands _ lost
    · rw [refused refusal] at lost
      cases List.mem_singleton.mp lost
      exact before.refusal?_ne_workerLost refusal

/-- The second request waits in the queue for a worker that could not read the first query. -/
theorem answered_once_queued :
    let first : WorkRequest := ⟨3, [0x31], "a", .materialize⟩
    let second : WorkRequest := ⟨4, [0x31], "\x7ba\x7d", .raw⟩
    let steps : List Action := [.receive 0, .claim 0, .reply 0, .claim 0, .reply 0]
    ∃ before after, (new ⟨1, 1⟩).replay? [.submit first] = some before ∧
      (before.submit second).replay? steps = some after ∧ Fate before second steps after := by
  intro first second steps
  have reached : (new ⟨1, 1⟩).replay? [.submit first] = some ((new ⟨1, 1⟩).submit first) := rfl
  obtain ⟨after, run⟩ : ∃ after, (((new ⟨1, 1⟩).submit first).submit second).replay? steps =
      some after := ⟨_, rfl⟩
  exact ⟨_, after, reached, run, answered_once second reached run⟩

end Pool
end JsonProjection

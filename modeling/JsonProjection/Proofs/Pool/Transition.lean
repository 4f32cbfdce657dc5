import JsonProjection.Pool.Schedule

/-!
What a step of a pool can do.

`Scheduled` says how the idle list, the queue and the workers' hands agree: a worker is idle or has
one request, and nobody is idle while a request waits. In a pool that agrees so a step does one of
the things that `Transition` lists, and they agree again behind it. No request goes to a worker
that has left.
-/

namespace JsonProjection

namespace Phase

def tasks : Phase → List Task
  | .waiting => []
  | .running task => [task]
  | .replying _ _ next? => next?.toList
  | .exited => []

def replies : Phase → List (Nat × WorkResponse)
  | .replying ticket response _ => [(ticket, response)]
  | _ => []

def behind : Option Task → Phase
  | some task => .running task
  | none => .waiting

theorem tasks_behind (next? : Option Task) : (behind next?).tasks = next?.toList := by
  cases next? <;> rfl

theorem replies_behind (next? : Option Task) : (behind next?).replies = [] := by
  cases next? <;> rfl

end Phase

def Worker.tasks (worker : Worker) : List Task :=
  worker.box ++ worker.phase.tasks

namespace Pool

def refusal? (pool : Pool) : Option PoolError :=
  if pool.terminated then some .terminated
  else if pool.idle = [] ∧ pool.config.queueCapacity ≤ pool.queue.length then
    some (.queueFull pool.config.queueCapacity)
  else none

def issue (pool : Pool) : Pool :=
  { pool with nextTicket := pool.nextTicket + 1 }

def ticketed (pool : Pool) (request : WorkRequest) : Task :=
  ⟨pool.nextTicket, request⟩

/-- The agreement between the idle list, the queue and the workers. -/
structure Scheduled (pool : Pool) : Prop where
  size : pool.workers.length = pool.config.size
  manned : 0 < pool.config.size
  inside : ∀ index ∈ pool.idle, index < pool.workers.length
  /-- A worker is listed as idle once, or has one request in its box or in its hands. -/
  loads : ∀ (index : Nat) (worker : Worker), pool.workers[index]? = some worker →
    pool.idle.count index + worker.tasks.length = 1
  busy : pool.terminated = false → pool.queue = [] ∨ pool.idle = []
  drained : pool.terminated = true → pool.queue = []
  bounded : pool.queue.length ≤ pool.config.queueCapacity
  gone : ∀ (index : Nat) (worker : Worker), pool.workers[index]? = some worker →
    worker.phase = .exited → pool.terminated = true ∧ worker.box = []

/-- The steps of a pool: the pool before, what is done, and the pool behind. -/
inductive Transition (pool : Pool) : Action → Pool → Prop where
  | refused {error : PoolError} (request : WorkRequest) (refusal : pool.refusal? = some error) :
      Transition pool (.submit request) (pool.issue.record pool.nextTicket (.error error))
  | handed {index : Nat} {rest : List Nat} {worker : Worker} (request : WorkRequest)
      (live : pool.terminated = false) (idle : pool.idle = index :: rest)
      (found : pool.workers[index]? = some worker) :
      Transition pool (.submit request) ({ pool.issue with idle := rest }.setWorker index
        { worker with box := worker.box ++ [pool.ticketed request] })
  | queued (request : WorkRequest) (live : pool.terminated = false) (busy : pool.idle = [])
      (room : pool.queue.length < pool.config.queueCapacity) :
      Transition pool (.submit request)
        { pool.issue with queue := pool.queue ++ [pool.ticketed request] }
  | stopped (live : pool.terminated = false) :
      Transition pool .stop { pool with
        terminated := true
        queue := []
        answers := (pool.queue.reverse.map fun task => (task.ticket, .error .terminated)) ++
          pool.answers }
  | still (stopped : pool.terminated = true) : Transition pool .stop pool
  | received {index : Nat} {task : Task} {rest : List Task} {desk : Desk}
      (found : pool.workers[index]? = some ⟨task :: rest, .waiting, desk⟩) :
      Transition pool (.receive index) (pool.setWorker index ⟨rest, .running task, desk⟩)
  | claimed {index : Nat} {box : List Task} {task next : Task} {rest : List Task} {desk : Desk}
      (found : pool.workers[index]? = some ⟨box, .running task, desk⟩)
      (live : pool.terminated = false) (waits : pool.queue = next :: rest) :
      Transition pool (.claim index) ({ pool with queue := rest }.setWorker index
        ⟨box, .replying task.ticket (desk.answer task.request).2 (some next),
          (desk.answer task.request).1⟩)
  | rested {index : Nat} {box : List Task} {task : Task} {desk : Desk}
      (found : pool.workers[index]? = some ⟨box, .running task, desk⟩)
      (nothing : pool.queue = []) :
      Transition pool (.claim index) ({ pool with idle := index :: pool.idle }.setWorker index
        ⟨box, .replying task.ticket (desk.answer task.request).2 none,
          (desk.answer task.request).1⟩)
  | replied {index ticket : Nat} {box : List Task} {response : WorkResponse}
      {next? : Option Task} {desk : Desk}
      (found : pool.workers[index]? = some ⟨box, .replying ticket response next?, desk⟩) :
      Transition pool (.reply index)
        ((pool.setWorker index ⟨box, Phase.behind next?, desk⟩).record ticket (.ok response))
  | left {index : Nat} {desk : Desk} (stopped : pool.terminated = true)
      (found : pool.workers[index]? = some ⟨[], .waiting, desk⟩) :
      Transition pool (.exit index) (pool.setWorker index ⟨[], .exited, desk⟩)

variable {pool next : Pool}

/-! ### One worker among the others -/

theorem each_set {P : Nat → Worker → Prop} {workers : List Worker} {index : Nat} {own : Worker}
    (mine : P index own)
    (others : ∀ (other : Nat) (worker : Worker), index ≠ other → workers[other]? = some worker →
      P other worker)
    (other : Nat) (worker : Worker) (found : (workers.set index own)[other]? = some worker) :
    P other worker := by
  by_cases same : index = other
  · subst same
    have inside : index < (workers.set index own).length := (List.getElem?_eq_some_iff.mp found).1
    rw [List.length_set] at inside
    rw [List.getElem?_set_self inside] at found
    cases found
    exact mine
  · rw [List.getElem?_set_ne same] at found
    exact others other worker same found

theorem stop_answers (tasks : List Task) (pool : Pool) :
    tasks.foldl (fun pool task => pool.record task.ticket (.error .terminated)) pool =
      { pool with answers :=
        (tasks.reverse.map fun task => (task.ticket, .error .terminated)) ++ pool.answers } := by
  induction tasks generalizing pool with
  | nil => rfl
  | cons task rest ih =>
      rw [List.foldl_cons, ih]
      simp only [record, List.reverse_cons, List.map_append, List.map_cons, List.map_nil,
        List.append_assoc, List.singleton_append]

theorem Scheduled.idle_worker (scheduled : pool.Scheduled) {index : Nat} {rest : List Nat}
    (idle : pool.idle = index :: rest) (live : pool.terminated = false) :
    ∃ worker, pool.workers[index]? = some worker ∧ worker.phase ≠ .exited := by
  have inside := scheduled.inside index (by rw [idle]; exact List.mem_cons_self)
  refine ⟨pool.workers[index], List.getElem?_eq_getElem inside, fun exited => ?_⟩
  have stopped := (scheduled.gone index _ (List.getElem?_eq_getElem inside) exited).1
  rw [live] at stopped
  cases stopped

/-! ### Steps -/

theorem Scheduled.submit_transition (scheduled : pool.Scheduled) (request : WorkRequest) :
    Transition pool (.submit request) (pool.submit request) := by
  by_cases stopped : pool.terminated = true
  · have same : pool.submit request = pool.issue.record pool.nextTicket (.error .terminated) := by
      simp only [submit, stopped, if_true, issue]
    rw [same]
    exact .refused request (by simp only [refusal?, stopped, if_true])
  have live : pool.terminated = false := Bool.not_eq_true _ ▸ stopped
  rcases idle : pool.idle with _ | ⟨index, rest⟩
  · by_cases room : pool.queue.length < pool.config.queueCapacity
    · have same : pool.submit request =
          { pool.issue with queue := pool.queue ++ [pool.ticketed request] } := by
        simp only [submit, live, idle, Bool.false_eq_true, if_false, if_pos room, issue,
          ticketed]
      rw [same]
      exact .queued request live idle room
    · have same : pool.submit request = pool.issue.record pool.nextTicket
          (.error (.queueFull pool.config.queueCapacity)) := by
        simp only [submit, live, idle, Bool.false_eq_true, if_false, if_neg room, issue]
      rw [same]
      refine .refused request ?_
      simp only [refusal?, live, idle, true_and, Bool.false_eq_true, if_false,
        if_pos (Nat.le_of_not_lt room)]
  · obtain ⟨worker, found, present⟩ := scheduled.idle_worker idle live
    have same : pool.submit request = { pool.issue with idle := rest }.setWorker index
        { worker with box := worker.box ++ [pool.ticketed request] } := by
      simp only [submit, live, idle, found, Bool.false_eq_true, if_false, issue, ticketed]
    rw [same]
    exact .handed request live idle found

theorem stop_transition (pool : Pool) : Transition pool .stop pool.stop := by
  by_cases stopped : pool.terminated = true
  · have same : pool.stop = pool := if_pos stopped
    rw [same]
    exact .still stopped
  · have same : pool.stop = _ := (if_neg stopped).trans (stop_answers _ _)
    rw [same]
    exact .stopped (Bool.not_eq_true _ ▸ stopped)

theorem receive_transition {index : Nat} (step : pool.receive? index = some next) :
    Transition pool (.receive index) next := by
  unfold receive? at step
  split at step
  · cases step
    exact .received ‹_›
  · cases step

theorem Scheduled.claim_transition (scheduled : pool.Scheduled) {index : Nat}
    (step : pool.claim? index = some next) : Transition pool (.claim index) next := by
  unfold claim? at step
  split at step
  · simp only at step
    split at step
    · cases step
      exact .claimed ‹_› ‹_› ‹_›
    · rename_i found _ _ other
      cases step
      refine .rested found ?_
      by_cases stopped : pool.terminated = true
      · exact scheduled.drained stopped
      · cases queue : pool.queue with
        | nil => rfl
        | cons waiting rest => exact (other _ _ (Bool.not_eq_true _ ▸ stopped) queue).elim
  · cases step

theorem reply_transition {index : Nat} (step : pool.reply? index = some next) :
    Transition pool (.reply index) next := by
  unfold reply? at step
  split at step
  · rename_i box ticket response next? desk found
    cases next? <;> cases step <;> exact .replied found
  · cases step

theorem exit_transition {index : Nat} (step : pool.exit? index = some next) :
    Transition pool (.exit index) next := by
  unfold exit? at step
  split at step
  · cases step
    exact .left ‹_› ‹_›
  · cases step

theorem Scheduled.transition (scheduled : pool.Scheduled) {action : Action}
    (step : pool.step? action = some next) : Transition pool action next := by
  cases action with
  | submit request =>
      cases step
      exact scheduled.submit_transition request
  | stop =>
      cases step
      exact pool.stop_transition
  | receive index => exact receive_transition step
  | claim index => exact scheduled.claim_transition step
  | reply index => exact reply_transition step
  | exit index => exact exit_transition step

/-! ### The agreement is kept -/

theorem new_scheduled (config : PoolConfig) : (new config).Scheduled where
  size := List.length_replicate
  manned := Nat.le_max_left 1 config.size
  inside index listed := by
    rw [show (new config).workers.length = max 1 config.size from List.length_replicate]
    exact List.mem_range.mp listed
  loads index worker found := by
    obtain ⟨inside, fresh⟩ := List.getElem?_eq_some_iff.mp found
    rw [show (new config).workers.length = max 1 config.size from List.length_replicate] at inside
    have same : worker = ⟨[], .waiting, Desk.empty⟩ :=
      fresh.symm.trans (List.getElem_replicate _)
    rw [same, show (new config).idle = List.range (max 1 config.size) from rfl,
      List.nodup_range.count, if_pos (List.mem_range.mpr inside)]
    rfl
  busy _ := .inl rfl
  drained stopped := by cases stopped
  bounded := Nat.zero_le _
  gone index worker found exited := by
    obtain ⟨inside, fresh⟩ := List.getElem?_eq_some_iff.mp found
    have same : worker = ⟨[], .waiting, Desk.empty⟩ :=
      fresh.symm.trans (List.getElem_replicate _)
    rw [same] at exited
    cases exited

/-- A step changes one worker at most: the agreement has to be shown again for that worker alone. -/
theorem Scheduled.setWorker (scheduled : pool.Scheduled) {index : Nat} {worker own : Worker}
    (found : pool.workers[index]? = some worker) (load : own.tasks.length = worker.tasks.length)
    (gone : own.phase = .exited → pool.terminated = true ∧ own.box = []) :
    (pool.setWorker index own).Scheduled where
  size := List.length_set.trans scheduled.size
  manned := scheduled.manned
  inside other listed := by
    rw [show (pool.setWorker index own).workers.length = _ from List.length_set]
    exact scheduled.inside other listed
  loads := each_set (load ▸ scheduled.loads index worker found)
    fun other worker _ => scheduled.loads other worker
  busy := scheduled.busy
  drained := scheduled.drained
  bounded := scheduled.bounded
  gone := each_set gone fun other worker _ => scheduled.gone other worker

theorem Transition.scheduled {action : Action} (step : Transition pool action next)
    (scheduled : pool.Scheduled) : next.Scheduled := by
  cases step with
  | refused request refusal => exact ⟨scheduled.size, scheduled.manned, scheduled.inside,
      scheduled.loads, scheduled.busy, scheduled.drained, scheduled.bounded, scheduled.gone⟩
  | @handed index rest worker request live idle found =>
      have load := scheduled.loads index worker found
      rw [idle, List.count_cons_self] at load
      constructor
      case size => exact List.length_set.trans scheduled.size
      case manned => exact scheduled.manned
      case inside =>
        intro other listed
        rw [show (Pool.setWorker _ index _).workers.length = _ from List.length_set]
        exact scheduled.inside other (idle ▸ List.mem_cons_of_mem index listed)
      case loads =>
        refine each_set ?_ fun other own apart found => ?_
        · show rest.count index + _ = 1
          simp only [Worker.tasks, List.length_append, List.length_singleton] at load ⊢
          omega
        · have load := scheduled.loads other own found
          rwa [idle, List.count_cons_of_ne apart] at load
      case busy =>
        refine fun live => (scheduled.busy live).imp_right fun nobody => ?_
        rw [idle] at nobody
        cases nobody
      case drained => exact scheduled.drained
      case bounded => exact scheduled.bounded
      case gone =>
        refine each_set (fun exited => ?_) fun other own _ => scheduled.gone other own
        have stopped := (scheduled.gone index worker found exited).1
        rw [live] at stopped
        cases stopped
  | queued request live busy room => exact
      { size := scheduled.size
        manned := scheduled.manned
        inside := scheduled.inside
        loads := scheduled.loads
        busy := fun _ => .inr busy
        drained := fun stopped => by
          rw [show pool.terminated = true from stopped] at live
          cases live
        bounded := by
          rw [List.length_append]
          exact room
        gone := scheduled.gone }
  | stopped live => exact
      { size := scheduled.size
        manned := scheduled.manned
        inside := scheduled.inside
        loads := scheduled.loads
        busy := fun live => by cases live
        drained := fun _ => rfl
        bounded := Nat.zero_le _
        gone := fun index worker found exited =>
          ⟨rfl, (scheduled.gone index worker found exited).2⟩ }
  | still stopped => exact scheduled
  | received found =>
      refine scheduled.setWorker found ?_ fun exited => by cases exited
      simp only [Worker.tasks, Phase.tasks, List.length_append, List.length_cons, List.length_nil]
  | @claimed index box task waiting rest desk found live waits =>
      have inner : Scheduled { pool with queue := rest } :=
        { size := scheduled.size
          manned := scheduled.manned
          inside := scheduled.inside
          loads := scheduled.loads
          busy := fun live => (scheduled.busy live).elim (fun none => by
            rw [waits] at none
            cases none) .inr
          drained := fun stopped => by
            rw [show pool.terminated = true from stopped] at live
            cases live
          bounded := by
            have bounded := scheduled.bounded
            rw [waits, List.length_cons] at bounded
            exact Nat.le_of_succ_le bounded
          gone := scheduled.gone }
      refine Scheduled.setWorker inner found ?_ fun exited => by cases exited
      simp only [Worker.tasks, Phase.tasks, List.length_append, Option.toList_some,
        List.length_singleton]
  | @rested index box task desk found nothing =>
      have load := scheduled.loads index _ found
      constructor
      case size => exact List.length_set.trans scheduled.size
      case manned => exact scheduled.manned
      case inside =>
        intro other listed
        rw [show (Pool.setWorker _ index _).workers.length = _ from List.length_set]
        rcases List.mem_cons.mp listed with rfl | listed
        · exact (List.getElem?_eq_some_iff.mp found).1
        · exact scheduled.inside other listed
      case loads =>
        refine each_set ?_ fun other own apart found => ?_
        · show (index :: pool.idle).count index + _ = 1
          rw [List.count_cons_self]
          simp only [Worker.tasks, Phase.tasks, Option.toList_none, List.append_nil,
            List.length_append, List.length_singleton] at load ⊢
          omega
        · show (index :: pool.idle).count other + _ = 1
          rw [List.count_cons_of_ne apart]
          exact scheduled.loads other own found
      case busy => exact fun _ => .inl nothing
      case drained => exact scheduled.drained
      case bounded => exact scheduled.bounded
      case gone => exact each_set (fun exited => by cases exited) fun other own _ =>
        scheduled.gone other own
  | @replied index ticket box response next? desk found =>
      have inner : (pool.setWorker index ⟨box, Phase.behind next?, desk⟩).Scheduled := by
        refine scheduled.setWorker found ?_ fun exited => by cases next? <;> cases exited
        rw [Worker.tasks, Phase.tasks_behind]
        rfl
      exact ⟨inner.size, inner.manned, inner.inside, inner.loads, inner.busy, inner.drained,
        inner.bounded, inner.gone⟩
  | left stopped found => exact scheduled.setWorker found rfl fun _ => ⟨stopped, rfl⟩

end Pool
end JsonProjection

import JsonProjection.Proofs.Pool.Room
import Mathlib.Data.List.Flatten

/-!
Requests come to the workers in the order in which they were taken.

A request is taken by a submission that is not answered at once, and it comes to a worker with the
step behind which it is in the worker's box or hands. In between it waits. While the pool is not
stopped, what waits and what a step takes are what the step brings to workers and what waits behind
it; over a whole run, what was taken is what came to workers and what still waits.
-/

namespace JsonProjection.Pool

def waiting (pool : Pool) : List Nat :=
  pool.queue.map (·.ticket)

def held (pool : Pool) : List Nat :=
  pool.workers.flatMap fun worker => worker.tasks.map (·.ticket)

/-- The tickets that are given out on the way to `next` and not answered at once. -/
def taken (pool next : Pool) : List Nat :=
  (List.range' pool.nextTicket (next.nextTicket - pool.nextTicket)).filter fun ticket =>
    (next.answer? ticket).isNone

/-- The tickets that come to a worker on the way to `next`. -/
def assigned (pool next : Pool) : List Nat :=
  next.held.filter fun ticket => decide (ticket ∉ pool.held)

def gather (brings : Pool → Pool → List Nat) : Pool → List Action → List Nat
  | _, [] => []
  | pool, action :: rest =>
    match pool.step? action with
    | none => []
    | some next => brings pool next ++ gather brings next rest

def OnlyOwn (pool next : Pool) : Prop :=
  ∀ (index : Nat) (worker : Worker), next.workers[index]? = some worker →
    ∃ earlier, pool.workers[index]? = some earlier ∧ worker.tasks ⊆ earlier.tasks

/-- What a step does to the order of the requests. -/
inductive Passage (pool next : Pool) : Prop where
  | nothing (taken : pool.taken next = []) (own : pool.OnlyOwn next)
      (still : next.terminated = true ∨ next.waiting = pool.waiting)
  | handed (ticket : Nat) (taken : pool.taken next = [ticket])
      (assigned : pool.assigned next = [ticket]) (live : next.terminated = false)
      (before : pool.waiting = []) (behind : next.waiting = [])
  | queued (ticket : Nat) (taken : pool.taken next = [ticket]) (own : pool.OnlyOwn next)
      (live : next.terminated = false) (behind : next.waiting = pool.waiting ++ [ticket])
  | claimed (ticket : Nat) (taken : pool.taken next = []) (assigned : pool.assigned next = [ticket])
      (live : next.terminated = false) (before : pool.waiting = ticket :: next.waiting)

/-- How idle workers, boxes and queue agree, as the pool's users see it. -/
structure Disciplined (pool : Pool) : Prop where
  distinct : pool.idle.Nodup
  inside : ∀ index ∈ pool.idle, index < pool.config.size
  active : pool.activeWorkers + pool.idle.length = pool.config.size
  bounded : pool.queueSize ≤ pool.config.queueCapacity
  boxes : ∀ (index : Nat) (worker : Worker), pool.workers[index]? = some worker →
    worker.box.length ≤ 1 ∧ (index ∈ pool.idle → worker.box = [])
  busy : pool.terminated = false → pool.queue ≠ [] → pool.idle = []

variable {pool next : Pool}

/-! ### Idle workers -/

theorem Scheduled.idle_nodup (scheduled : pool.Scheduled) : pool.idle.Nodup := by
  apply List.nodup_iff_count_le_one.mpr
  intro index
  by_cases listed : index ∈ pool.idle
  · have inside := scheduled.inside index listed
    have load := scheduled.loads index _ (List.getElem?_eq_getElem inside)
    omega
  · rw [List.count_eq_zero_of_not_mem listed]
    exact Nat.zero_le 1

theorem Scheduled.idle_length (scheduled : pool.Scheduled) :
    pool.idle.length ≤ pool.config.size := by
  have among : pool.idle ⊆ List.range pool.config.size := fun index listed =>
    List.mem_range.mpr (scheduled.size ▸ scheduled.inside index listed)
  have fewer := (scheduled.idle_nodup.subperm among).length_le
  rwa [List.length_range] at fewer

theorem Scheduled.disciplined (scheduled : pool.Scheduled) : pool.Disciplined where
  distinct := scheduled.idle_nodup
  inside index listed := scheduled.size ▸ scheduled.inside index listed
  active := Nat.sub_add_cancel scheduled.idle_length
  bounded := scheduled.bounded
  boxes index worker found := by
    have load := scheduled.loads index worker found
    rw [Worker.tasks, List.length_append] at load
    refine ⟨by omega, fun listed => List.eq_nil_of_length_eq_zero ?_⟩
    have once := List.count_pos_iff.mpr listed
    omega
  busy live waits := (scheduled.busy live).resolve_left waits

/-! ### Tickets that workers hold -/

theorem mem_held {ticket : Nat} : ticket ∈ pool.held ↔
    ∃ (index : Nat) (worker : Worker), pool.workers[index]? = some worker ∧
      ticket ∈ worker.tasks.map (·.ticket) := by
  rw [held, List.mem_flatMap]
  constructor
  · rintro ⟨worker, present, own⟩
    obtain ⟨index, found⟩ := List.mem_iff_getElem?.mp present
    exact ⟨index, worker, found, own⟩
  · rintro ⟨index, worker, found, own⟩
    exact ⟨worker, List.mem_of_getElem? found, own⟩

theorem held_sublist (pool : Pool) : pool.held.Sublist (pool.workers.flatMap Worker.tickets) :=
  List.Sublist.flatMap_right _ fun _ _ => List.sublist_append_left _ _

theorem Sound.held_nodup (sound : pool.Sound) : pool.held.Nodup := by
  have pending := (List.nodup_append.mp sound.conserved.nodup).2.1
  exact (List.nodup_append.mp pending).2.1.sublist pool.held_sublist

theorem Sound.waiting_not_held (sound : pool.Sound) {ticket : Nat}
    (waits : ticket ∈ pool.waiting) : ticket ∉ pool.held := by
  intro own
  have pending := (List.nodup_append.mp sound.conserved.nodup).2.1
  exact (List.nodup_append.mp pending).2.2 ticket waits ticket (pool.held_sublist.subset own) rfl

theorem Sound.fresh_not_held (sound : pool.Sound) : pool.nextTicket ∉ pool.held := by
  intro own
  have pending := List.mem_append_right pool.waiting (pool.held_sublist.subset own)
  exact Nat.lt_irrefl _ (sound.conserved.mem.mp (.inr pending))

/-! ### What a step brings to workers -/

theorem held_of_set {index : Nat} {own : Worker}
    (workers : next.workers = pool.workers.set index own) {ticket : Nat}
    (later : ticket ∈ next.held) :
    ticket ∈ pool.held ∨ ticket ∈ own.tasks.map (·.ticket) := by
  obtain ⟨other, holder, there, ticketed⟩ := mem_held.mp later
  rw [workers] at there
  refine each_set (P := fun _ holder => ticket ∈ holder.tasks.map (·.ticket) →
    ticket ∈ pool.held ∨ ticket ∈ own.tasks.map (·.ticket)) .inr ?_ other holder there ticketed
  exact fun other holder _ found ticketed => .inl (mem_held.mpr ⟨other, holder, found, ticketed⟩)

theorem OnlyOwn.of_same (workers : next.workers = pool.workers) : pool.OnlyOwn next := by
  intro index worker found
  rw [workers] at found
  exact ⟨worker, found, List.Subset.refl _⟩

theorem OnlyOwn.of_set {index : Nat} {worker own : Worker}
    (found : pool.workers[index]? = some worker)
    (workers : next.workers = pool.workers.set index own) (kept : own.tasks ⊆ worker.tasks) :
    pool.OnlyOwn next := by
  intro other holder there
  rw [workers] at there
  refine each_set (P := fun other holder => ∃ earlier, pool.workers[other]? = some earlier ∧
    holder.tasks ⊆ earlier.tasks) ?_ ?_ other holder there
  · exact ⟨worker, found, kept⟩
  · exact fun other holder _ found => ⟨holder, found, List.Subset.refl _⟩

theorem OnlyOwn.trans {last : Pool} (first : pool.OnlyOwn next) (second : next.OnlyOwn last) :
    pool.OnlyOwn last := by
  intro index worker found
  obtain ⟨later, there, kept⟩ := second index worker found
  obtain ⟨earlier, before, own⟩ := first index later there
  exact ⟨earlier, before, List.Subset.trans kept own⟩

theorem OnlyOwn.assigned (own : pool.OnlyOwn next) : pool.assigned next = [] := by
  apply List.filter_eq_nil_iff.mpr
  intro ticket later
  obtain ⟨index, worker, found, ticketed⟩ := mem_held.mp later
  obtain ⟨earlier, before, kept⟩ := own index worker found
  have known : ticket ∈ pool.held :=
    mem_held.mpr ⟨index, earlier, before, List.map_subset _ kept ticketed⟩
  rw [decide_eq_true_eq]
  exact not_not_intro known

theorem assigned_of_gain {index : Nat} {worker own : Worker} (task : Task)
    (distinct : next.held.Nodup) (found : pool.workers[index]? = some worker)
    (workers : next.workers = pool.workers.set index own)
    (gained : task ∈ own.tasks) (kept : ∀ other ∈ own.tasks, other = task ∨ other ∈ worker.tasks)
    (fresh : task.ticket ∉ pool.held) : pool.assigned next = [task.ticket] := by
  have inside : index < pool.workers.length := (List.getElem?_eq_some_iff.mp found).1
  have there : next.workers[index]? = some own := by
    rw [workers, List.getElem?_set_self inside]
  have only (ticket : Nat) : ticket ∈ pool.assigned next ↔ ticket ∈ [task.ticket] := by
    rw [assigned, List.mem_filter, decide_eq_true_eq, List.mem_singleton]
    constructor
    · rintro ⟨later, new⟩
      obtain ⟨other, owned, rfl⟩ := List.mem_map.mp ((held_of_set workers later).resolve_left new)
      rcases kept other owned with rfl | before
      · rfl
      · exact absurd (mem_held.mpr ⟨index, worker, found, List.mem_map_of_mem before⟩) new
    · rintro rfl
      exact ⟨mem_held.mpr ⟨index, own, there, List.mem_map_of_mem gained⟩, fresh⟩
  have same : (pool.assigned next).Perm [task.ticket] :=
    (List.perm_ext_iff_of_nodup (distinct.filter _) (List.nodup_singleton _)).mpr only
  exact List.perm_singleton.mp same

/-! ### What a step takes -/

theorem taken_of_same (same : next.nextTicket = pool.nextTicket) : pool.taken next = [] := by
  unfold taken
  rw [same, Nat.sub_self]
  rfl

theorem taken_of_answered {answer : Except PoolError WorkResponse}
    (issued : next.nextTicket = pool.nextTicket + 1)
    (answered : next.answer? pool.nextTicket = some answer) : pool.taken next = [] := by
  unfold taken
  rw [issued, Nat.add_sub_cancel_left, List.range'_one, List.filter_singleton, answered]
  rfl

theorem taken_of_open (issued : next.nextTicket = pool.nextTicket + 1)
    (unanswered : next.answer? pool.nextTicket = none) : pool.taken next = [pool.nextTicket] := by
  unfold taken
  rw [issued, Nat.add_sub_cancel_left, List.range'_one, List.filter_singleton, unanswered]
  rfl

/-! ### One step -/

theorem Sound.passage (sound : pool.Sound) {action : Action}
    (step : pool.step? action = some next) : pool.Passage next := by
  have distinct := (sound.step step).held_nodup
  have fresh := sound.fresh_answer?
  cases sound.transition step with
  | refused request refusal =>
      apply Passage.nothing
      · exact taken_of_answered rfl List.lookup_cons_self
      · exact .of_same rfl
      · exact .inr rfl
  | @handed index rest worker request live listed found =>
      have empty : pool.queue = [] := (sound.scheduled.busy live).resolve_right fun none => by
        rw [listed] at none
        cases none
      apply Passage.handed pool.nextTicket
      · exact taken_of_open rfl fresh
      · apply assigned_of_gain (pool.ticketed request) distinct found rfl
        · exact List.mem_append_left _ (List.mem_append_right _ (List.mem_singleton_self _))
        · intro other own
          rcases List.mem_append.mp own with boxed | held
          · rcases List.mem_append.mp boxed with boxed | new
            · exact .inr (List.mem_append_left _ boxed)
            · exact .inl (List.mem_singleton.mp new)
          · exact .inr (List.mem_append_right _ held)
        · exact sound.fresh_not_held
      · exact live
      · exact congrArg (List.map (·.ticket)) empty
      · exact congrArg (List.map (·.ticket)) empty
  | queued request live busy room =>
      apply Passage.queued pool.nextTicket
      · exact taken_of_open rfl fresh
      · exact .of_same rfl
      · exact live
      · exact List.map_append
  | stopped live =>
      apply Passage.nothing
      · exact taken_of_same rfl
      · exact .of_same rfl
      · exact .inl rfl
  | still stopped =>
      apply Passage.nothing
      · exact taken_of_same rfl
      · exact .of_same rfl
      · exact .inl stopped
  | @received index task rest desk found =>
      apply Passage.nothing
      · exact taken_of_same rfl
      · apply OnlyOwn.of_set found rfl
        intro other own
        apply List.mem_append_left
        rcases List.mem_append.mp own with boxed | held
        · exact List.mem_cons_of_mem _ boxed
        · exact List.mem_cons.mpr (.inl (List.mem_singleton.mp held))
      · exact .inr rfl
  | @claimed index box task oldest rest desk found live waits =>
      have before : pool.waiting = oldest.ticket :: rest.map (·.ticket) := by
        rw [waiting, waits]
        rfl
      apply Passage.claimed oldest.ticket
      · exact taken_of_same rfl
      · apply assigned_of_gain oldest distinct found rfl
        · exact List.mem_append_right _ (List.mem_singleton_self _)
        · intro other own
          rcases List.mem_append.mp own with boxed | held
          · exact .inr (List.mem_append_left _ boxed)
          · exact .inl (List.mem_singleton.mp held)
        · exact sound.waiting_not_held (before ▸ List.mem_cons_self)
      · exact live
      · exact before
  | @rested index box task desk found nothing =>
      apply Passage.nothing
      · exact taken_of_same rfl
      · apply OnlyOwn.of_set found rfl
        intro other own
        rcases List.mem_append.mp own with boxed | none
        · exact List.mem_append_left _ boxed
        · cases none
      · exact .inr rfl
  | @replied index own box response next? desk found =>
      apply Passage.nothing
      · exact taken_of_same rfl
      · apply OnlyOwn.of_set found rfl
        rw [Worker.tasks, Phase.tasks_behind]
        exact List.Subset.refl _
      · exact .inr rfl
  | left stopped found =>
      apply Passage.nothing
      · exact taken_of_same rfl
      · exact .of_set found rfl (List.Subset.refl _)
      · exact .inr rfl

theorem Passage.order (passage : pool.Passage next) (live : next.terminated = false) :
    pool.waiting ++ pool.taken next = pool.assigned next ++ next.waiting := by
  cases passage with
  | nothing taken own still =>
      rw [taken, own.assigned, still.resolve_left (live ▸ Bool.false_ne_true), List.append_nil,
        List.nil_append]
  | handed ticket taken assigned live before behind =>
      rw [taken, assigned, before, behind, List.nil_append, List.append_nil]
  | queued ticket taken own live behind => rw [taken, own.assigned, behind, List.nil_append]
  | claimed ticket taken assigned live before =>
      rw [taken, assigned, before, List.append_nil, List.singleton_append]

theorem Passage.stopped (passage : pool.Passage next) (stopped : next.terminated = true) :
    pool.taken next = [] ∧ pool.OnlyOwn next := by
  cases passage with
  | nothing taken own still => exact ⟨taken, own⟩
  | handed ticket taken assigned live before behind =>
      rw [live] at stopped
      cases stopped
  | queued ticket taken own live behind =>
      rw [live] at stopped
      cases stopped
  | claimed ticket taken assigned live before =>
      rw [live] at stopped
      cases stopped

/-! ### Runs -/

theorem gather_cons {action : Action} {rest : List Action} (step : pool.step? action = some next)
    (brings : Pool → Pool → List Nat) :
    gather brings pool (action :: rest) = brings pool next ++ gather brings next rest := by
  rw [gather, step]

theorem Transition.stays_stopped {action : Action} (step : Transition pool action next)
    (stopped : pool.terminated = true) : next.terminated = true := by
  cases step with
  | stopped live => rfl
  | _ => exact stopped

theorem Sound.gather_over {actions : List Action} {last : Pool} (sound : pool.Sound)
    (stopped : pool.terminated = true) (run : pool.replay? actions = some last) :
    gather taken pool actions = [] ∧ gather assigned pool actions = [] := by
  induction actions generalizing pool with
  | nil => exact ⟨rfl, rfl⟩
  | cons action rest ih =>
      obtain ⟨next, step, later⟩ := replay?_cons run
      have halted := (sound.transition step).stays_stopped stopped
      obtain ⟨taken, own⟩ := (sound.passage step).stopped halted
      obtain ⟨laterTaken, laterAssigned⟩ := ih (sound.step step) halted later
      rw [gather_cons step, gather_cons step, taken, own.assigned, laterTaken, laterAssigned]
      exact ⟨rfl, rfl⟩

/-- What waits and what a run takes are what comes to workers, and a rest: what waits behind the
run, while the pool is not stopped. -/
theorem Sound.gather_order {actions : List Action} {last : Pool} (sound : pool.Sound)
    (run : pool.replay? actions = some last) :
    ∃ rest, pool.waiting ++ gather taken pool actions = gather assigned pool actions ++ rest ∧
      (last.terminated = false → rest = last.waiting) := by
  induction actions generalizing pool with
  | nil =>
      cases run
      exact ⟨_, List.append_nil _, fun _ => rfl⟩
  | cons action actions ih =>
      obtain ⟨next, step, later⟩ := replay?_cons run
      have passage := sound.passage step
      rw [gather_cons step, gather_cons step]
      cases stopped : next.terminated with
      | false =>
          obtain ⟨rest, split, waits⟩ := ih (sound.step step) later
          refine ⟨rest, ?_, waits⟩
          rw [← List.append_assoc, passage.order stopped, List.append_assoc, split,
            List.append_assoc]
      | true =>
          -- Behind a stop nothing is taken and nothing comes to a worker.
          obtain ⟨taken, own⟩ := passage.stopped stopped
          obtain ⟨laterTaken, laterAssigned⟩ := (sound.step step).gather_over stopped later
          refine ⟨pool.waiting, ?_, fun live => ?_⟩
          · rw [taken, own.assigned, laterTaken, laterAssigned]
            exact List.append_nil _
          · have halted := ((sound.step step).replay_keeps (·.terminated = true)
              (fun step before => step.stays_stopped before) stopped later).2
            exact absurd (live.symm.trans halted) Bool.false_ne_true

/-- In every state of a pool the idle workers, the boxes and the queue agree, and the requests that
came to workers are the first of those that were taken. Unless the pool was stopped, the others wait
in the queue, in this order too. -/
theorem assigned_in_order (config : PoolConfig) {actions : List Action} {pool : Pool}
    (reached : (new config).replay? actions = some pool) :
    pool.Disciplined ∧ pool.config = ⟨max 1 config.size, config.queueCapacity⟩ ∧
      gather assigned (new config) actions <+: gather taken (new config) actions ∧
      (pool.terminated = false → gather taken (new config) actions =
        gather assigned (new config) actions ++ pool.queue.map (·.ticket)) := by
  have start := new_sound config
  have kept := start.replay_keeps (·.config = (new config).config)
    (fun step same => step.config.trans same) rfl reached
  obtain ⟨rest, split, waits⟩ := start.gather_order reached
  rw [show (new config).waiting = [] from rfl, List.nil_append] at split
  refine ⟨kept.1.scheduled.disciplined, kept.2, ⟨rest, split.symm⟩, fun live => ?_⟩
  rw [split, waits live]
  rfl

/-- One worker, and a queue that is full behind three requests: the fourth is refused, and the second
comes to the worker behind the first. -/
theorem assigned_in_order_queued :
    let request : WorkRequest := ⟨3, [0x31], "a", .materialize⟩
    let steps : List Action := [.submit request, .submit request, .submit request, .submit request,
      .receive 0, .claim 0]
    ∃ pool, (new ⟨0, 2⟩).replay? steps = some pool ∧ pool.Disciplined ∧
      gather taken (new ⟨0, 2⟩) steps = [0, 1, 2] ∧ gather assigned (new ⟨0, 2⟩) steps = [0, 1] ∧
      pool.queue.map (·.ticket) = [2] := by
  intro request steps
  obtain ⟨pool, reached, live, waits⟩ : ∃ pool, (new ⟨0, 2⟩).replay? steps = some pool ∧
      pool.terminated = false ∧ pool.queue.map (·.ticket) = [2] := ⟨_, rfl, rfl, rfl⟩
  have taken : gather taken (new ⟨0, 2⟩) steps = [0, 1, 2] := by
    unfold steps request
    decide +kernel
  obtain ⟨disciplined, -, -, order⟩ := assigned_in_order ⟨0, 2⟩ reached
  have split := order live
  rw [taken, waits] at split
  exact ⟨pool, reached, disciplined, taken, (List.append_cancel_right split).symm, waits⟩

end JsonProjection.Pool

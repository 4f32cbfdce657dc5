import JsonProjection.Proofs.Pool.Progress

/-!
A pool has room while fewer requests are unanswered than it may hold.

A ticket without an answer is pending, whatever its worker is at. A worker claims or reports itself
idle before it replies, so that idle marks and queue may run ahead of the answers, never behind.
A user who is alone with the pool and keeps within its capacity is therefore never refused.
-/

namespace JsonProjection.Pool

def unanswered (pool : Pool) : List Nat :=
  (List.range pool.nextTicket).filter fun ticket => (pool.answer? ticket).isNone

/-- How a pool that is not stopped takes the next request: at once it has no answer or the word that
the queue is full. -/
structure Admits (pool : Pool) (request : WorkRequest) : Prop where
  room : pool.unanswered.length < pool.capacity →
    (pool.submit request).answer? pool.nextTicket = none
  refused : ∀ answer, (pool.submit request).answer? pool.nextTicket = some answer →
    answer = .error (.queueFull pool.config.queueCapacity) ∧
      pool.capacity ≤ pool.unanswered.length
  full : (pool.submit request).answer? pool.nextTicket =
      some (.error (.queueFull pool.config.queueCapacity)) ↔
    pool.idle = [] ∧ pool.queue.length = pool.config.queueCapacity

/-- Nobody stops the pool, and before each request fewer are unanswered than the pool may hold. -/
structure Restrained (pool : Pool) (actions : List Action) : Prop where
  onward : .stop ∉ actions
  within : ∀ front request back middle, actions = front ++ .submit request :: back →
    pool.replay? front = some middle → middle.unanswered.length < middle.capacity

variable {pool next : Pool} {request : WorkRequest}

theorem answer?_isNone {ticket : Nat} :
    (pool.answer? ticket).isNone = true ↔ ticket ∉ pool.answered := by
  constructor
  · intro none answered
    obtain ⟨answer, found⟩ := answer?_of_answered answered
    rw [found] at none
    cases none
  · intro absent
    rcases found : pool.answer? ticket with _ | answer
    · rfl
    · exact absurd (List.mem_map_of_mem (mem_of_answer? found)) absent

theorem Conserved.unanswered_perm (conserved : pool.Conserved) :
    pool.unanswered.Perm pool.pending := by
  have open? (ticket : Nat) : (pool.answer? ticket).isNone = decide (ticket ∉ pool.answered) :=
    Bool.eq_iff_iff.mpr (answer?_isNone.trans decide_eq_true_iff.symm)
  have all := conserved.filter fun ticket => (pool.answer? ticket).isNone
  have settled : (pool.answered.filter fun ticket => (pool.answer? ticket).isNone) = [] := by
    apply List.filter_eq_nil_iff.mpr
    intro ticket answered
    rw [answer?_isNone]
    exact not_not_intro answered
  have due : (pool.pending.filter fun ticket => (pool.answer? ticket).isNone) = pool.pending := by
    apply List.filter_eq_self.mpr
    intro ticket pending
    rw [answer?_isNone]
    exact fun answered => conserved.apart answered pending
  rw [tickets, List.filter_append, settled, due, List.nil_append] at all
  exact all.symm

/-! ### One request -/

theorem Sound.fresh_answer? (sound : pool.Sound) : pool.answer? pool.nextTicket = none := by
  apply Option.isNone_iff_eq_none.mp
  apply answer?_isNone.mpr
  intro answered
  exact Nat.lt_irrefl _ (sound.conserved.mem.mp (.inl answered))

theorem Sound.submit_answer? (sound : pool.Sound) (request : WorkRequest) :
    (pool.submit request).answer? pool.nextTicket = pool.refusal?.map .error := by
  have fresh := sound.fresh_answer?
  have submission := sound.scheduled.submit_transition request
  generalize pool.submit request = behind at submission
  cases submission with
  | refused request refusal =>
      rw [refusal]
      exact List.lookup_cons_self
  | handed request live idle found =>
      have taken : pool.refusal? = none := by
        simp only [refusal?, live, idle, Bool.false_eq_true, if_false, reduceCtorEq, false_and]
      rw [taken]
      exact fresh
  | queued request live busy room =>
      have taken : pool.refusal? = none := by
        simp only [refusal?, live, Bool.false_eq_true, if_false,
          if_neg (not_and_of_not_right _ (Nat.not_le_of_lt room))]
      rw [taken]
      exact fresh

theorem refusal?_live (live : pool.terminated = false) : pool.refusal? =
    if pool.idle = [] ∧ pool.config.queueCapacity ≤ pool.queue.length then
      some (.queueFull pool.config.queueCapacity) else none := by
  rw [refusal?, live, if_neg Bool.false_ne_true]

theorem Sound.admits (sound : pool.Sound) (live : pool.terminated = false)
    (request : WorkRequest) : pool.Admits request := by
  have unanswered := sound.conserved.unanswered_perm.length_eq
  have bounded := sound.scheduled.bounded
  have answer := sound.submit_answer? request
  rw [refusal?_live live] at answer
  constructor
  case room =>
    intro room
    have taken := sound.scheduled.accepts live (unanswered ▸ room)
    rw [sound.submit_answer?, taken]
    rfl
  case refused =>
    intro own given
    rw [answer] at given
    split at given
    · rename_i full
      cases given
      have filled := sound.scheduled.busy_pending full.1
      refine ⟨rfl, ?_⟩
      unfold capacity
      omega
    · cases given
  case full =>
    rw [answer]
    split
    · rename_i full
      exact iff_of_true rfl ⟨full.1, Nat.le_antisymm bounded full.2⟩
    · rename_i room
      exact iff_of_false (fun same => by cases same)
        fun full => room ⟨full.1, Nat.le_of_eq full.2.symm⟩

/-! ### Runs -/

theorem Transition.config {action : Action} (step : Transition pool action next) :
    next.config = pool.config := by
  cases step <;> rfl

theorem Transition.live {action : Action} (step : Transition pool action next)
    (onward : action ≠ .stop) : next.terminated = pool.terminated := by
  cases step with
  | stopped live => exact absurd rfl onward
  | _ => rfl

def Obliging (pool : Pool) : Prop :=
  ∀ entry ∈ pool.answers, ∃ response, entry.2 = .ok response

theorem Transition.obliging {action : Action} (step : Transition pool action next)
    (onward : action ≠ .stop)
    (taken : ∀ request, action = .submit request → pool.refusal? = none)
    (obliging : pool.Obliging) : next.Obliging := by
  cases step with
  | refused request refusal =>
      rw [taken request rfl] at refusal
      cases refusal
  | handed request live idle found => exact obliging
  | queued request live busy room => exact obliging
  | stopped live => exact absurd rfl onward
  | still stopped => exact obliging
  | received found => exact obliging
  | claimed found live waits => exact obliging
  | rested found nothing => exact obliging
  | replied found => exact List.forall_mem_cons.mpr ⟨⟨_, rfl⟩, obliging⟩
  | left stopped found => exact obliging

theorem Restrained.rest {action : Action} {actions : List Action}
    (restrained : pool.Restrained (action :: actions)) (step : pool.step? action = some next) :
    next.Restrained actions where
  onward := fun stop => restrained.onward (List.mem_cons_of_mem action stop)
  within front request back middle split reached := by
    apply restrained.within (action :: front) request back middle (congrArg (action :: ·) split)
    rw [replay?, step]
    exact reached

theorem Sound.replay_obliging {actions : List Action} {last : Pool} (sound : pool.Sound)
    (live : pool.terminated = false) (obliging : pool.Obliging)
    (restrained : pool.Restrained actions) (run : pool.replay? actions = some last) :
    last.Obliging := by
  induction actions generalizing pool with
  | nil =>
      cases run
      exact obliging
  | cons action rest ih =>
      obtain ⟨next, step, later⟩ := replay?_cons run
      have transition := sound.transition step
      have onward : action ≠ .stop := fun stop => restrained.onward (stop ▸ List.mem_cons_self)
      refine ih (sound.step step) ((transition.live onward).trans live) ?_
        (restrained.rest step) later
      refine transition.obliging onward (fun request submits => ?_) obliging
      have room := restrained.within [] request rest pool (submits ▸ rfl) rfl
      rw [sound.conserved.unanswered_perm.length_eq] at room
      exact sound.scheduled.accepts live room

/-- A request to a pool that is not stopped is refused only where no worker is idle and the queue is
full, and never while fewer are unanswered than the pool may hold. Who keeps below that gets a
response to everything. -/
theorem admits_within_capacity (config : PoolConfig) {actions : List Action} {pool : Pool}
    (reached : (new config).replay? actions = some pool) :
    pool.capacity = max 1 config.size + config.queueCapacity ∧
      (pool.terminated = false → ∀ request, pool.Admits request) ∧
      ((new config).Restrained actions →
        ∀ ticket error, pool.answer? ticket ≠ some (.error error)) := by
  have start := new_sound config
  refine ⟨?_, fun live request => (start.replay reached).admits live request, ?_⟩
  · have kept := (start.replay_keeps (·.config = (new config).config)
      (fun step same => step.config.trans same) rfl reached).2
    rw [capacity, kept]
    rfl
  · intro restrained ticket error refused
    have obliging := start.replay_obliging rfl (fun _ none => absurd none List.not_mem_nil)
      restrained reached
    obtain ⟨response, same⟩ := obliging _ (mem_of_answer? refused)
    cases same

/-- One worker and no queue: the second request comes behind the reply to the first. -/
theorem admits_within_capacity_unqueued :
    let request : WorkRequest := ⟨3, [0x31], "a", .materialize⟩
    let steps : List Action := [.submit request, .receive 0, .claim 0, .reply 0, .submit request]
    ∃ pool, (new ⟨1, 0⟩).replay? steps = some pool ∧ pool.terminated = false ∧
      (new ⟨1, 0⟩).Restrained steps ∧ pool.capacity = 1 ∧ pool.unanswered.length = 1 ∧
      (pool.submit request).answer? pool.nextTicket = some (.error (.queueFull 0)) ∧
      pool.Admits request ∧ ∀ ticket error, pool.answer? ticket ≠ some (.error error) := by
  intro request steps
  obtain ⟨pool, reached, live, waits, refused⟩ : ∃ pool, (new ⟨1, 0⟩).replay? steps = some pool ∧
      pool.terminated = false ∧ pool.unanswered.length = 1 ∧
      (pool.submit request).answer? pool.nextTicket = some (.error (.queueFull 0)) :=
    ⟨_, rfl, rfl, rfl, rfl⟩
  have restrained : (new ⟨1, 0⟩).Restrained steps := by
    constructor
    case onward => simp only [steps, List.mem_cons, reduceCtorEq, List.not_mem_nil, or_self,
      not_false_eq_true]
    case within =>
      intro front own back middle split run
      rcases front with _ | ⟨_, _ | ⟨_, _ | ⟨_, _ | ⟨_, _ | ⟨_, rest⟩⟩⟩⟩⟩ <;>
        simp only [steps, List.cons_append, List.nil_append, List.cons_eq_cons, reduceCtorEq,
          false_and, and_false, List.nil_eq, List.append_eq_nil_iff] at split
      · cases run
        exact Nat.zero_lt_one
      · obtain ⟨rfl, rfl, rfl, rfl, -⟩ := split
        cases run
        exact Nat.zero_lt_one
  obtain ⟨capacity, admits, obliging⟩ := admits_within_capacity ⟨1, 0⟩ reached
  exact ⟨pool, reached, live, restrained, capacity, waits, refused, admits live request,
    obliging restrained⟩

end JsonProjection.Pool

import JsonProjection.Proofs.Pool.Answers
import Mathlib.Algebra.BigOperators.Group.List.Basic
import Mathlib.Data.List.Perm.Subperm

/-!
A pool takes requests until it is full, and its workers come to rest.

When no worker is idle, each one has a request, so what is pending fills the pool as soon as the
queue does. Each step of a worker leaves it less to do, or the worker leaves a stopped pool.
-/

namespace JsonProjection

def Phase.work : Phase → Nat
  | .running _ => 2
  | .replying _ _ next? => 1 + 2 * next?.toList.length
  | _ => 0

theorem Phase.work_behind (next? : Option Task) :
    (Phase.behind next?).work = 2 * next?.toList.length := by
  cases next? <;> rfl

def Worker.work (worker : Worker) : Nat :=
  3 * worker.box.length + worker.phase.work

def Phase.presence : Phase → Nat
  | .exited => 0
  | _ => 1

theorem Phase.presence_behind (next? : Option Task) : (Phase.behind next?).presence = 1 := by
  cases next? <;> rfl

def Worker.presence (worker : Worker) : Nat :=
  worker.phase.presence

namespace Pool

def work (pool : Pool) : Nat :=
  2 * pool.queue.length + (pool.workers.map Worker.work).sum

def presence (pool : Pool) : Nat :=
  (pool.workers.map Worker.presence).sum

def Action.worker? : Action → Option Nat
  | .submit _ => none
  | .stop => none
  | .receive index => some index
  | .claim index => some index
  | .reply index => some index
  | .exit index => some index

variable {pool next : Pool}

/-! ### Room for requests -/

theorem pending_length (pool : Pool) :
    pool.pending.length =
      pool.queue.length + (pool.workers.map fun worker => worker.tickets.length).sum := by
  rw [pending, List.length_append, List.length_map, List.length_flatMap]

theorem Scheduled.busy_pending (scheduled : pool.Scheduled) (busy : pool.idle = []) :
    pool.config.size + pool.queue.length ≤ pool.pending.length := by
  have each : ∀ held ∈ pool.workers.map fun worker => worker.tickets.length, 1 ≤ held := by
    intro held present
    obtain ⟨worker, there, rfl⟩ := List.mem_map.mp present
    obtain ⟨index, found⟩ := List.mem_iff_getElem?.mp there
    have load := scheduled.loads index worker found
    rw [busy, List.count_nil] at load
    rw [Worker.tickets, List.length_append, List.length_map]
    omega
  have all := List.length_le_sum_of_one_le _ each
  rw [List.length_map, scheduled.size] at all
  rw [pending_length]
  omega

theorem Scheduled.accepts (scheduled : pool.Scheduled) (live : pool.terminated = false)
    (room : pool.pending.length < pool.capacity) : pool.refusal? = none := by
  unfold refusal?
  rw [live, if_neg Bool.false_ne_true, if_neg]
  rintro ⟨busy, full⟩
  have filled := scheduled.busy_pending busy
  unfold capacity at room
  omega

/-! ### Steps of workers -/

theorem workerStep?_step {index : Nat} (step : pool.workerStep? index = some next) :
    ∃ action, action.worker? = some index ∧ pool.step? action = some next := by
  unfold workerStep? at step
  split at step
  · rename_i received
    cases step
    exact ⟨.receive index, rfl, received⟩
  split at step
  · rename_i claimed
    cases step
    exact ⟨.claim index, rfl, claimed⟩
  split at step
  · rename_i replied
    cases step
    exact ⟨.reply index, rfl, replied⟩
  · exact ⟨.exit index, rfl, step⟩

theorem quiet_of_workerStep? (stuck : ∀ index, pool.workerStep? index = none) : pool.Quiet := by
  intro index
  have none := stuck index
  unfold workerStep? at none
  rcases received : pool.receive? index with _ | _
  · rcases claimed : pool.claim? index with _ | _
    · rcases replied : pool.reply? index with _ | _
      · exact ⟨rfl, rfl, rfl⟩
      · simp only [received, claimed, replied, reduceCtorEq] at none
    · simp only [received, claimed, reduceCtorEq] at none
  · simp only [received, reduceCtorEq] at none

theorem Scheduled.quiet_of_firstStep? (scheduled : pool.Scheduled)
    (stuck : pool.firstStep? = none) : pool.Quiet := by
  apply quiet_of_workerStep?
  intro index
  by_cases inside : index < pool.config.size
  · exact List.findSome?_eq_none_iff.mp stuck index (List.mem_range.mpr inside)
  · rw [← scheduled.size] at inside
    have nobody := List.getElem?_eq_none (Nat.le_of_not_lt inside)
    unfold workerStep? receive? claim? reply? exit?
    rw [nobody]
    cases pool.terminated <;> rfl

/-- What a step of a worker does to the pool as a whole. -/
structure Advances (pool next : Pool) : Prop where
  less : next.work < pool.work
  live : next.terminated = false
  issued : next.nextTicket = pool.nextTicket

theorem Transition.lessens {index : Nat} {action : Action} (step : Transition pool action next)
    (own : action.worker? = some index) :
    (next.work < pool.work ∧ next.presence = pool.presence) ∨
      (pool.terminated = true ∧ next.work = pool.work ∧ next.presence < pool.presence) := by
  cases step with
  | refused request refusal => cases own
  | handed request live idle found => cases own
  | queued request live busy room => cases own
  | stopped live => cases own
  | still stopped => cases own
  | @received index task rest desk found =>
      have moved := sum_set Worker.work found ⟨rest, .running task, desk⟩
      have stays := sum_set Worker.presence found ⟨rest, .running task, desk⟩
      simp only [Worker.work, Phase.work, List.length_cons] at moved
      simp only [Worker.presence, Phase.presence] at stays
      left
      simp only [work, presence, setWorker]
      omega
  | @claimed index box task waiting rest desk found _ waits =>
      have moved := sum_set Worker.work found ⟨box, .replying task.ticket
        (desk.answer task.request).2 (some waiting), (desk.answer task.request).1⟩
      have stays := sum_set Worker.presence found ⟨box, .replying task.ticket
        (desk.answer task.request).2 (some waiting), (desk.answer task.request).1⟩
      simp only [Worker.work, Phase.work, Option.toList_some, List.length_cons,
        List.length_nil] at moved
      simp only [Worker.presence, Phase.presence] at stays
      left
      simp only [work, presence, setWorker, waits, List.length_cons]
      omega
  | @rested index box task desk found nothing =>
      have moved := sum_set Worker.work found ⟨box, .replying task.ticket
        (desk.answer task.request).2 none, (desk.answer task.request).1⟩
      have stays := sum_set Worker.presence found ⟨box, .replying task.ticket
        (desk.answer task.request).2 none, (desk.answer task.request).1⟩
      simp only [Worker.work, Phase.work, Option.toList_none, List.length_nil] at moved
      simp only [Worker.presence, Phase.presence] at stays
      left
      simp only [work, presence, setWorker]
      omega
  | @replied index own box response next? desk found =>
      have moved := sum_set Worker.work found ⟨box, Phase.behind next?, desk⟩
      have stays := sum_set Worker.presence found ⟨box, Phase.behind next?, desk⟩
      simp only [Worker.work, Phase.work_behind] at moved
      simp only [Worker.presence, Phase.presence_behind] at stays
      simp only [Phase.work, Phase.presence] at moved stays
      left
      simp only [work, presence, setWorker, record]
      omega
  | @left index desk stopped found =>
      have moved := sum_set Worker.work found ⟨[], .exited, desk⟩
      have leaves := sum_set Worker.presence found ⟨[], .exited, desk⟩
      simp only [Worker.work, Phase.work, List.length_nil] at moved
      simp only [Worker.presence, Phase.presence] at leaves
      right
      simp only [work, presence, setWorker]
      exact ⟨stopped, by omega, by omega⟩

theorem Transition.own_keeps {index : Nat} {action : Action} (step : Transition pool action next)
    (own : action.worker? = some index) :
    next.terminated = pool.terminated ∧ next.nextTicket = pool.nextTicket := by
  cases action with
  | submit request => cases own
  | stop => cases own
  | receive other =>
      cases step
      exact ⟨rfl, rfl⟩
  | claim other => cases step <;> exact ⟨rfl, rfl⟩
  | reply other =>
      cases step
      exact ⟨rfl, rfl⟩
  | exit other =>
      cases step
      exact ⟨rfl, rfl⟩

theorem Transition.advances {index : Nat} {action : Action} (step : Transition pool action next)
    (own : action.worker? = some index) (live : pool.terminated = false) :
    pool.Advances next := by
  obtain ⟨same, issued⟩ := step.own_keeps own
  rcases step.lessens own with ⟨less, -⟩ | ⟨stopped, -, -⟩
  · exact ⟨less, same.trans live, issued⟩
  · rw [live] at stopped
    cases stopped

/-! ### Submissions -/

theorem Transition.submit_live {request : WorkRequest}
    (step : Transition pool (.submit request) next) (live : pool.terminated = false) :
    next.terminated = false := by
  cases step <;> exact live

theorem Sound.pending_of_step (sound : pool.Sound) {action : Action}
    (step : pool.step? action = some next) {ticket : Nat} (pending : ticket ∈ next.pending)
    (old : ticket < pool.nextTicket) : ticket ∈ pool.pending := by
  rcases sound.conserved.mem.mpr old with answered | before
  · obtain ⟨entry, present, rfl⟩ := List.mem_map.mp answered
    have still : entry.1 ∈ next.answered :=
      List.mem_map_of_mem ((sound.transition step).mem_answers present)
    exact absurd pending ((sound.step step).conserved.apart still)
  · exact before

/-! ### What is left to do -/

theorem Transition.submit_work {request : WorkRequest}
    (step : Transition pool (.submit request) next) : next.work ≤ pool.work + 3 := by
  cases step with
  | refused request refusal => exact Nat.le_add_right _ _
  | @handed index rest worker request live idle found =>
      have moved := sum_set Worker.work found { worker with
        box := worker.box ++ [pool.ticketed request] }
      simp only [work, setWorker, issue, Worker.work, List.length_append,
        List.length_singleton] at moved ⊢
      omega
  | queued request live busy room =>
      simp only [work, issue, List.length_append, List.length_singleton]
      omega

theorem work_le (pool : Pool) : pool.work ≤ 3 * pool.pending.length := by
  have each (worker : Worker) : worker.work ≤ 3 * worker.tickets.length := by
    obtain ⟨box, phase, desk⟩ := worker
    simp only [Worker.work, Worker.tickets, Worker.tasks, List.length_append, List.length_map]
    cases phase <;> simp only [Phase.work, Phase.tasks, Phase.replies, List.length_cons,
      List.length_nil] <;> omega
  have all : (pool.workers.map Worker.work).sum ≤
      3 * (pool.workers.map fun worker => worker.tickets.length).sum := by
    induction pool.workers with
    | nil => exact Nat.le_refl 0
    | cons worker rest ih =>
        have own := each worker
        rw [List.map_cons, List.sum_cons, List.map_cons, List.sum_cons]
        omega
  rw [work, pending_length]
  omega

end Pool
end JsonProjection

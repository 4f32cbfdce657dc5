import JsonProjection.Proofs.Pool.Transition
import Mathlib.Algebra.Order.Ring.Nat
import Mathlib.Data.List.Nodup

/-!
Every ticket is in one place.

A ticket that was given out stands under an answer, in the queue, in the box of a worker or in its
hands. Steps move tickets on; they lose none and double none. Workers that have nothing more to do
leave none behind.
-/

namespace JsonProjection

def Worker.tickets (worker : Worker) : List Nat :=
  worker.tasks.map (·.ticket) ++ worker.phase.replies.map (·.1)

namespace Pool

def pending (pool : Pool) : List Nat :=
  pool.queue.map (·.ticket) ++ pool.workers.flatMap Worker.tickets

def answered (pool : Pool) : List Nat :=
  pool.answers.map (·.1)

def tickets (pool : Pool) : List Nat :=
  pool.answered ++ pool.pending

/-- Each ticket that was given out is answered or pending, and is so once. -/
def Conserved (pool : Pool) : Prop :=
  pool.tickets.Perm (List.range pool.nextTicket)

def replay? (pool : Pool) : List Action → Option Pool
  | [] => some pool
  | action :: rest => (pool.step? action).bind fun next => next.replay? rest

/-- No worker can take a request out of its box, finish one or reply. -/
def Quiet (pool : Pool) : Prop :=
  ∀ index, pool.receive? index = none ∧ pool.claim? index = none ∧ pool.reply? index = none

variable {pool next : Pool}

/-! ### Tickets in the hands of workers -/

theorem sum_set (weight : Worker → Nat) {workers : List Worker} {index : Nat} {worker : Worker}
    (found : workers[index]? = some worker) (own : Worker) :
    ((workers.set index own).map weight).sum + weight worker =
      (workers.map weight).sum + weight own := by
  induction workers generalizing index with
  | nil => cases found
  | cons first rest ih =>
      cases index with
      | zero =>
          cases found
          simp only [List.set_cons_zero, List.map_cons, List.sum_cons]
          omega
      | succ index =>
          have moved := ih found
          simp only [List.set_cons_succ, List.map_cons, List.sum_cons]
          omega

theorem setWorker_count {index : Nat} {worker : Worker}
    (found : pool.workers[index]? = some worker) (own : Worker) (ticket : Nat) :
    (pool.setWorker index own).tickets.count ticket + worker.tickets.count ticket =
      pool.tickets.count ticket + own.tickets.count ticket := by
  have moved := sum_set (List.count ticket ∘ Worker.tickets) found own
  simp only [tickets, pending, setWorker, answered, List.count_append, List.count_flatMap]
  simp only [Function.comp_apply] at moved
  omega

theorem setWorker_tickets {index : Nat} {worker own : Worker}
    (found : pool.workers[index]? = some worker) (same : own.tickets.Perm worker.tickets) :
    (pool.setWorker index own).tickets.Perm pool.tickets := by
  apply List.perm_iff_count.mpr
  intro ticket
  have moved := setWorker_count found own ticket
  have equal := same.count_eq ticket
  omega

theorem mem_pending {ticket : Nat} : ticket ∈ pool.pending ↔
    ticket ∈ pool.queue.map (·.ticket) ∨
      ∃ (index : Nat) (worker : Worker), pool.workers[index]? = some worker ∧
        ticket ∈ worker.tickets := by
  rw [pending, List.mem_append, List.mem_flatMap]
  refine or_congr_right ⟨?_, ?_⟩
  · rintro ⟨worker, present, held⟩
    obtain ⟨index, found⟩ := List.mem_iff_getElem?.mp present
    exact ⟨index, worker, found, held⟩
  · rintro ⟨index, worker, found, held⟩
    exact ⟨worker, List.mem_of_getElem? found, held⟩

/-! ### Steps -/

/-- A step gives out the next ticket or moves tickets about. -/
theorem Transition.tickets {action : Action} (step : Transition pool action next) :
    (next.nextTicket = pool.nextTicket ∧ next.tickets.Perm pool.tickets) ∨
      (next.nextTicket = pool.nextTicket + 1 ∧
        next.tickets.Perm (pool.nextTicket :: pool.tickets)) := by
  cases step with
  | refused request refusal => exact .inr ⟨rfl, .refl _⟩
  | @handed index rest worker request live idle found =>
      refine .inr ⟨rfl, List.perm_iff_count.mpr fun ticket => ?_⟩
      have moved := @setWorker_count { pool.issue with idle := rest } index worker found
        { worker with box := worker.box ++ [pool.ticketed request] } ticket
      have same : Pool.tickets { pool.issue with idle := rest } = pool.tickets := rfl
      simp only [same, Worker.tickets, Worker.tasks, ticketed, List.map_append, List.map_cons,
        List.map_nil, List.count_append, List.count_cons, List.count_nil] at moved ⊢
      omega
  | queued request live busy room =>
      refine .inr ⟨rfl, List.perm_iff_count.mpr fun ticket => ?_⟩
      simp only [Pool.tickets, answered, pending, issue, ticketed, List.map_append, List.map_cons,
        List.map_nil, List.count_append, List.count_cons, List.count_nil]
      omega
  | stopped live =>
      refine .inl ⟨rfl, List.perm_iff_count.mpr fun ticket => ?_⟩
      have same : (pool.queue.reverse.map fun task =>
          (task.ticket, (.error .terminated : Except PoolError WorkResponse))).map (·.1) =
            (pool.queue.map (·.ticket)).reverse := by
        rw [List.map_map, ← List.map_reverse]
        rfl
      simp only [Pool.tickets, answered, pending, List.map_append, same, List.map_nil,
        List.count_append, List.count_reverse, List.count_nil]
      omega
  | still stopped => exact .inl ⟨rfl, .refl _⟩
  | received found =>
      refine .inl ⟨rfl, setWorker_tickets found ?_⟩
      simp only [Worker.tickets, Worker.tasks, Phase.tasks, Phase.replies, List.map_nil,
        List.append_nil]
      exact (List.perm_append_singleton _ _).map _
  | @claimed index box task waiting rest desk found live waits =>
      refine .inl ⟨rfl, List.perm_iff_count.mpr fun ticket => ?_⟩
      have moved := @setWorker_count { pool with queue := rest } index _ found ⟨box,
        .replying task.ticket (desk.answer task.request).2 (some waiting),
        (desk.answer task.request).1⟩ ticket
      have claims : pool.tickets.count ticket =
          (Pool.tickets { pool with queue := rest }).count ticket +
            [waiting.ticket].count ticket := by
        simp only [Pool.tickets, answered, pending, waits, List.map_cons, List.count_append,
          List.count_cons, List.count_nil]
        omega
      simp only [Worker.tickets, Worker.tasks, Phase.tasks, Phase.replies, Option.toList_some,
        List.map_append, List.map_cons, List.map_nil, List.count_append, List.count_cons,
        List.count_nil] at moved claims ⊢
      omega
  | @rested index box task desk found nothing =>
      refine .inl ⟨rfl, @setWorker_tickets { pool with idle := index :: pool.idle } _ _ _ found ?_⟩
      simp only [Worker.tickets, Worker.tasks, Phase.tasks, Phase.replies, Option.toList_none,
        List.map_append, List.map_cons, List.map_nil, List.append_nil]
      exact .refl _
  | @replied index own box response next? desk found =>
      refine .inl ⟨rfl, List.perm_iff_count.mpr fun ticket => ?_⟩
      have moved := setWorker_count found ⟨box, Phase.behind next?, desk⟩ ticket
      have answers : (Pool.tickets ((pool.setWorker index ⟨box, Phase.behind next?, desk⟩).record
          own (.ok response))).count ticket =
            (pool.setWorker index ⟨box, Phase.behind next?, desk⟩).tickets.count ticket +
              [own].count ticket := by
        simp only [Pool.tickets, answered, pending, record, List.map_cons, List.cons_append,
          List.count_cons, List.count_nil, Nat.zero_add]
      simp only [Worker.tickets, Worker.tasks, Phase.tasks_behind, Phase.replies_behind] at moved
      simp only [Phase.tasks, Phase.replies, List.map_append, List.map_cons, List.map_nil,
        List.count_append, List.count_cons, List.count_nil] at moved answers ⊢
      omega
  | left stopped found => exact .inl ⟨rfl, setWorker_tickets found (.refl _)⟩

theorem new_conserved (config : PoolConfig) : (new config).Conserved := by
  have empty : (new config).workers.flatMap Worker.tickets = [] := by
    apply List.flatMap_eq_nil_iff.mpr
    intro worker present
    rw [List.eq_of_mem_replicate present]
    rfl
  show (([] : List Nat) ++ ([] ++ (new config).workers.flatMap Worker.tickets)).Perm []
  rw [empty]
  exact .refl _

theorem Transition.conserved {action : Action} (step : Transition pool action next)
    (conserved : pool.Conserved) : next.Conserved := by
  unfold Conserved
  rcases step.tickets with ⟨same, moved⟩ | ⟨issued, moved⟩
  · rw [same]
    exact moved.trans conserved
  · rw [issued, List.range_succ]
    exact (moved.trans (conserved.cons _)).trans (List.perm_append_singleton _ _).symm

/-! ### What conservation says of one ticket -/

theorem Conserved.nodup (conserved : pool.Conserved) : pool.tickets.Nodup :=
  conserved.nodup_iff.mpr List.nodup_range

theorem Conserved.mem (conserved : pool.Conserved) {ticket : Nat} :
    ticket ∈ pool.answered ∨ ticket ∈ pool.pending ↔ ticket < pool.nextTicket := by
  rw [← List.mem_append, ← List.mem_range]
  exact conserved.mem_iff

theorem Conserved.apart (conserved : pool.Conserved) {ticket : Nat}
    (answered : ticket ∈ pool.answered) : ticket ∉ pool.pending :=
  fun pending => (List.nodup_append.mp conserved.nodup).2.2 ticket answered ticket pending rfl

/-! ### Workers that have nothing more to do -/

theorem Scheduled.quiet_worker (scheduled : pool.Scheduled) (quiet : pool.Quiet) {index : Nat}
    {worker : Worker} (found : pool.workers[index]? = some worker) :
    worker.tickets = [] ∧ worker.tasks = [] := by
  obtain ⟨noReceive, noClaim, noReply⟩ := quiet index
  obtain ⟨box, phase, desk⟩ := worker
  cases phase with
  | waiting =>
      cases box with
      | nil => exact ⟨rfl, rfl⟩
      | cons task rest =>
          rw [receive?, found] at noReceive
          cases noReceive
  | running task =>
      simp only [claim?, found] at noClaim
      split at noClaim <;> cases noClaim
  | replying ticket response next? =>
      rw [reply?, found] at noReply
      cases noReply
  | exited =>
      obtain rfl : box = [] := (scheduled.gone index _ found rfl).2
      exact ⟨rfl, rfl⟩

theorem Scheduled.quiet_pending (scheduled : pool.Scheduled) (quiet : pool.Quiet) :
    pool.pending = [] := by
  have hands : pool.workers.flatMap Worker.tickets = [] := by
    apply List.flatMap_eq_nil_iff.mpr
    intro worker present
    obtain ⟨index, found⟩ := List.mem_iff_getElem?.mp present
    exact (scheduled.quiet_worker quiet found).1
  have queue : pool.queue = [] := by
    by_cases stopped : pool.terminated = true
    · exact scheduled.drained stopped
    · rcases scheduled.busy (Bool.not_eq_true _ ▸ stopped) with queue | nobody
      · exact queue
      · -- The first worker is not idle, so it would have something to do.
        have first : 0 < pool.workers.length := scheduled.size ▸ scheduled.manned
        have found := List.getElem?_eq_getElem first
        have load := scheduled.loads 0 _ found
        rw [nobody, (scheduled.quiet_worker quiet found).2] at load
        cases load
  rw [pending, hands, queue]
  rfl

end Pool
end JsonProjection

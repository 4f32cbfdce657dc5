import JsonProjection.Proofs.Delivery.Handover

/-!
The calls that hand matches to a receiver, as ways through their agendas.

A query and a task in the background take the order in which each callback settles before the next
one starts. What holds of every order holds of theirs.
-/

namespace JsonProjection

namespace Handover

open Delivery

def Ends (sink : Sink) (agenda : Agenda) (delivery : Delivery)
    (outcome : Except QueryError Counts) : Prop :=
  ∃ left, Reaches sink (new agenda) ⟨left, delivery, .ended outcome⟩

variable (sink : Sink) {delivery : Delivery}

theorem promptly_reaches (agenda : Agenda) (batch : List Match)
    (waiting : delivery.waiting = batch) (idle : delivery.running = []) :
    Reaches sink ⟨agenda, delivery, .within⟩ ⟨agenda, delivery.promptly sink batch, .within⟩ ∧
      (delivery.promptly sink batch).isOver = true := by
  induction batch generalizing delivery with
  | nil => exact ⟨.refl, isOver_iff.mpr ⟨waiting, idle⟩⟩
  | cons found rest ih =>
      let begun : Delivery :=
        { delivery with
          waiting := rest
          running := [(delivery.next, found)]
          next := delivery.next + 1
          latest := .started delivery.next found :: delivery.latest }
      have started : delivery.start? = some begun := by
        refine start?_eq_some.mpr ⟨found, rest, waiting, ?_⟩
        rw [idle]
        rfl
      have runs : begun.running.lookup delivery.next = some found := List.lookup_cons_self
      obtain ⟨settled, done⟩ : ∃ settled, begun.settle? sink delivery.next = some settled :=
        ⟨_, settle?_eq_some.mpr ⟨found, runs, rfl⟩⟩
      have remains : settled.waiting = rest ∧ settled.running = [] := by
        obtain ⟨own, -, rfl⟩ := settle?_eq_some.mp done
        refine ⟨rfl, ?_⟩
        show ([(delivery.next, found)].filter fun entry => entry.1 != delivery.next) = []
        rw [List.filter_cons, bne_self_eq_false]
        rfl
      have same : delivery.promptly sink (found :: rest) = settled.promptly sink rest := by
        simp only [promptly, started, done]
      obtain ⟨later, quiet⟩ := ih remains.1 remains.2
      rw [same]
      exact ⟨.head (.start started) (.head (.settle _ done) later), quiet⟩

theorem hand_reaches (delivery : Delivery) (batch : List Match) (rest : List (List Match))
    (ending : Except QueryError Counts) (idle : delivery.running = []) :
    match (delivery.hand sink batch).failure? with
    | some reason => Reaches sink ⟨⟨batch :: rest, ending⟩, delivery, .between⟩
        ⟨⟨rest, ending⟩, delivery.hand sink batch, .ended (.error (.sink reason))⟩
    | none => Reaches sink ⟨⟨batch :: rest, ending⟩, delivery, .between⟩
        ⟨⟨rest, ending⟩, delivery.hand sink batch, .between⟩ ∧ (delivery.hand sink batch).Calm := by
  have begun : (delivery.begin batch).running = [] := idle
  obtain ⟨through, quiet⟩ := promptly_reaches sink ⟨rest, ending⟩ batch rfl begun
  have front : Reaches sink ⟨⟨batch :: rest, ending⟩, delivery, .between⟩
      ⟨⟨rest, ending⟩, delivery.hand sink batch, .within⟩ :=
    .head (.begin batch rest ending delivery) through
  split
  case h_1 reason failed => exact front.tail (.refuse quiet failed)
  case h_2 calm => exact ⟨front.tail (.proceed quiet calm), (isOver_iff.mp quiet).2, calm⟩

theorem conclude_reaches (counts : Counts) {last : Delivery} {failure? : Option String}
    (concluded : delivery.conclude sink counts = (last, failure?)) :
    Reaches sink ⟨⟨[], .ok counts⟩, delivery, .between⟩
      ⟨⟨[], .ok counts⟩, last, .ended (verdict counts failure?)⟩ := by
  have step : Step sink ⟨⟨[], .ok counts⟩, delivery, .between⟩ _ := .conclude counts delivery
  rw [concluded] at step
  exact .single step

/-! ### One document -/

theorem deliverQuery_ends (sink : Sink) (query : String) (mode : EmitMode) (source : Bytes) :
    ∃ outcome, Ends sink (.ofQuery query mode source) (deliverQuery sink query mode source).1
        outcome ∧
      (deliverQuery sink query mode source).2 = outcome.map fun counts => ⟨none, [], counts⟩ := by
  unfold deliverQuery Agenda.ofQuery
  rcases runQuery query mode source with error | document
  · exact ⟨.error error, ⟨_, .single (.breakOff error Delivery.new)⟩, rfl⟩
  have way := hand_reaches sink Delivery.new document.found []
    (.ok document.counts) rfl
  rcases failed : (Delivery.new.hand sink document.found).failure? with _ | reason
  · rw [failed] at way
    rcases concluded : (Delivery.new.hand sink document.found).conclude sink document.counts with
      ⟨last, failure?⟩
    refine ⟨verdict document.counts failure?, ?_⟩
    have ends := way.1.trans (conclude_reaches sink document.counts concluded)
    cases failure? with
    | none => simp only [failed, concluded]; exact ⟨⟨_, ends⟩, rfl⟩
    | some reason => simp only [failed, concluded]; exact ⟨⟨_, ends⟩, rfl⟩
  · rw [failed] at way
    simp only [failed]
    exact ⟨.error (.sink reason), ⟨_, way⟩, rfl⟩

end Handover

/-! ### A source in the background -/

namespace Handover

open Delivery BackgroundTask

variable (sink : Sink) {task : BackgroundTask}

theorem finish_reaches (unended : task.outcome? = none)
    (calm : task.delivery.Calm) :
    ∃ left outcome, Reaches sink ⟨.ofSource task.engine [], task.delivery, .between⟩
        ⟨left, (task.finish sink).delivery, .ended outcome⟩ ∧
      (task.finish sink).outcome? = some outcome := by
  unfold finish Agenda.ofSource
  simp only [unended]
  rcases task.engine.finish with ⟨engine, _ | error⟩
  · have way := hand_reaches sink task.delivery engine.take.1 [] (.ok engine.take.2.counts)
      calm.running
    simp only [handOver]
    rcases failed : (task.delivery.hand sink engine.take.1).failure? with _ | reason
    · rw [failed] at way
      rcases concluded : (task.delivery.hand sink engine.take.1).conclude sink
        engine.take.2.counts with ⟨last, failure?⟩
      have ends := way.1.trans (conclude_reaches sink engine.take.2.counts concluded)
      cases failure? with
      | none => exact ⟨_, _, ends, rfl⟩
      | some reason => exact ⟨_, _, ends, rfl⟩
    · rw [failed] at way
      exact ⟨_, _, way, rfl⟩
  · exact ⟨_, _, .single (.breakOff (.document error) task.delivery), rfl⟩

theorem arriveAll_reaches (unended : task.outcome? = none) (calm : task.delivery.Calm)
    (source : List Arrival) :
    ∃ left outcome, Reaches sink ⟨.ofSource task.engine source, task.delivery, .between⟩
        ⟨left, ((task.arriveAll sink source).finish sink).delivery, .ended outcome⟩ ∧
      ((task.arriveAll sink source).finish sink).outcome? = some outcome := by
  induction source generalizing task with
  | nil => exact finish_reaches sink unended calm
  | cons arrival rest ih =>
      have arrived : task.arriveAll sink (arrival :: rest) =
          (task.arrive sink arrival).arriveAll sink rest := rfl
      rw [arrived]
      cases arrival with
      | failure reason =>
          rw [arrive_failure unended, finish_ended rfl]
          exact ⟨_, _, .single (.breakOff (.source reason) task.delivery), rfl⟩
      | chunk bytes =>
          unfold Agenda.ofSource
          rcases fed : task.engine.feed bytes with ⟨engine, _ | error⟩
          · have way := hand_reaches sink task.delivery engine.take.1
              (Agenda.ofSource engine.take.2 rest).batches
              (Agenda.ofSource engine.take.2 rest).ending calm.running
            have handed : ({ task with engine } : BackgroundTask).handOver sink =
                ⟨engine.take.2, task.delivery.hand sink engine.take.1,
                  (task.delivery.hand sink engine.take.1).failure?.map fun reason =>
                    .error (.sink reason)⟩ := rfl
            rw [arrive_chunk unended fed, handed]
            rcases failed : (task.delivery.hand sink engine.take.1).failure? with _ | reason
            · rw [failed] at way
              let behind : BackgroundTask :=
                ⟨engine.take.2, task.delivery.hand sink engine.take.1, none⟩
              have live : behind.outcome? = none := rfl
              obtain ⟨left, outcome, later, ended⟩ := ih live way.2
              exact ⟨left, outcome, way.1.trans later, ended⟩
            · rw [failed] at way
              rw [Option.map_some, finish_ended rfl]
              exact ⟨_, _, way, rfl⟩
          · rw [arrive_error unended fed, finish_ended rfl]
            exact ⟨_, _, .single (.breakOff (.document error) task.delivery), rfl⟩

/-- In every order of settling, a receiver sees no more than `Barrier` allows, no call is blocked,
and all come to an end. Whether a call succeeds does not depend on the order. A query and a task in
the background go this way. -/
theorem delivery_barrier (sink : Sink) :
    (∀ (agenda : Agenda) (handover : Handover), Reaches sink (new agenda) handover →
      Barrier sink agenda handover.delivery.events handover.outcome? ∧
      (handover.outcome? = none → ∃ next, Step sink handover next) ∧
      ∀ outcome, handover.outcome? = some outcome → ∀ counts, outcome = .ok counts ↔
        agenda.ending = .ok counts ∧
        (∀ callback ∈ agenda.batches.flatten.zipIdx, (sink.answer callback).2 = none) ∧
        sink.onCounts counts = none ∧ sink.onDrain = none) ∧
    (∀ run : Nat → Handover, ∃ count, ¬Step sink (run count) (run (count + 1))) ∧
    (∀ (query : String) (mode : EmitMode) (source : Bytes), ∃ outcome,
      Ends sink (.ofQuery query mode source) (deliverQuery sink query mode source).1 outcome ∧
      (deliverQuery sink query mode source).2 = outcome.map fun counts => ⟨none, [], counts⟩) ∧
    ∀ (group : Group) (options : EngineOptions) (source : List Arrival),
      let task := ((BackgroundTask.new group options).arriveAll sink source).finish sink
      ∃ outcome, Ends sink (.ofSource (Engine.new group options) source) task.delivery outcome ∧
        task.outcome? = some outcome := by
  refine ⟨?_, exists_not_step sink, deliverQuery_ends sink, ?_⟩
  · intro agenda handover reached
    refine ⟨reached.barrier, exists_step sink handover, ?_⟩
    intro outcome ended counts
    have barrier := reached.barrier
    rw [ended] at barrier
    exact barrier.ok_iff counts
  · intro group options source
    have fresh : (BackgroundTask.new group options).delivery.Calm := ⟨rfl, rfl⟩
    obtain ⟨left, outcome, way, ended⟩ := arriveAll_reaches sink rfl fresh source
    exact ⟨outcome, ⟨left, way⟩, ended⟩

set_option maxRecDepth 20000 in
/-- The second callback of `[1,2]` fails first. -/
theorem delivery_barrier_reversed :
    let sink : Sink := ⟨fun index _ => some (if index = 0 then "slow" else "fast"),
      fun _ => none, none⟩
    let agenda : Agenda := .ofQuery "\x7ba\x7d" .materialize [0x5B, 0x31, 0x2C, 0x32, 0x5D]
    ∃ handover, Reaches sink (new agenda) handover ∧
      handover.outcome? = some (.error (.sink "fast")) ∧
      Barrier sink agenda handover.delivery.events (some (.error (.sink "fast"))) := by
  intro sink agenda
  have reached : Reaches sink (new agenda) _ :=
    .head (.begin [.value (.integer 1), .value (.integer 2)] [] (.ok ⟨2, 5, 0⟩) Delivery.new) <|
    .head (.start rfl) <| .head (.start rfl) <| .head (.settle 1 rfl) <| .head (.settle 0 rfl) <|
    .single (.refuse rfl rfl)
  exact ⟨_, reached, rfl, ((delivery_barrier sink).1 agenda _ reached).1⟩

end Handover
end JsonProjection

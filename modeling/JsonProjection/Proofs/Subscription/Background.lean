import JsonProjection.Delivery
import JsonProjection.Proofs.Source.Framing
import JsonProjection.Subscription

/-!
A subscription in the background against one whose items are taken one by one.

Both read the same chunks with the same engine and end with the same error. A background task hands
the matches of a chunk over only where the chunk and the end of the source bring no error. So its
receiver misses the matches that an error in the document finds in the engine, and no others.
-/

namespace JsonProjection

/-! ### A receiver that refuses nothing -/

structure Sink.Accepts (sink : Sink) : Prop where
  onMatch : ∀ index found, sink.onMatch index found = none
  onCounts : ∀ counts, sink.onCounts counts = none
  onDrain : sink.onDrain = none

theorem Sink.silent_accepts : silent.Accepts :=
  ⟨fun _ _ => rfl, fun _ => rfl, rfl⟩

namespace Delivery

def Event.started? : Event → Option Match
  | .started _ found => some found
  | _ => none

def handed (delivery : Delivery) : List Match :=
  delivery.events.filterMap Event.started?

structure Calm (delivery : Delivery) : Prop where
  running : delivery.running = []
  failure : delivery.failure? = none

theorem handed_push {delivery next : Delivery} {event : Event}
    (latest : next.latest = event :: delivery.latest) :
    next.handed = delivery.handed ++ event.started?.toList := by
  unfold handed events
  rw [latest, List.reverse_cons, List.filterMap_append]
  cases event <;> rfl

variable {sink : Sink} (accepts : sink.Accepts)

include accepts

theorem promptly_cons {delivery : Delivery} (calm : delivery.Calm) {found : Match}
    {rest : List Match} (waiting : delivery.waiting = found :: rest) :
    ∃ settled : Delivery, settled.Calm ∧ settled.waiting = rest ∧
      settled.handed = delivery.handed ++ [found] ∧
      delivery.promptly sink (found :: rest) = settled.promptly sink rest := by
  let begun : Delivery :=
    { delivery with
      waiting := rest
      running := [(delivery.next, found)]
      next := delivery.next + 1
      latest := .started delivery.next found :: delivery.latest }
  let settled : Delivery :=
    { begun with running := [], latest := .settled delivery.next none :: begun.latest }
  have started : delivery.start? = some begun := by
    unfold start?
    simp only [waiting, calm.running, List.nil_append, begun]
  have lookup : begun.running.lookup delivery.next = some found := List.lookup_cons_self
  have emptied : (begun.running.filter fun entry => entry.1 != delivery.next) = [] := by
    show ([(delivery.next, found)].filter fun entry => entry.1 != delivery.next) = []
    rw [List.filter_cons, bne_self_eq_false]
    rfl
  have unfailed : begun.failure? = none := calm.failure
  have done : begun.settle? sink delivery.next = some settled := by
    unfold settle?
    simp only [lookup, emptied, accepts.onMatch, unfailed, settled]
    rfl
  refine ⟨settled, ⟨rfl, calm.failure⟩, rfl, ?_, ?_⟩
  · have first : begun.latest = .started delivery.next found :: delivery.latest := rfl
    have second : settled.latest = .settled delivery.next none :: begun.latest := rfl
    rw [handed_push second, handed_push first]
    exact List.append_nil _
  · simp only [promptly, started, done]

theorem promptly_accepts {delivery : Delivery} (calm : delivery.Calm) (batch : List Match)
    (waiting : delivery.waiting = batch) :
    (delivery.promptly sink batch).Calm ∧
      (delivery.promptly sink batch).handed = delivery.handed ++ batch := by
  induction batch generalizing delivery with
  | nil => exact ⟨calm, (List.append_nil _).symm⟩
  | cons found rest ih =>
      obtain ⟨settled, settledCalm, settledWaiting, handed, same⟩ :=
        promptly_cons accepts calm waiting
      obtain ⟨lastCalm, lastHanded⟩ := ih settledCalm settledWaiting
      rw [same]
      refine ⟨lastCalm, ?_⟩
      rw [lastHanded, handed, List.append_assoc]
      rfl

theorem hand_accepts {delivery : Delivery} (calm : delivery.Calm) (batch : List Match) :
    (delivery.hand sink batch).Calm ∧
      (delivery.hand sink batch).handed = delivery.handed ++ batch := by
  have begun : (delivery.begin batch).Calm := ⟨calm.running, calm.failure⟩
  exact promptly_accepts accepts begun batch rfl

theorem conclude_accepts (delivery : Delivery) (counts : Counts) :
    (delivery.conclude sink counts).2 = none ∧
      (delivery.conclude sink counts).1.handed = delivery.handed := by
  let counted : Delivery := { delivery with latest := .counts counts :: delivery.latest }
  let drained : Delivery := { counted with latest := .drained :: counted.latest }
  have concluded : delivery.conclude sink counts = (drained, none) := by
    unfold conclude
    simp only [accepts.onCounts, accepts.onDrain]
    rfl
  have first : counted.latest = .counts counts :: delivery.latest := rfl
  have second : drained.latest = .drained :: counted.latest := rfl
  rw [concluded]
  refine ⟨rfl, ?_⟩
  rw [handed_push second, handed_push first]
  simp only [Event.started?, Option.toList_none, List.append_nil]

end Delivery

namespace BackgroundTask

/-- A task that has ended like a subscription that gave some items: the same error or none, and the
same matches but for those that its engine still has. It has some only behind an error in the
document. -/
structure EndsAs (task : BackgroundTask) (items : Items) : Prop where
  found : items.found = task.delivery.handed ++ task.engine.take.1
  outcome : task.outcome? = some (match items.error? with
    | some error => .error error
    | none => .ok task.engine.counts)
  left : task.engine.take.1 ≠ [] → ∃ error, items.error? = some (.document error)

section Arrive

variable {sink : Sink} {task : BackgroundTask} (unended : task.outcome? = none)

include unended

theorem arrive_failure (reason : String) : task.arrive sink (.failure reason) =
    { task with outcome? := some (.error (.source reason)) } := by
  unfold arrive
  simp only [unended]

theorem arrive_error {bytes : Bytes} {engine : Engine} {error : DocumentError}
    (fed : task.engine.feed bytes = (engine, some error)) : task.arrive sink (.chunk bytes) =
      { task with engine, outcome? := some (.error (.document error)) } := by
  unfold arrive
  simp only [unended, fed]

theorem arrive_chunk {bytes : Bytes} {engine : Engine}
    (fed : task.engine.feed bytes = (engine, none)) : task.arrive sink (.chunk bytes) =
      ({ task with engine } : BackgroundTask).handOver sink := by
  unfold arrive
  simp only [unended, fed]

end Arrive

theorem finish_ended {sink : Sink} {task : BackgroundTask} {outcome : Except QueryError Counts}
    (ended : task.outcome? = some outcome) (source : List Arrival) :
    (task.arriveAll sink source).finish sink = task := by
  have stays : task.arriveAll sink source = task := by
    unfold arriveAll
    induction source with
    | nil => rfl
    | cons arrival rest ih =>
        have arrived : task.arrive sink arrival = task := by
          unfold arrive
          rw [ended]
        rw [List.foldl_cons, arrived, ih]
  rw [stays]
  unfold finish
  rw [ended]

structure Drained (task : BackgroundTask) : Prop where
  outcome : task.outcome? = none
  calm : task.delivery.Calm
  engine : task.engine.walker.latest = []

variable {sink : Sink} (accepts : sink.Accepts)

include accepts

theorem handOver_accepts {task : BackgroundTask} (calm : task.delivery.Calm) :
    (task.handOver sink).Drained ∧ (task.handOver sink).engine = task.engine.take.2 ∧
      (task.handOver sink).delivery.handed = task.delivery.handed ++ task.engine.take.1 := by
  obtain ⟨last, handed⟩ := Delivery.hand_accepts accepts calm task.engine.take.1
  refine ⟨⟨?_, last, rfl⟩, rfl, handed⟩
  show (task.delivery.hand sink task.engine.take.1).failure?.map _ = none
  rw [last.failure]
  rfl

theorem finish_accepts {task : BackgroundTask} (drained : task.Drained) :
    (task.finish sink).EndsAs
      (Subscription.itemsFrom task.engine task.delivery.handed.reverse []) := by
  rcases ended : task.engine.finish with ⟨engine, _ | error⟩
  · have calm : (⟨engine, task.delivery, none⟩ : BackgroundTask).delivery.Calm := drained.calm
    obtain ⟨handedOver, left, handed⟩ := handOver_accepts accepts calm
    generalize own : handOver sink ⟨engine, task.delivery, none⟩ = last at handedOver left handed
    obtain ⟨concluded, kept⟩ :=
      Delivery.conclude_accepts accepts last.delivery last.engine.counts
    have same : task.finish sink =
        { last with
          delivery := (last.delivery.conclude sink last.engine.counts).1
          outcome? := some (.ok last.engine.counts) } := by
      unfold finish
      simp only [drained.outcome, ended, own, handedOver.outcome]
      rcases conclusion : last.delivery.conclude sink last.engine.counts with ⟨delivery, _ | reason⟩
      · rfl
      · rw [conclusion] at concluded
        cases concluded
    have none : last.engine.take.1 = [] := by
      rw [left]
      rfl
    rw [same]
    constructor
    case found =>
      simp only [Subscription.itemsFrom, ended, List.reverse_append, List.reverse_reverse, kept,
        handed, none, List.append_nil]
      rfl
    case outcome => simp only [Subscription.itemsFrom, ended, Option.map_none]
    case left => exact fun some => absurd none some
  · have same : task.finish sink =
        { task with engine, outcome? := some (.error (.document error)) } := by
      unfold finish
      simp only [drained.outcome, ended]
    rw [same]
    constructor
    case found =>
      simp only [Subscription.itemsFrom, ended, List.reverse_append, List.reverse_reverse]
      rfl
    case outcome =>
      simp only [Subscription.itemsFrom, ended, Option.map_some]
    case left =>
      intro _
      exact ⟨error, by simp only [Subscription.itemsFrom, ended, Option.map_some]⟩

theorem arriveAll_accepts {task : BackgroundTask} (drained : task.Drained)
    (source : List Arrival) :
    ((task.arriveAll sink source).finish sink).EndsAs
      (Subscription.itemsFrom task.engine task.delivery.handed.reverse source) := by
  induction source generalizing task with
  | nil => exact finish_accepts accepts drained
  | cons arrival rest ih =>
      have arrived : task.arriveAll sink (arrival :: rest) =
          (task.arrive sink arrival).arriveAll sink rest := rfl
      rw [arrived]
      cases arrival with
      | failure reason =>
          rw [arrive_failure drained.outcome, finish_ended rfl]
          have none : task.engine.take.1 = [] := by
            unfold Engine.take
            rw [drained.engine]
            rfl
          constructor
          case found =>
            simp only [Subscription.itemsFrom, List.reverse_reverse, none, List.append_nil]
          case outcome => simp only [Subscription.itemsFrom]
          case left => exact fun some => absurd none some
      | chunk bytes =>
          rcases fed : task.engine.feed bytes with ⟨engine, _ | error⟩
          · have calm : ({ task with engine } : BackgroundTask).delivery.Calm := drained.calm
            obtain ⟨handedOver, left, handed⟩ := handOver_accepts accepts calm
            have behind := ih handedOver
            rw [left, handed, List.reverse_append] at behind
            rw [arrive_chunk drained.outcome fed]
            simp only [Subscription.itemsFrom, fed]
            have latest : engine.take.1.reverse = engine.walker.latest := List.reverse_reverse _
            rw [← latest]
            exact behind
          · rw [arrive_error drained.outcome fed, finish_ended rfl]
            constructor
            case found =>
              simp only [Subscription.itemsFrom, fed, List.reverse_append, List.reverse_reverse]
              rfl
            case outcome => simp only [Subscription.itemsFrom, fed]
            case left => exact fun _ => ⟨error, by simp only [Subscription.itemsFrom, fed]⟩

end BackgroundTask

/-- A task in the background, run to its end with a receiver that refuses nothing, ends like the
subscription to the same source. Its receiver misses just the matches that an error in the document
leaves in the engine. -/
theorem subscribe_background {sink : Sink} (accepts : sink.Accepts) {query : String}
    {options : EngineOptions} {source : List Arrival} {items : Items}
    (subscribed : subscribe query options source = .ok items) :
    ∃ group, compile query = .ok group ∧
      (((BackgroundTask.new group options).arriveAll sink source).finish sink).EndsAs items := by
  unfold subscribe at subscribed
  rcases compiled : compile query with error | group
  · rw [compiled] at subscribed
    cases subscribed
  · rw [compiled] at subscribed
    cases subscribed
    have drained : (BackgroundTask.new group options).Drained := ⟨rfl, ⟨rfl, rfl⟩, rfl⟩
    exact ⟨group, rfl, BackgroundTask.arriveAll_accepts accepts drained source⟩

set_option maxRecDepth 20000 in
/-- In `[1,2}` the second item is finished in the chunk with the mismatch. -/
theorem subscribe_background_mismatched :
    let source : List Arrival := [.chunk [0x5B, 0x31, 0x2C], .chunk [0x32, 0x7D]]
    ∃ items, subscribe "\x7ba\x7d" (.ofMode .materialize) source = .ok items ∧
      items.found.length = 2 ∧ ∃ group, compile "\x7ba\x7d" = .ok group ∧
      (((BackgroundTask.new group (.ofMode .materialize)).arriveAll .silent source).finish
        .silent).EndsAs items :=
  ⟨_, rfl, rfl, subscribe_background Sink.silent_accepts rfl⟩

set_option maxRecDepth 20000 in
/-- The receiver does not get all items: that of `[{"id":1},{"id":tru}]` stands in the chunk with
the wrong literal. -/
theorem background_misses :
    ¬∀ (sink : Sink) (query : String) (options : EngineOptions) (group : Group)
        (source : List Arrival) (items : Items), sink.Accepts → compile query = .ok group →
      subscribe query options source = .ok items →
      (((BackgroundTask.new group options).arriveAll sink source).finish sink).delivery.handed =
        items.found := by
  intro all
  have handed := all .silent "\x7bid\x7d" (.ofMode .materialize) (Group.withField .empty "id" .leaf)
    [.chunk [0x5B, 0x7B, 0x22, 0x69, 0x64, 0x22, 0x3A, 0x31, 0x7D, 0x2C, 0x7B, 0x22, 0x69, 0x64,
      0x22, 0x3A, 0x74, 0x72, 0x75, 0x7D, 0x5D]] _ Sink.silent_accepts rfl rfl
  exact absurd (congrArg List.length handed) (show (0 : Nat) ≠ 1 from Nat.zero_ne_one)

end JsonProjection

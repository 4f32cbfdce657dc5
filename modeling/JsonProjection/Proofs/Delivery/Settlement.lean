import JsonProjection.Delivery
import Mathlib.Data.List.Nodup
import Mathlib.Data.List.Perm.Subperm

/-!
The callbacks of one batch, in every order of settling.

`Underway` ties the events of a batch to what is left of it: a match has been handed over or waits,
and a callback that was started has settled or runs. Where nothing waits and nothing runs, each
match was handed over once, in document order, and each callback has settled once.
-/

namespace JsonProjection

def Sink.answer (sink : Sink) (callback : Match × Nat) : Nat × Option String :=
  (callback.2, sink.onMatch callback.2 callback.1)

namespace Delivery

namespace Event

def callback? : Event → Option (Match × Nat)
  | .started index found => some (found, index)
  | _ => none

def answer? : Event → Option (Nat × Option String)
  | .settled index failure? => some (index, failure?)
  | _ => none

def failure? : Event → Option String
  | .settled _ failure? => failure?
  | _ => none

def ofCallback : Event → Bool
  | .started _ _ => true
  | .settled _ _ => true
  | .counts _ => false
  | .drained => false

end Event

def callbacks (events : List Event) : List (Match × Nat) :=
  events.filterMap Event.callback?

def answers (events : List Event) : List (Nat × Option String) :=
  events.filterMap Event.answer?

/-- The failure that settled first. -/
def firstFailure? (events : List Event) : Option String :=
  events.findSome? Event.failure?

/-- Callbacks and nothing else: at no time have others settled than were started, or one of them
twice. -/
structure Orderly (sink : Sink) (events : List Event) : Prop where
  behind : ∀ early, early <+: events →
    (answers early).Subperm ((callbacks early).map sink.answer)
  only : ∀ event ∈ events, event.ofCallback = true

structure Partly (sink : Sink) (first : Nat) (batch : List Match) (events : List Event) : Prop
    extends Orderly sink events where
  started : callbacks events <+: batch.zipIdx first

/-- A batch that is over: every match was handed over once, in order, and every callback has
settled. -/
structure Settlement (sink : Sink) (first : Nat) (batch : List Match) (events : List Event) : Prop
    extends Orderly sink events where
  started : callbacks events = batch.zipIdx first
  settled : (answers events).Perm ((batch.zipIdx first).map sink.answer)

structure Underway (sink : Sink) (first : Nat) (batch : List Match) (events : List Event)
    (delivery : Delivery) : Prop extends Orderly sink events where
  counted : delivery.next = first + (callbacks events).length
  waiting : callbacks events ++ delivery.waiting.zipIdx delivery.next = batch.zipIdx first
  running : (answers events ++ delivery.running.map fun entry => sink.answer entry.swap).Perm
    ((callbacks events).map sink.answer)
  distinct : (delivery.running.map Prod.fst).Nodup
  older : ∀ entry ∈ delivery.running, entry.1 < delivery.next
  failure : delivery.failure? = firstFailure? events

variable {sink : Sink} {first : Nat} {batch : List Match} {events : List Event}
  {delivery next : Delivery}

/-! ### Steps of a delivery -/

theorem start?_eq_some : delivery.start? = some next ↔
    ∃ found rest, delivery.waiting = found :: rest ∧
      { delivery with
        waiting := rest
        running := delivery.running ++ [(delivery.next, found)]
        next := delivery.next + 1
        latest := .started delivery.next found :: delivery.latest } = next := by
  unfold start?
  constructor
  · intro step
    split at step
    case h_1 => cases step
    case h_2 found rest waiting => exact ⟨found, rest, waiting, Option.some.inj step⟩
  · rintro ⟨found, rest, waiting, rfl⟩
    rw [waiting]

theorem settle?_eq_some {index : Nat} : delivery.settle? sink index = some next ↔
    ∃ found, delivery.running.lookup index = some found ∧
      { delivery with
        running := delivery.running.filter (·.1 != index)
        failure? := delivery.failure? <|> sink.onMatch index found
        latest := .settled index (sink.onMatch index found) :: delivery.latest } = next := by
  unfold settle?
  constructor
  · intro step
    split at step
    case h_1 => cases step
    case h_2 found runs => exact ⟨found, runs, Option.some.inj step⟩
  · rintro ⟨found, runs, rfl⟩
    rw [runs]

theorem conclude_queues (sink : Sink) (delivery : Delivery) (counts : Counts) :
    (delivery.conclude sink counts).1.waiting = delivery.waiting ∧
      (delivery.conclude sink counts).1.running = delivery.running := by
  unfold conclude
  cases sink.onCounts counts <;> exact ⟨rfl, rfl⟩

theorem isOver_iff : delivery.isOver = true ↔ delivery.waiting = [] ∧ delivery.running = [] := by
  rw [isOver, Bool.and_eq_true, List.isEmpty_iff, List.isEmpty_iff]

/-! ### One more event -/

theorem events_push {event : Event} (latest : next.latest = event :: delivery.latest) :
    next.events = delivery.events ++ [event] := by
  rw [Delivery.events, latest, List.reverse_cons]
  rfl

theorem callbacks_push (events : List Event) (event : Event) :
    callbacks (events ++ [event]) = callbacks events ++ event.callback?.toList := by
  rw [callbacks, List.filterMap_append]
  cases event <;> rfl

theorem answers_push (events : List Event) (event : Event) :
    answers (events ++ [event]) = answers events ++ event.answer?.toList := by
  rw [answers, List.filterMap_append]
  cases event <;> rfl

theorem firstFailure?_push (events : List Event) (event : Event) :
    firstFailure? (events ++ [event]) = (firstFailure? events <|> event.failure?) := by
  unfold firstFailure?
  rw [List.findSome?_append, List.findSome?_singleton]
  cases List.findSome? Event.failure? events <;> rfl

theorem Orderly.push (orderly : Orderly sink events) {event : Event}
    (own : event.ofCallback = true)
    (behind : (answers (events ++ [event])).Subperm
      ((callbacks (events ++ [event])).map sink.answer)) :
    Orderly sink (events ++ [event]) where
  behind := by
    intro early front
    rcases List.prefix_concat_iff.mp front with whole | shorter
    · rw [whole]
      exact behind
    · exact orderly.behind early shorter
  only := by
    intro other member
    rcases List.mem_append.mp member with older | last
    · exact orderly.only other older
    · rw [List.mem_singleton.mp last]
      exact own

theorem orderly_nil (sink : Sink) : Orderly sink [] where
  behind := by
    intro early front
    rw [List.prefix_nil.mp front]
    exact List.nil_subperm
  only := fun _ member => nomatch member

/-! ### A batch step by step -/

theorem Underway.begin (batch : List Match) (idle : delivery.running = [])
    (calm : delivery.failure? = none) :
    Underway sink delivery.next batch [] (delivery.begin batch) := by
  have none : (delivery.begin batch).running = [] := idle
  constructor
  case toOrderly => exact orderly_nil sink
  case counted => rfl
  case waiting => rfl
  case running => rw [none]; exact .nil
  case distinct => rw [none]; exact List.nodup_nil
  case older => rw [none]; exact fun _ member => nomatch member
  case failure => exact calm

theorem Underway.start (underway : Underway sink first batch events delivery)
    (step : delivery.start? = some next) :
    ∃ event, next.latest = event :: delivery.latest ∧
      Underway sink first batch (events ++ [event]) next := by
  obtain ⟨found, rest, waiting, rfl⟩ := start?_eq_some.mp step
  have callback : callbacks (events ++ [.started delivery.next found]) =
      callbacks events ++ [(found, delivery.next)] := callbacks_push events _
  have answer : answers (events ++ [.started delivery.next found]) = answers events :=
    (answers_push events _).trans (List.append_nil _)
  -- The match leaves those that wait, and its callback runs.
  have running : (answers events ++ (delivery.running ++ [(delivery.next, found)]).map
      fun entry => sink.answer entry.swap).Perm
      ((callbacks events ++ [(found, delivery.next)]).map sink.answer) := by
    rw [List.map_append, List.map_append, ← List.append_assoc]
    exact underway.running.append_right _
  refine ⟨.started delivery.next found, rfl, ?_⟩
  constructor
  case toOrderly =>
    refine underway.toOrderly.push rfl ?_
    rw [callback, answer]
    exact (List.sublist_append_left _ _).subperm.trans running.subperm
  case counted =>
    rw [callback, List.length_append, ← Nat.add_assoc, ← underway.counted]
    rfl
  case waiting =>
    rw [callback, List.append_assoc, ← underway.waiting, waiting]
    rfl
  case running =>
    rw [callback, answer]
    exact running
  case distinct =>
    rw [List.map_append, List.nodup_append]
    refine ⟨underway.distinct, List.nodup_singleton _, ?_⟩
    intro index member other last
    obtain ⟨entry, inside, rfl⟩ := List.mem_map.mp member
    rw [List.mem_singleton.mp last]
    exact Nat.ne_of_lt (underway.older entry inside)
  case older =>
    intro entry member
    rcases List.mem_append.mp member with inside | last
    · exact Nat.lt_succ_of_lt (underway.older entry inside)
    · rw [List.mem_singleton.mp last]
      exact Nat.lt_succ_self _
  case failure =>
    rw [firstFailure?_push, ← underway.failure]
    show delivery.failure? = (delivery.failure? <|> none)
    cases delivery.failure? <;> rfl

theorem perm_filter_of_lookup {running : List (Nat × Match)} {index : Nat} {found : Match}
    (distinct : (running.map Prod.fst).Nodup) (runs : running.lookup index = some found) :
    running.Perm ((index, found) :: running.filter fun entry => entry.1 != index) := by
  obtain ⟨front, back, rfl, -⟩ := List.lookup_eq_some_iff.mp runs
  rw [List.map_append, List.map_cons, List.nodup_middle, ← List.map_append] at distinct
  have others : ∀ entry ∈ front ++ back, (entry.1 != index) = true := by
    intro entry member
    apply bne_iff_ne.mpr
    intro same
    exact (List.nodup_cons.mp distinct).1 (List.mem_map.mpr ⟨entry, member, same⟩)
  have kept : ((front ++ (index, found) :: back).filter fun entry => entry.1 != index) =
      front ++ back := by
    rw [List.filter_append, List.filter_cons, bne_self_eq_false, if_neg Bool.false_ne_true,
      ← List.filter_append, List.filter_eq_self.mpr others]
  rw [kept]
  exact List.perm_middle

theorem Underway.settle (underway : Underway sink first batch events delivery) {index : Nat}
    (step : delivery.settle? sink index = some next) :
    ∃ event, next.latest = event :: delivery.latest ∧
      Underway sink first batch (events ++ [event]) next := by
  obtain ⟨found, runs, rfl⟩ := settle?_eq_some.mp step
  have callback : callbacks (events ++ [.settled index (sink.onMatch index found)]) =
      callbacks events := (callbacks_push events _).trans (List.append_nil _)
  have answer : answers (events ++ [.settled index (sink.onMatch index found)]) =
      answers events ++ [sink.answer (found, index)] := answers_push events _
  -- The callback leaves those that run and joins those that have settled.
  have parted := (perm_filter_of_lookup underway.distinct runs).map
    fun entry => sink.answer entry.swap
  have running : (answers events ++ [sink.answer (found, index)] ++
      (delivery.running.filter fun entry => entry.1 != index).map
        fun entry => sink.answer entry.swap).Perm ((callbacks events).map sink.answer) := by
    rw [List.append_assoc]
    exact (parted.symm.append_left _).trans underway.running
  have fewer : (delivery.running.filter fun entry => entry.1 != index).Sublist
      delivery.running := List.filter_sublist
  refine ⟨.settled index (sink.onMatch index found), rfl, ?_⟩
  constructor
  case toOrderly =>
    refine underway.toOrderly.push rfl ?_
    rw [callback, answer]
    exact (List.sublist_append_left _ _).subperm.trans running.subperm
  case counted =>
    rw [callback]
    exact underway.counted
  case waiting =>
    rw [callback]
    exact underway.waiting
  case running =>
    rw [callback, answer]
    exact running
  case distinct => exact underway.distinct.sublist (fewer.map Prod.fst)
  case older => exact fun entry member => underway.older entry (fewer.subset member)
  case failure =>
    rw [firstFailure?_push, ← underway.failure]
    rfl

/-! ### What a batch comes to -/

theorem Underway.partly (underway : Underway sink first batch events delivery) :
    Partly sink first batch events :=
  ⟨underway.toOrderly, _, underway.waiting⟩

theorem Underway.settlement (underway : Underway sink first batch events delivery)
    (quiet : delivery.isOver = true) : Settlement sink first batch events := by
  obtain ⟨noneWaiting, noneRunning⟩ := isOver_iff.mp quiet
  have all := underway.waiting
  have settled := underway.running
  rw [noneWaiting, List.zipIdx_nil, List.append_nil] at all
  rw [noneRunning, List.map_nil, List.append_nil, all] at settled
  exact ⟨underway.toOrderly, all, settled⟩

theorem Underway.next_index (underway : Underway sink first batch events delivery)
    (quiet : delivery.isOver = true) : delivery.next = first + batch.length := by
  rw [underway.counted, (underway.settlement quiet).started, List.length_zipIdx]

end Delivery
end JsonProjection

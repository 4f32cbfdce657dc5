import JsonProjection.Delivery
import Mathlib.Logic.Relation

/-!
Handing over batch after batch, in every order of settling.

An agenda lists the batches and says how it ends behind them. A batch begins when the one before it
is over without a failure, and the figures follow the last batch. Within a batch any callback that
runs may settle next, and a receiver decides which; `deliverQuery` and `BackgroundTask` go through
their agendas in the one order in which every callback settles at once.
-/

namespace JsonProjection

/-- What there is to hand over, and how it ends: with an error or with the figures. -/
structure Agenda where
  batches : List (List Match)
  ending : Except QueryError Counts

namespace Agenda

def ofQuery (query : String) (mode : EmitMode) (source : Bytes) : Agenda :=
  match runQuery query mode source with
  | .error error => ⟨[], .error error⟩
  | .ok document => ⟨[document.found], .ok document.counts⟩

/-- A source gives a batch for each chunk, and one for its end. A chunk with an error in it gives
none. -/
def ofSource (engine : Engine) : List Arrival → Agenda
  | [] =>
    match engine.finish with
    | (_, some error) => ⟨[], .error (.document error)⟩
    | (engine, none) => ⟨[engine.take.1], .ok engine.take.2.counts⟩
  | .failure reason :: _ => ⟨[], .error (.source reason)⟩
  | .chunk bytes :: rest =>
    match engine.feed bytes with
    | (_, some error) => ⟨[], .error (.document error)⟩
    | (engine, none) =>
      let behind := ofSource engine.take.2 rest
      ⟨engine.take.1 :: behind.batches, behind.ending⟩

end Agenda

namespace Handover

inductive Stage where
  | between
  | within
  | ended (outcome : Except QueryError Counts)

end Handover

/-- An agenda that is being handed over: what is left of it, the delivery, and the stage. -/
structure Handover where
  agenda : Agenda
  delivery : Delivery
  stage : Handover.Stage

namespace Handover

def new (agenda : Agenda) : Handover :=
  ⟨agenda, Delivery.new, .between⟩

def outcome? (handover : Handover) : Option (Except QueryError Counts) :=
  match handover.stage with
  | .ended outcome => some outcome
  | _ => none

def verdict (counts : Counts) : Option String → Except QueryError Counts
  | some reason => .error (.sink reason)
  | none => .ok counts

/-- A batch begins, one of its callbacks starts or settles, or a batch that is over lets the call go
on or ends it. -/
inductive Step (sink : Sink) : Handover → Handover → Prop where
  | begin (batch : List Match) (rest : List (List Match)) (ending : Except QueryError Counts)
      (delivery : Delivery) :
      Step sink ⟨⟨batch :: rest, ending⟩, delivery, .between⟩
        ⟨⟨rest, ending⟩, delivery.begin batch, .within⟩
  | start {agenda : Agenda} {delivery next : Delivery} (started : delivery.start? = some next) :
      Step sink ⟨agenda, delivery, .within⟩ ⟨agenda, next, .within⟩
  | settle {agenda : Agenda} {delivery next : Delivery} (index : Nat)
      (settled : delivery.settle? sink index = some next) :
      Step sink ⟨agenda, delivery, .within⟩ ⟨agenda, next, .within⟩
  | proceed {agenda : Agenda} {delivery : Delivery} (quiet : delivery.isOver = true)
      (calm : delivery.failure? = none) :
      Step sink ⟨agenda, delivery, .within⟩ ⟨agenda, delivery, .between⟩
  | refuse {agenda : Agenda} {delivery : Delivery} {reason : String}
      (quiet : delivery.isOver = true) (failed : delivery.failure? = some reason) :
      Step sink ⟨agenda, delivery, .within⟩ ⟨agenda, delivery, .ended (.error (.sink reason))⟩
  | breakOff (error : QueryError) (delivery : Delivery) :
      Step sink ⟨⟨[], .error error⟩, delivery, .between⟩
        ⟨⟨[], .error error⟩, delivery, .ended (.error error)⟩
  | conclude (counts : Counts) (delivery : Delivery) :
      Step sink ⟨⟨[], .ok counts⟩, delivery, .between⟩
        ⟨⟨[], .ok counts⟩, (delivery.conclude sink counts).1,
          .ended (verdict counts (delivery.conclude sink counts).2)⟩

/-- Every order in which callbacks can settle gives a chain of steps. -/
abbrev Reaches (sink : Sink) : Handover → Handover → Prop :=
  Relation.ReflTransGen (Step sink)

end Handover
end JsonProjection

import JsonProjection.Delivery.Handover
import JsonProjection.Proofs.Delivery.Settlement
import JsonProjection.Proofs.Subscription.Background
import Mathlib.Algebra.GroupWithZero.Nat

/-!
What a receiver sees in every order of settling.

`Barrier` says what a receiver of an agenda can have seen at any time, and `Handover.Step.kept` that
no step breaks it. Every step spends some of a bound, so that each call comes to its end.
-/

namespace JsonProjection

/-! ### What a receiver sees -/

namespace Delivery

/-- Batches of which each was over, and had no failure, when the next one began. -/
inductive Cleared (sink : Sink) : List (List Match) → List Event → Prop where
  | nil : Cleared sink [] []
  | snoc {done : List (List Match)} {batch : List Match} {before own : List Event}
      (earlier : Cleared sink done before)
      (settlement : Settlement sink done.flatten.length batch own)
      (calm : firstFailure? own = none) : Cleared sink (done ++ [batch]) (before ++ own)

/-- The figures, and the word that all is done only where the figures were taken. -/
inductive Finale (sink : Sink) (counts : Counts) :
    List Event → Except QueryError Counts → Prop where
  | uncounted {reason : String} (failed : sink.onCounts counts = some reason) :
      Finale sink counts [.counts counts] (.error (.sink reason))
  | undrained {reason : String} (counted : sink.onCounts counts = none)
      (failed : sink.onDrain = some reason) :
      Finale sink counts [.counts counts, .drained] (.error (.sink reason))
  | full (counted : sink.onCounts counts = none) (drained : sink.onDrain = none) :
      Finale sink counts [.counts counts, .drained] (.ok counts)

/-- All that a receiver of an agenda can have seen, and the outcome if there is one. -/
inductive Barrier (sink : Sink) (agenda : Agenda) :
    List Event → Option (Except QueryError Counts) → Prop where
  | between {done rest : List (List Match)} {events : List Event}
      (split : agenda.batches = done ++ rest) (cleared : Cleared sink done events) :
      Barrier sink agenda events none
  | within {done rest : List (List Match)} {batch : List Match} {before own : List Event}
      (split : agenda.batches = done ++ batch :: rest) (cleared : Cleared sink done before)
      (partly : Partly sink done.flatten.length batch own) :
      Barrier sink agenda (before ++ own) none
  | refused {done rest : List (List Match)} {batch : List Match} {before own : List Event}
      {reason : String} (split : agenda.batches = done ++ batch :: rest)
      (cleared : Cleared sink done before)
      (settlement : Settlement sink done.flatten.length batch own)
      (failed : firstFailure? own = some reason) :
      Barrier sink agenda (before ++ own) (some (.error (.sink reason)))
  | broken {events : List Event} {error : QueryError}
      (cleared : Cleared sink agenda.batches events) (ending : agenda.ending = .error error) :
      Barrier sink agenda events (some (.error error))
  | concluded {before last : List Event} {counts : Counts} {outcome : Except QueryError Counts}
      (cleared : Cleared sink agenda.batches before) (ending : agenda.ending = .ok counts)
      (finale : Finale sink counts last outcome) :
      Barrier sink agenda (before ++ last) (some outcome)

theorem conclude_finale (sink : Sink) (delivery : Delivery) (counts : Counts) :
    ∃ last, (delivery.conclude sink counts).1.events = delivery.events ++ last ∧
      Finale sink counts last (Handover.verdict counts (delivery.conclude sink counts).2) := by
  let counted : Delivery := { delivery with latest := .counts counts :: delivery.latest }
  let drained : Delivery := { counted with latest := .drained :: counted.latest }
  have first : counted.events = delivery.events ++ [.counts counts] := events_push rfl
  have second : drained.events = delivery.events ++ [.counts counts, .drained] := by
    have behind : drained.events = counted.events ++ [.drained] := events_push rfl
    rw [behind, first, List.append_assoc]
    rfl
  rcases figures : sink.onCounts counts with _ | reason
  · have concluded : delivery.conclude sink counts = (drained, sink.onDrain) := by
      unfold conclude
      rw [figures]
    rw [concluded]
    refine ⟨_, second, ?_⟩
    rcases done : sink.onDrain with _ | reason
    · exact .full figures done
    · exact .undrained figures done
  · have concluded : delivery.conclude sink counts = (counted, some reason) := by
      unfold conclude
      rw [figures]
    rw [concluded]
    exact ⟨_, first, .uncounted figures⟩

/-! ### The answers of a receiver that refuses nothing -/

variable {sink : Sink}

theorem firstFailure?_eq_none {events : List Event} :
    firstFailure? events = none ↔ ∀ answer ∈ answers events, answer.2 = none := by
  unfold firstFailure? answers
  rw [List.findSome?_eq_none_iff]
  constructor
  · intro calm answer member
    obtain ⟨event, inside, own⟩ := List.mem_filterMap.mp member
    have none := calm event inside
    cases event with
    | settled index failure? =>
        cases own
        exact none
    | _ => cases own
  · intro calm event inside
    cases event with
    | settled index failure? => exact calm _ (List.mem_filterMap.mpr ⟨_, inside, rfl⟩)
    | _ => rfl

/-- The order of settling decides which failure is reported, but not whether there is one. -/
theorem Settlement.calm_iff {first : Nat} {batch : List Match} {events : List Event}
    (settlement : Settlement sink first batch events) : firstFailure? events = none ↔
      ∀ callback ∈ batch.zipIdx first, (sink.answer callback).2 = none := by
  rw [firstFailure?_eq_none]
  constructor
  · intro calm callback member
    exact calm _ (settlement.settled.mem_iff.mpr (List.mem_map_of_mem member))
  · intro calm answer member
    obtain ⟨callback, inside, same⟩ := List.mem_map.mp (settlement.settled.mem_iff.mp member)
    exact same ▸ calm callback inside

theorem Cleared.calm {done : List (List Match)} {events : List Event}
    (cleared : Cleared sink done events) :
    ∀ callback ∈ done.flatten.zipIdx, (sink.answer callback).2 = none := by
  induction cleared with
  | nil => exact fun _ member => nomatch member
  | snoc earlier settlement calm ih =>
      intro callback member
      rw [List.flatten_append, List.flatten_singleton, List.zipIdx_append] at member
      rcases List.mem_append.mp member with older | last
      · exact ih callback older
      · rw [Nat.zero_add] at last
        exact settlement.calm_iff.mp calm callback last

theorem Barrier.ok_iff {agenda : Agenda} {events : List Event}
    {outcome : Except QueryError Counts} (barrier : Barrier sink agenda events (some outcome))
    (counts : Counts) : outcome = .ok counts ↔ agenda.ending = .ok counts ∧
      (∀ callback ∈ agenda.batches.flatten.zipIdx, (sink.answer callback).2 = none) ∧
      sink.onCounts counts = none ∧ sink.onDrain = none := by
  cases barrier with
  | @refused done rest batch before own reason split cleared settlement failed =>
      refine iff_of_false (fun same => by cases same) ?_
      rintro ⟨-, calm, -⟩
      have inside : ∀ callback ∈ batch.zipIdx done.flatten.length,
          (sink.answer callback).2 = none := by
        intro callback member
        apply calm
        rw [split, List.flatten_append, List.flatten_cons, List.zipIdx_append,
          List.zipIdx_append, Nat.zero_add]
        exact List.mem_append_right _ (List.mem_append_left _ member)
      rw [settlement.calm_iff.mpr inside] at failed
      cases failed
  | broken cleared ending =>
      refine iff_of_false (fun same => by cases same) ?_
      rintro ⟨well, -⟩
      rw [ending] at well
      cases well
  | concluded cleared ending finale =>
      rw [ending]
      cases finale with
      | uncounted failed =>
          refine iff_of_false (fun same => by cases same) ?_
          rintro ⟨same, -, counted, -⟩
          cases same
          rw [failed] at counted
          cases counted
      | undrained counted failed =>
          refine iff_of_false (fun same => by cases same) ?_
          rintro ⟨-, -, -, drained⟩
          rw [failed] at drained
          cases drained
      | full counted drained =>
          constructor
          · intro same
            cases same
            exact ⟨rfl, cleared.calm, counted, drained⟩
          · rintro ⟨same, -⟩
            exact same

end Delivery

/-! ### Steps -/

namespace Handover

open Delivery

variable {sink : Sink} {agenda : Agenda} {handover next : Handover}

/-- What is kept from step to step: the agenda is what was handed over and what is left of it. -/
inductive Kept (sink : Sink) (agenda : Agenda) : Handover → Prop where
  | between {done rest : List (List Match)} {ending : Except QueryError Counts}
      {delivery : Delivery} (split : agenda = ⟨done ++ rest, ending⟩)
      (cleared : Cleared sink done delivery.events) (calm : delivery.Calm)
      (next : delivery.next = done.flatten.length) :
      Kept sink agenda ⟨⟨rest, ending⟩, delivery, .between⟩
  | within {done rest : List (List Match)} {batch : List Match}
      {ending : Except QueryError Counts} {before own : List Event} {delivery : Delivery}
      (split : agenda = ⟨done ++ batch :: rest, ending⟩) (cleared : Cleared sink done before)
      (underway : Underway sink done.flatten.length batch own delivery)
      (all : delivery.events = before ++ own) :
      Kept sink agenda ⟨⟨rest, ending⟩, delivery, .within⟩
  | ended {left : Agenda} {delivery : Delivery} {outcome : Except QueryError Counts}
      (barrier : Barrier sink agenda delivery.events (some outcome)) :
      Kept sink agenda ⟨left, delivery, .ended outcome⟩

theorem kept_new (sink : Sink) (agenda : Agenda) : Kept sink agenda (new agenda) :=
  .between rfl .nil ⟨rfl, rfl⟩ rfl

theorem Step.kept (step : Step sink handover next) (kept : Kept sink agenda handover) :
    Kept sink agenda next := by
  cases step with
  | begin batch rest ending delivery =>
      cases kept with
      | between split cleared calm next =>
          exact .within split cleared (next ▸ .begin batch calm.running calm.failure)
            (List.append_nil _).symm
  | start started =>
      cases kept with
      | within split cleared underway all =>
          obtain ⟨event, latest, more⟩ := underway.start started
          exact .within split cleared more (by rw [events_push latest, all, List.append_assoc])
  | settle index settled =>
      cases kept with
      | within split cleared underway all =>
          obtain ⟨event, latest, more⟩ := underway.settle settled
          exact .within split cleared more (by rw [events_push latest, all, List.append_assoc])
  | proceed quiet calm =>
      cases kept with
      | within split cleared underway all =>
          rw [List.append_cons] at split
          refine .between split ?_ ⟨(isOver_iff.mp quiet).2, calm⟩ ?_
          · rw [all]
            exact .snoc cleared (underway.settlement quiet) (underway.failure ▸ calm)
          · rw [underway.next_index quiet, List.flatten_append, List.length_append,
              List.flatten_singleton]
  | refuse quiet failed =>
      cases kept with
      | within split cleared underway all =>
          subst split
          refine .ended ?_
          rw [all]
          exact .refused rfl cleared (underway.settlement quiet) (underway.failure ▸ failed)
  | breakOff error delivery =>
      cases kept with
      | between split cleared calm next =>
          rw [List.append_nil] at split
          subst split
          exact .ended (.broken cleared rfl)
  | conclude counts delivery =>
      cases kept with
      | between split cleared calm next =>
          rw [List.append_nil] at split
          subst split
          obtain ⟨last, all, finale⟩ := conclude_finale sink delivery counts
          refine .ended ?_
          rw [all]
          exact .concluded cleared rfl finale

theorem Kept.barrier (kept : Kept sink agenda handover) :
    Barrier sink agenda handover.delivery.events handover.outcome? := by
  cases kept with
  | between split cleared calm next =>
      subst split
      exact .between rfl cleared
  | @within done rest batch ending before own delivery split cleared underway all =>
      subst split
      show Barrier sink _ delivery.events none
      rw [all]
      exact .within rfl cleared underway.partly
  | ended barrier => exact barrier

theorem Reaches.barrier (reached : Reaches sink (new agenda) handover) :
    Barrier sink agenda handover.delivery.events handover.outcome? := by
  refine Kept.barrier ?_
  induction reached with
  | refl => exact kept_new sink agenda
  | tail _ step ih => exact step.kept ih

/-! ### No order of settling blocks -/

theorem exists_step (sink : Sink) (handover : Handover) (unended : handover.outcome? = none) :
    ∃ next, Step sink handover next := by
  obtain ⟨⟨batches, ending⟩, delivery, stage⟩ := handover
  cases stage with
  | between =>
      cases batches with
      | cons batch rest => exact ⟨_, .begin batch rest ending delivery⟩
      | nil =>
          cases ending with
          | error error => exact ⟨_, .breakOff error delivery⟩
          | ok counts => exact ⟨_, .conclude counts delivery⟩
  | within =>
      rcases waiting : delivery.waiting with _ | ⟨found, rest⟩
      case cons =>
        exact ⟨_, .start (start?_eq_some.mpr ⟨found, rest, waiting, rfl⟩)⟩
      rcases running : delivery.running with _ | ⟨⟨index, found⟩, rest⟩
      case cons =>
        have runs : delivery.running.lookup index = some found := by
          rw [running]
          exact List.lookup_cons_self
        exact ⟨_, .settle index (settle?_eq_some.mpr ⟨found, runs, rfl⟩)⟩
      have quiet : delivery.isOver = true := isOver_iff.mpr ⟨waiting, running⟩
      rcases failed : delivery.failure? with _ | reason
      · exact ⟨_, .proceed quiet failed⟩
      · exact ⟨_, .refuse quiet failed⟩
  | ended outcome => cases unended

/-- A bound on the steps that are left: two for every callback, two for every batch, and one for the
ending. -/
def stepsLeft (handover : Handover) : Nat :=
  (handover.agenda.batches.map fun batch => 2 * batch.length + 2).sum +
    2 * handover.delivery.waiting.length + handover.delivery.running.length +
    match handover.stage with
    | .between => 1
    | .within => 2
    | .ended _ => 0

theorem Step.stepsLeft_lt (step : Step sink handover next) :
    next.stepsLeft < handover.stepsLeft := by
  cases step with
  | begin batch rest ending delivery =>
      show (rest.map _).sum + 2 * batch.length + delivery.running.length + 2 <
        ((batch :: rest).map _).sum + 2 * delivery.waiting.length + delivery.running.length + 1
      -- Matches that still waited only make the bound larger.
      rw [List.map_cons, List.sum_cons]
      omega
  | start started =>
      obtain ⟨found, rest, waiting, rfl⟩ := start?_eq_some.mp started
      simp only [stepsLeft, waiting, List.length_append, List.length_cons, List.length_nil]
      omega
  | @settle agenda delivery next index settled =>
      obtain ⟨found, runs, rfl⟩ := settle?_eq_some.mp settled
      have fewer : (delivery.running.filter fun entry => entry.1 != index).length <
          delivery.running.length := by
        obtain ⟨front, back, split, -⟩ := List.lookup_eq_some_iff.mp runs
        apply List.length_filter_lt_length_iff_exists.mpr
        refine ⟨(index, found), ?_, ?_⟩
        · rw [split]
          exact List.mem_append_right _ List.mem_cons_self
        · rw [bne_self_eq_false]
          exact Bool.false_ne_true
      simp only [stepsLeft]
      omega
  | proceed quiet calm => exact Nat.lt_succ_self _
  | refuse quiet failed => exact Nat.lt_add_of_pos_right Nat.zero_lt_two
  | breakOff error delivery => exact Nat.lt_succ_self _
  | conclude counts delivery =>
      obtain ⟨waiting, running⟩ := conclude_queues sink delivery counts
      simp only [stepsLeft, waiting, running]
      omega

theorem exists_not_step (sink : Sink) (run : Nat → Handover) :
    ∃ count, ¬Step sink (run count) (run (count + 1)) := by
  apply by_contra
  intro endless
  have forever : ∀ count, Step sink (run count) (run (count + 1)) := by
    intro count
    exact by_contra fun stuck => endless ⟨count, stuck⟩
  have spent : ∀ count, (run count).stepsLeft + count ≤ (run 0).stepsLeft := by
    intro count
    induction count with
    | zero => exact Nat.le_refl _
    | succ count ih =>
        have less := (forever count).stepsLeft_lt
        omega
  -- More steps than the bound at the start allows.
  have last := spent ((run 0).stepsLeft + 1)
  omega

end Handover
end JsonProjection

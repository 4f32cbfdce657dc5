import JsonProjection.Proofs.Token.Spans
import JsonProjection.Proofs.Walk.Run

/-!
With which token of a walk a match is delivered.

`Emits` says of a walk that it delivers some matches, each of them with the last token of its value
and not before. Such walks put together are such a walk again.
-/

namespace JsonProjection

open Walk

/-- A match, and the tokens of the value that it hands out. -/
structure Emission where
  found : Match
  tokens : List Token

namespace Walker

variable {plan : Plan} {window : Window} {walker next : Walker} {token : Token}

/-! ### What a token adds -/

def Adds (walker next : Walker) (stop : Nat) : Prop :=
  ∃ found, next.latest = found ++ walker.latest ∧
    ∀ leaf, Match.raw leaf ∈ found → leaf.span.stop = stop

theorem Adds.of_latest {stop : Nat} (same : next.latest = walker.latest) :
    walker.Adds next stop :=
  ⟨[], same, fun _ member => absurd member List.not_mem_nil⟩

theorem Adds.trans {middle : Walker} {stop : Nat} (one : walker.Adds middle stop)
    (two : middle.Adds next stop) : walker.Adds next stop := by
  obtain ⟨first, here, early⟩ := one
  obtain ⟨second, there, late⟩ := two
  refine ⟨second ++ first, ?_, fun leaf member => ?_⟩
  · rw [there, here, List.append_assoc]
  · exact (List.mem_append.mp member).elim (late leaf) (early leaf)

theorem complete_adds (walker : Walker) (value? : Option Json.Value) (stop : Nat) :
    walker.Adds (walker.complete value?) stop := by
  have value (own : Json.Value) : ∀ leaf, Match.raw leaf ∈ [Match.value own] →
      leaf.span.stop = stop := by
    intro leaf member
    cases List.mem_singleton.mp member
  cases stack : walker.stack with
  | nil =>
      rw [complete_of_nil stack]
      cases value? with
      | none => exact .of_latest rfl
      | some own => exact ⟨[.value own], rfl, value own⟩
  | cons frame rest =>
      rw [complete_of_cons stack]
      split
      · rename_i own _
        exact ⟨[.value own], rfl, value own⟩
      · exact .of_latest rfl

theorem deliverRaw_adds (walker : Walker) (window : Window) (key : String) (span : Span) :
    walker.Adds (walker.deliverRaw window key span) span.stop := by
  have leaf (bytes : Bytes) : ∀ leaf, Match.raw leaf ∈ [Match.raw ⟨key, span, bytes⟩] →
      leaf.span.stop = span.stop := by
    intro leaf member
    cases List.mem_singleton.mp member
    rfl
  unfold deliverRaw
  split
  · exact ⟨[.raw _], rfl, leaf _⟩
  · exact ⟨[.raw _], rfl, leaf _⟩

theorem begin_adds (walker : Walker) (mode : EmitMode) (window : Window) (treatment : Treatment)
    (token : Token) :
    walker.Adds (walker.begin mode window treatment token).1 token.span.stop := by
  unfold begin
  cases token.kind.opens? with
  | some container => cases treatment <;> exact .of_latest rfl
  | none =>
      cases token.kind.scalar? with
      | none => exact .of_latest rfl
      | some value =>
          cases treatment with
          | skip => exact complete_adds { walker with skipped := _ } none _
          | keep => exact complete_adds walker (some value) _
          | capture key =>
              exact (deliverRaw_adds walker window key token.span).trans (complete_adds _ none _)
          | project group =>
              cases mode with
              | materialize => exact complete_adds walker (some value) _
              | raw => exact complete_adds walker none _

theorem close_adds (walker : Walker) (token : Token) (stop : Nat) :
    walker.Adds (walker.close token).1 stop := by
  unfold close
  cases walker.stack with
  | nil => exact .of_latest rfl
  | cons frame rest =>
      simp only
      split
      · exact complete_adds { walker with stack := rest } frame.result? stop
      · exact .of_latest rfl

theorem pushFrame_adds (walker : Walker) (mode : EmitMode) (window : Window) (frame : Frame)
    (rest : List Frame) (token : Token) :
    walker.Adds (walker.pushFrame mode window frame rest token).1 token.span.stop := by
  have begins := begin_adds walker mode window (frame.treatment mode) token
  have closes := close_adds walker token token.span.stop
  unfold pushFrame
  cases frame.expect with
  | value key => exact begins
  | colon key => cases token.kind <;> exact .of_latest rfl
  | key orClose =>
      cases token.kind <;> cases orClose <;> first | exact closes | exact .of_latest rfl
  | separator =>
      cases frame.container <;> cases token.kind <;>
        first | exact closes | exact .of_latest rfl
  | item orClose =>
      simp only
      split
      · exact closes
      · exact begins

/-- A raw leaf that is delivered with a token ends with the token. -/
theorem push_adds (plan : Plan) (window : Window) (walker : Walker) (token : Token) :
    walker.Adds (walker.push plan window token).1 token.span.stop := by
  unfold push
  split
  · rw [endOfInput_fst]
    exact .of_latest rfl
  · split
    · simp only
      split
      · exact complete_adds { walker with skip := none, skipped := _ } none _
      · exact .of_latest rfl
    · split
      · rename_i key stretch captures
        simp only
        split
        · have delivered := deliverRaw_adds { walker with raw := none } window key
            ⟨(stretch.push token.kind).start, token.span.stop⟩
          exact delivered.trans (complete_adds _ none _)
        · exact .of_latest rfl
      · cases walker.stack with
        | nil =>
            simp only [beginRoot]
            split
            · exact .of_latest rfl
            · exact begin_adds { walker with shape := _ } plan.mode window _ token
        | cons frame rest => exact pushFrame_adds walker plan.mode window frame rest token

theorem walk_adds {tokens : List Token}
    (walked : walker.walk plan window tokens = (next, none)) :
    ∃ found, next.latest = found ++ walker.latest ∧ ∀ leaf, Match.raw leaf ∈ found →
      ∃ token ∈ tokens, leaf.span.stop = token.span.stop := by
  induction tokens generalizing walker with
  | nil =>
      cases walked
      exact ⟨[], rfl, fun _ member => absurd member List.not_mem_nil⟩
  | cons token rest ih =>
      obtain ⟨middle, pushed, behind⟩ := walk_cons_eq_none walked
      obtain ⟨later, last, late⟩ := ih behind
      have own := push_adds plan window walker token
      rw [pushed] at own
      obtain ⟨found, first, early⟩ := own
      refine ⟨later ++ found, by rw [last, first, List.append_assoc], fun leaf member => ?_⟩
      rcases List.mem_append.mp member with there | here
      · obtain ⟨other, inside, same⟩ := late leaf there
        exact ⟨other, List.mem_cons_of_mem token inside, same⟩
      · exact ⟨token, List.mem_cons_self, early leaf here⟩

/-! ### Emissions -/

def EndAmong (emissions : List Emission) (tokens : List Token) : Prop :=
  ∀ emission ∈ emissions, ∃ last ∈ tokens, emission.tokens.getLast? = some last

/-- What a walk along the front of some tokens has delivered: the values that end there. -/
structure Cut (plan : Plan) (window : Window) (walker : Walker) (front back : List Token)
    (emissions : List Emission) (middle : Walker) (first second : List Emission) : Prop where
  walked : walker.walk plan window front = (middle, none)
  split : emissions = first ++ second
  latest : middle.latest = (first.map (·.found)).reverse ++ walker.latest
  ended : EndAmong first front
  later : EndAmong second back

/-- A walk delivers matches, each with the last token of its value. -/
def Emits (plan : Plan) (window : Window) (walker : Walker) (tokens : List Token)
    (emissions : List Emission) : Prop :=
  ∀ front back, tokens = front ++ back →
    ∃ middle first second, Cut plan window walker front back emissions middle first second

variable {tokens others : List Token} {emissions more : List Emission}

theorem endAmong_nil : EndAmong [] tokens :=
  fun _ member => absurd member List.not_mem_nil

theorem EndAmong.nothing (ended : EndAmong emissions []) : emissions = [] := by
  rw [List.eq_nil_iff_forall_not_mem]
  intro emission member
  obtain ⟨last, inside, -⟩ := ended emission member
  exact List.not_mem_nil inside

theorem EndAmong.mono (ended : EndAmong emissions tokens) (within : tokens ⊆ others) :
    EndAmong emissions others := by
  intro emission member
  obtain ⟨last, inside, final⟩ := ended emission member
  exact ⟨last, within inside, final⟩

theorem EndAmong.append (one : EndAmong emissions tokens) (two : EndAmong more tokens) :
    EndAmong (emissions ++ more) tokens :=
  List.forall_mem_append.mpr ⟨one, two⟩

theorem Emits.ended (emits : Emits plan window walker tokens emissions) :
    EndAmong emissions tokens := by
  obtain ⟨_, first, second, cut⟩ := emits [] tokens rfl
  rw [cut.split, cut.ended.nothing, List.nil_append]
  exact cut.later

theorem Emits.latest (emits : Emits plan window walker tokens emissions)
    (walked : walker.walk plan window tokens = (next, none)) :
    next.latest = (emissions.map (·.found)).reverse ++ walker.latest := by
  obtain ⟨last, first, second, cut⟩ := emits tokens [] (List.append_nil tokens).symm
  have through := cut.walked
  rw [walked] at through
  cases through
  rw [cut.split, cut.later.nothing, List.append_nil]
  exact cut.latest

theorem Emits.append (one : Emits plan window walker tokens emissions)
    (walked : walker.walk plan window tokens = (next, none))
    (two : Emits plan window next others more) :
    Emits plan window walker (tokens ++ others) (emissions ++ more) := by
  intro front back split
  rcases List.append_eq_append_iff.mp split with ⟨between, rfl, inside⟩ | ⟨between, rfl, rfl⟩
  · -- The front goes beyond the first walk.
    obtain ⟨middle, first, second, cut⟩ := two between back inside
    refine ⟨middle, emissions ++ first, second, ?_, ?_, ?_, ?_, cut.later⟩
    · rw [walk_append_ok walked, cut.walked]
    · rw [cut.split, List.append_assoc]
    · rw [cut.latest, one.latest walked, List.map_append, List.reverse_append, List.append_assoc]
    · exact (one.ended.mono (List.subset_append_left _ _)).append
        (cut.ended.mono (List.subset_append_right _ _))
  · obtain ⟨middle, first, second, cut⟩ := one front between rfl
    refine ⟨middle, first, second ++ more, cut.walked, ?_, cut.latest, cut.ended, ?_⟩
    · rw [cut.split, List.append_assoc]
    · exact (cut.later.mono (List.subset_append_left _ _)).append
        (two.ended.mono (List.subset_append_right _ _))

theorem Emits.quiet (walked : walker.walk plan window tokens = (next, none))
    (latest : next.latest = walker.latest) : Emits plan window walker tokens [] := by
  rintro front back rfl
  rcases through : walker.walk plan window front with ⟨middle, _ | error⟩
  · rw [walk_append_ok through] at walked
    obtain ⟨early, before, -⟩ := walk_adds through
    obtain ⟨late, behind, -⟩ := walk_adds walked
    have none : late ++ early = [] := by
      rw [latest, before, ← List.append_assoc] at behind
      exact List.append_left_eq_self.mp behind.symm
    refine ⟨middle, [], [], through, rfl, ?_, endAmong_nil, endAmong_nil⟩
    rw [before, (List.append_eq_nil_iff.mp none).2]
    rfl
  · rw [walk_append_error through] at walked
    cases walked

theorem Emits.single {emission : Emission}
    (pushed : walker.push plan window token = (next, none))
    (latest : next.latest = emission.found :: walker.latest)
    (last : emission.tokens.getLast? = some token) :
    Emits plan window walker [token] [emission] := by
  intro front back split
  have ends : EndAmong [emission] [token] :=
    List.forall_mem_singleton.mpr ⟨token, List.mem_singleton_self token, last⟩
  cases front with
  | nil =>
      obtain rfl : back = [token] := split.symm
      exact ⟨walker, [], [emission], rfl, rfl, rfl, endAmong_nil, ends⟩
  | cons head rest =>
      obtain ⟨rfl, none⟩ := List.cons.inj split
      obtain ⟨rfl, rfl⟩ := List.append_eq_nil_iff.mp none.symm
      exact ⟨next, [emission], [], walk_cons_ok pushed [], rfl, latest, ends, endAmong_nil⟩

theorem Emits.last {front : List Token} {middle : Walker} {emission : Emission}
    (quiet : walker.walk plan window front = (middle, none))
    (unmoved : middle.latest = walker.latest)
    (walked : walker.walk plan window (front ++ [token]) = (next, none))
    (latest : next.latest = emission.found :: walker.latest)
    (last : emission.tokens.getLast? = some token) :
    Emits plan window walker (front ++ [token]) [emission] := by
  rw [walk_append_ok quiet] at walked
  obtain ⟨behind, pushed, same⟩ := walk_cons_eq_none walked
  cases same
  rw [← unmoved] at latest
  exact (Emits.quiet quiet unmoved).append quiet (.single pushed latest last)

theorem Emits.raw {first final : Nat} (chain : Token.Chain first tokens final)
    (walked : walker.walk plan window tokens = (next, none))
    (latest : next.latest = (emissions.map (·.found)).reverse ++ walker.latest)
    (leaves : ∀ emission ∈ emissions, ∃ leaf, emission.found = .raw leaf ∧
      ∃ last ∈ tokens, emission.tokens.getLast? = some last ∧
        leaf.span.stop = last.span.stop) :
    Emits plan window walker tokens emissions := by
  rintro front back rfl
  obtain ⟨_, before, after⟩ := chain.split
  rcases through : walker.walk plan window front with ⟨middle, _ | error⟩
  · rw [walk_append_ok through] at walked
    obtain ⟨early, here, begun⟩ := walk_adds through
    obtain ⟨late, there, rest⟩ := walk_adds walked
    have all : emissions.map (·.found) = early.reverse ++ late.reverse := by
      rw [latest, here, ← List.append_assoc] at there
      rw [← List.reverse_append, ← List.append_cancel_right there, List.reverse_reverse]
    obtain ⟨own, others, rfl, ownFound, othersFound⟩ := List.map_eq_append_iff.mp all
    -- Tokens that end at one place are on one side.
    have apart {one two : Token} (inFront : one ∈ front) (inBack : two ∈ back) :
        one.span.stop < two.span.stop := by
      have lower := before.mem inFront
      have upper := after.mem inBack
      omega
    have among {list : List Emission} {found : List Match} (same : list.map (·.found) = found)
        {emission : Emission} (member : emission ∈ list) {leaf : RawMatch}
        (raw : emission.found = .raw leaf) : Match.raw leaf ∈ found.reverse := by
      rw [← same, List.mem_reverse, ← raw]
      exact List.mem_map_of_mem member
    refine ⟨middle, own, others, through, rfl, ?_, fun emission member => ?_,
      fun emission member => ?_⟩
    · rw [here, ownFound, List.reverse_reverse]
    · obtain ⟨leaf, raw, last, inside, final, stop⟩ :=
        leaves emission (List.mem_append_left _ member)
      have found := among ownFound member raw
      rw [List.reverse_reverse] at found
      obtain ⟨token, place, ends⟩ := begun leaf found
      rcases List.mem_append.mp inside with good | bad
      · exact ⟨last, good, final⟩
      · have less := apart place bad
        omega
    · obtain ⟨leaf, raw, last, inside, final, stop⟩ :=
        leaves emission (List.mem_append_right _ member)
      have found := among othersFound member raw
      rw [List.reverse_reverse] at found
      obtain ⟨token, place, ends⟩ := rest leaf found
      rcases List.mem_append.mp inside with bad | good
      · have less := apart bad place
        omega
      · exact ⟨last, good, final⟩
  · rw [walk_append_error through] at walked
    cases walked

end Walker
end JsonProjection

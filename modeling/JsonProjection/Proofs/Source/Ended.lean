import JsonProjection.Proofs.Source.Records

/-!
The lines that have ended when a source breaks off.

Of the pieces between newlines the last one is not a line yet. What a reader of records has given by
then are the records of the others.
-/

namespace JsonProjection

/-- The lines of a source that a newline has ended and that are not blank, under their numbers among
all lines from 1 on. -/
def endedLines (bytes : Bytes) : List Line :=
  linesAmong 1 (bytes.splitOn 0x0A).dropLast

theorem linesAmong_append (first : Nat) (front back : List Bytes) :
    linesAmong first (front ++ back) =
      linesAmong first front ++ linesAmong (first + front.length) back := by
  unfold linesAmong
  rw [List.zipIdx_append, List.filterMap_append]

namespace LineFramer

def ended (framer : LineFramer) (bytes : Bytes) : List Line :=
  linesAmong (framer.seen + 1)
    ((bytes.splitOn 0x0A).modifyHead (framer.latest.reverse ++ ·)).dropLast

theorem ended_new (bytes : Bytes) : new.ended bytes = endedLines bytes := by
  unfold ended endedLines
  congr 2
  cases bytes.splitOn 0x0A <;> rfl

theorem ended_nil (framer : LineFramer) : framer.ended [] = [] := by
  unfold ended
  rw [List.splitOn_nil]
  rfl

theorem ended_follows : Follows ended where
  newline framer bytes := by
    have more := List.splitOnP_ne_nil (· == 0x0A) bytes
    unfold ended
    rw [List.splitOn, List.splitOnP_cons_eq_if_modifyHead, if_pos (beq_self_eq_true _),
      List.modifyHead_cons, List.append_nil, List.dropLast_cons_of_ne_nil more, linesAmong_cons,
      content?_eq, Line.of?]
    show _ ++ linesAmong _ (bytes.splitOn 0x0A).dropLast = _
    cases bytes.splitOn 0x0A <;> rfl
  inside framer byte inside bytes := by
    unfold ended
    rw [List.splitOn, List.splitOnP_cons_eq_if_modifyHead, if_neg inside,
      List.modifyHead_modifyHead, List.reverse_cons]
    congr 3
    funext raw
    exact (List.append_assoc framer.latest.reverse [byte] raw).symm

theorem ahead_ended (framer : LineFramer) (bytes : Bytes) :
    ∃ last, framer.ahead bytes = framer.ended bytes ++ last := by
  unfold ahead ended
  generalize (bytes.splitOn 0x0A).modifyHead (framer.latest.reverse ++ ·) = pieces
  rcases pieces.eq_nil_or_concat with rfl | ⟨front, last, rfl⟩
  · exact ⟨[], rfl⟩
  · rw [List.concat_eq_append, List.dropLast_concat, linesAmong_append]
    exact ⟨_, rfl⟩

end LineFramer

theorem Records.readFrom_broken {engine : Engine} {group : Group} {options : EngineOptions}
    (faithful : engine.lexer.cache.Faithful) (plan : engine.plan = ⟨group, options.mode⟩)
    (framer : LineFramer) (latest : List Record) {source : List Arrival}
    (unbroken : Arrival.Unbroken source) (reason : String) (rest : List Arrival) :
    readFrom engine framer latest (source ++ .failure reason :: rest) =
      ⟨latest.reverse ++ (framer.ended (Arrival.joined source)).map (Line.record group options),
        some (.source reason)⟩ := by
  induction source generalizing engine framer latest with
  | nil =>
      rw [show Arrival.joined [] = [] from rfl, framer.ended_nil, List.map_nil, List.append_nil]
      rfl
  | cons arrival source ih =>
      cases arrival with
      | failure reason => exact absurd List.mem_cons_self (unbroken reason)
      | chunk chunk =>
          obtain ⟨kept, read⟩ := runLines_record faithful plan latest (framer.push chunk).2
          rw [show Arrival.joined (.chunk chunk :: source) = chunk ++ Arrival.joined source from rfl,
            ← LineFramer.ended_follows.push, List.map_append, ← List.append_assoc, ← read]
          exact ih (kept.faithful faithful) (kept.plan.trans plan) _ _ unbroken.rest

theorem readRecords_broken {query : String} {group : Group} (compiled : compile query = .ok group)
    (options : EngineOptions) {source : List Arrival} (unbroken : Arrival.Unbroken source)
    (reason : String) (rest : List Arrival) :
    readRecords query options (source ++ .failure reason :: rest) =
      .ok ⟨(endedLines (Arrival.joined source)).map (Line.record group options),
        some (.source reason)⟩ := by
  unfold readRecords
  rw [compiled, ← LineFramer.ended_new]
  exact congrArg Except.ok
    (Records.readFrom_broken (StringCache.faithful_new _ _) rfl _ [] unbroken reason rest)

end JsonProjection

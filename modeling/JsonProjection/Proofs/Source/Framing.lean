import JsonProjection.Arrival
import JsonProjection.Lines

/-!
The lines of a source, whatever the chunks.

`numberedLines` splits all of the bytes at once. What a framer has still to give, once the bytes
that follow are known, is a split of them with the line under way in front; the lines that a chunk
ends are the first of these.
-/

namespace JsonProjection

namespace Arrival

def bytes : Arrival → Bytes
  | .chunk bytes => bytes
  | .failure _ => []

def joined (source : List Arrival) : Bytes :=
  source.flatMap bytes

def Unbroken (source : List Arrival) : Prop :=
  ∀ reason, .failure reason ∉ source

theorem Unbroken.rest {arrival : Arrival} {source : List Arrival}
    (unbroken : Unbroken (arrival :: source)) : Unbroken source :=
  fun reason failure => unbroken reason (List.mem_cons_of_mem _ failure)

theorem unbroken_of_chunks {source : List Arrival}
    (chunks : source = (source.map bytes).map .chunk) : Unbroken source := by
  intro reason failure
  rw [chunks] at failure
  obtain ⟨_, _, impossible⟩ := List.mem_map.mp failure
  cases impossible

end Arrival

/-- The content of a line: without one carriage return at its end, and only if it is not blank. -/
def lineContent? (raw : Bytes) : Option Bytes :=
  let kept := if raw.getLast? = some 0x0D then raw.dropLast else raw
  if kept.all Text.isBlankByte then none else some kept

def Line.of? (raw : Bytes) (number : Nat) : Option Line :=
  (lineContent? raw).map (⟨number, ·⟩)

def linesAmong (first : Nat) (pieces : List Bytes) : List Line :=
  (pieces.zipIdx first).filterMap fun piece => Line.of? piece.1 piece.2

/-- The lines of a source that are not blank, under their numbers among all lines from 1 on. -/
def numberedLines (bytes : Bytes) : List Line :=
  linesAmong 1 (bytes.splitOn 0x0A)

theorem linesAmong_cons (first : Nat) (raw : Bytes) (pieces : List Bytes) :
    linesAmong first (raw :: pieces) =
      (Line.of? raw first).toList ++ linesAmong (first + 1) pieces := by
  unfold linesAmong
  rw [List.zipIdx_cons, List.filterMap_cons]
  cases Line.of? raw first <;> rfl

theorem numberedLines_length (bytes : Bytes) : (numberedLines bytes).length ≤ bytes.length + 1 := by
  have pieces : (bytes.splitOn 0x0A).length ≤ bytes.length + 1 := by
    induction bytes with
    | nil => exact Nat.le_refl 1
    | cons byte rest ih =>
        rw [List.splitOn, List.splitOnP_cons_eq_if_modifyHead]
        split
        · exact Nat.succ_le_succ ih
        · rw [List.length_modifyHead]
          exact Nat.le_succ_of_le ih
  unfold numberedLines linesAmong
  apply Nat.le_trans (List.length_filterMap_le _ _)
  rw [List.length_zipIdx]
  exact pieces

namespace LineFramer

theorem content?_eq (latest : Bytes) : content? latest = lineContent? latest.reverse := by
  unfold content? lineContent?
  rw [List.getLast?_reverse, List.dropLast_reverse]
  split
  · rename_i rest
    simp only [List.head?_cons, if_true, List.tail_cons, List.all_reverse]
  · rename_i other
    have kept : latest.head? ≠ some 0x0D := by
      intro first
      obtain ⟨rest, same⟩ := List.head?_eq_some_iff.mp first
      exact other rest same
    simp only [if_neg kept, List.all_reverse]

def ahead (framer : LineFramer) (bytes : Bytes) : List Line :=
  linesAmong (framer.seen + 1)
    ((bytes.splitOn 0x0A).modifyHead (framer.latest.reverse ++ ·))

theorem ahead_new (bytes : Bytes) : new.ahead bytes = numberedLines bytes := by
  unfold ahead numberedLines
  congr 1
  cases bytes.splitOn 0x0A <;> rfl

theorem ahead_nil (framer : LineFramer) : framer.ahead [] = framer.finish.2.toList := by
  unfold ahead finish
  rw [List.splitOn_nil, List.modifyHead_cons, List.append_nil, linesAmong_cons, Line.of?,
    ← content?_eq]
  cases content? framer.latest <;> rfl

theorem ahead_newline (framer : LineFramer) (bytes : Bytes) :
    framer.ahead (0x0A :: bytes) =
      ((content? framer.latest).map (⟨framer.seen + 1, ·⟩)).toList ++
        ahead ⟨[], framer.seen + 1⟩ bytes := by
  unfold ahead
  rw [List.splitOn, List.splitOnP_cons_eq_if_modifyHead, if_pos (beq_self_eq_true _),
    List.modifyHead_cons, List.append_nil, linesAmong_cons, content?_eq, Line.of?]
  show _ ++ linesAmong _ (bytes.splitOn 0x0A) = _
  cases bytes.splitOn 0x0A <;> rfl

theorem ahead_cons (framer : LineFramer) {byte : UInt8} (inside : ¬(byte == 0x0A) = true)
    (bytes : Bytes) :
    framer.ahead (byte :: bytes) = ahead ⟨byte :: framer.latest, framer.seen⟩ bytes := by
  unfold ahead
  rw [List.splitOn, List.splitOnP_cons_eq_if_modifyHead, if_neg inside,
    List.modifyHead_modifyHead, List.reverse_cons]
  congr 2
  funext raw
  exact (List.append_assoc framer.latest.reverse [byte] raw).symm

/-- What is said of a framer and the bytes that follow stays the same from byte to byte, but for the
lines that end. -/
structure Follows (said : LineFramer → Bytes → List Line) : Prop where
  newline (framer : LineFramer) (bytes : Bytes) : said framer (0x0A :: bytes) =
    ((content? framer.latest).map (⟨framer.seen + 1, ·⟩)).toList ++
      said ⟨[], framer.seen + 1⟩ bytes
  inside (framer : LineFramer) {byte : UInt8} (inside : ¬(byte == 0x0A) = true) (bytes : Bytes) :
    said framer (byte :: bytes) = said ⟨byte :: framer.latest, framer.seen⟩ bytes

variable {said : LineFramer → Bytes → List Line}

theorem Follows.pushFrom (follows : Follows said) (framer : LineFramer) (lines : List Line)
    (chunk bytes : Bytes) :
    (framer.pushFrom lines chunk).2.reverse ++ said (framer.pushFrom lines chunk).1 bytes =
      lines.reverse ++ said framer (chunk ++ bytes) := by
  induction chunk generalizing framer lines with
  | nil => rfl
  | cons byte rest ih =>
      unfold LineFramer.pushFrom
      by_cases newline : (byte == 0x0A) = true
      · obtain rfl : byte = 0x0A := eq_of_beq newline
        rw [List.cons_append, follows.newline, if_pos newline]
        rcases content? framer.latest with _ | content
        · exact ih _ lines
        · refine (ih _ _).trans ?_
          rw [List.reverse_cons, List.append_assoc]
          rfl
      · rw [List.cons_append, follows.inside framer newline, if_neg newline]
        exact ih _ lines

theorem Follows.push (follows : Follows said) (framer : LineFramer) (chunk bytes : Bytes) :
    (framer.push chunk).2 ++ said (framer.push chunk).1 bytes = said framer (chunk ++ bytes) :=
  follows.pushFrom framer [] chunk bytes

theorem push_ahead (framer : LineFramer) (chunk bytes : Bytes) :
    (framer.push chunk).2 ++ (framer.push chunk).1.ahead bytes =
      framer.ahead (chunk ++ bytes) :=
  Follows.push ⟨ahead_newline, ahead_cons⟩ framer chunk bytes

end LineFramer
end JsonProjection

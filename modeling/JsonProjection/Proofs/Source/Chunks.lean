import JsonProjection.Proofs.Source.Ended
import Mathlib.Data.List.DropRight

/-!
A framer over chunks.

What a framer holds is settled by the bytes that it was given, and not by how they were cut: the
bytes behind the last newline, and the number of newlines. The lines that it gives, the last one
included, are those of all bytes split at once.
-/

namespace JsonProjection.LineFramer

def pushAll (framer : LineFramer) : List Bytes → LineFramer × List Line
  | [] => (framer, [])
  | chunk :: rest =>
    let (next, lines) := framer.push chunk
    let (last, more) := next.pushAll rest
    (last, lines ++ more)

/-! ### What a framer holds -/

def behind (bytes : Bytes) : LineFramer :=
  ⟨(bytes.rtakeWhile (· != 0x0A)).reverse, bytes.count 0x0A⟩

theorem behind_newline (bytes : Bytes) : behind (bytes ++ [0x0A]) = ⟨[], bytes.count 0x0A + 1⟩ := by
  unfold behind
  rw [List.rtakeWhile_concat_neg _ _ _ (by decide), List.count_append]
  rfl

theorem behind_inside (bytes : Bytes) {byte : UInt8} (inside : byte ≠ 0x0A) :
    behind (bytes ++ [byte]) = ⟨byte :: (behind bytes).latest, (behind bytes).seen⟩ := by
  unfold behind
  rw [List.rtakeWhile_concat_pos (· != 0x0A) _ _ (bne_iff_ne.mpr inside), List.count_append,
    List.count_singleton, beq_false_of_ne inside, List.reverse_append]
  rfl

theorem pushFrom_behind (bytes : Bytes) (lines : List Line) (chunk : Bytes) :
    ((behind bytes).pushFrom lines chunk).1 = behind (bytes ++ chunk) := by
  induction chunk generalizing bytes lines with
  | nil => rw [List.append_nil, pushFrom]
  | cons byte rest ih =>
      rw [pushFrom, List.append_cons]
      by_cases newline : byte = 0x0A
      · subst newline
        have step (lines : List Line) := ih (bytes ++ [0x0A]) lines
        rw [behind_newline] at step
        rw [if_pos (beq_self_eq_true _)]
        split
        · exact step _
        · exact step lines
      · rw [if_neg (fun same => newline (beq_iff_eq.mp same)), ← behind_inside bytes newline]
        exact ih _ lines

theorem push_behind (bytes chunk : Bytes) :
    ((behind bytes).push chunk).1 = behind (bytes ++ chunk) :=
  pushFrom_behind bytes [] chunk

theorem pushAll_behind (bytes : Bytes) (chunks : List Bytes) :
    ((behind bytes).pushAll chunks).1 = behind (bytes ++ chunks.flatten) := by
  induction chunks generalizing bytes with
  | nil => rw [List.flatten_nil, List.append_nil, pushAll]
  | cons chunk rest ih =>
      rw [List.flatten_cons, ← List.append_assoc, ← ih, ← push_behind]
      rfl

theorem finish_behind (bytes : Bytes) :
    (behind bytes).finish.2 =
      Line.of? (bytes.rtakeWhile (· != 0x0A)) (bytes.count 0x0A + 1) := by
  unfold finish Line.of?
  rw [content?_eq, behind, List.reverse_reverse]
  cases lineContent? (bytes.rtakeWhile (· != 0x0A)) <;> rfl

/-! ### The lines of all chunks -/

theorem Follows.pushAll {said : LineFramer → Bytes → List Line} (follows : Follows said)
    (framer : LineFramer) (chunks : List Bytes) (bytes : Bytes) :
    (framer.pushAll chunks).2 ++ said (framer.pushAll chunks).1 bytes =
      said framer (chunks.flatten ++ bytes) := by
  induction chunks generalizing framer with
  | nil => rfl
  | cons chunk rest ih =>
      rw [List.flatten_cons, List.append_assoc, ← follows.push, ← ih, ← List.append_assoc]
      rfl

/-- However a source is cut into chunks, a new framer gives its lines. The pushes give those that a
newline ends, the end of the source the one behind the last newline, and after any number of pushes
the bytes behind the last newline are those that wait. -/
theorem pushAll_numberedLines (chunks : List Bytes) :
    let source := chunks.flatten
    let tail := source.rtakeWhile (· != 0x0A)
    let (framer, lines) := new.pushAll chunks
    lines = endedLines source ∧
      framer.finish.2 = Line.of? tail (source.count 0x0A + 1) ∧
      lines ++ framer.finish.2.toList = numberedLines source ∧
      framer.buffered = tail.length := by
  intro source tail
  have held : (new.pushAll chunks).1 = behind source := pushAll_behind [] chunks
  have ended := ended_follows.pushAll new chunks []
  have all := Follows.pushAll ⟨ahead_newline, ahead_cons⟩ new chunks []
  rw [ended_nil, List.append_nil, List.append_nil, ended_new] at ended
  rw [ahead_nil, List.append_nil, ahead_new] at all
  refine ⟨ended, ?_, all, ?_⟩
  · rw [held]
    exact finish_behind source
  · rw [held]
    exact List.length_reverse

/-- A chunk may end between a carriage return and its newline. The number of a blank line stays
used. -/
example :
    let (framer, lines) := new.pushAll [[0x61, 0x0D], [0x0A, 0x20], [0x0A, 0x62]]
    lines = [⟨1, [0x61]⟩] ∧ framer.finish.2 = some ⟨3, [0x62]⟩ ∧ framer.buffered = 1 := by
  decide

end JsonProjection.LineFramer

import JsonProjection.Proofs.Engine.Stream
import JsonProjection.Proofs.Token.Follow
import JsonProjection.Proofs.Walk.Recast

/-!
Matches that are taken on the way.

An engine never looks at the matches that it has. An engine from which they were taken goes on like
the one that still has them, and finds the same behind them.
-/

namespace JsonProjection

open Walk

theorem Walker.endChunk_withEarlier (walker : Walker) (earlier : List Match) (mode : EmitMode)
    (window : Window) (pendingStart? : Option Nat) :
    (walker.withEarlier earlier).endChunk mode window pendingStart? =
      (walker.endChunk mode window pendingStart?).withEarlier earlier := by
  have start : (walker.withEarlier earlier).rawStart? mode pendingStart? =
      walker.rawStart? mode pendingStart? := rfl
  unfold Walker.endChunk
  rw [start]
  split <;> rfl

namespace Engine

def withEarlier (engine : Engine) (earlier : List Match) : Engine :=
  { engine with walker := engine.walker.withEarlier earlier }

theorem take_withEarlier (engine : Engine) :
    engine.take.2.withEarlier engine.walker.latest = engine :=
  rfl

theorem handle_tracks (plan : Plan) (window : Window) (earlier : List Match) :
    Lexer.Tracks (handle plan window) (handle plan window) (·.withEarlier earlier) id
      fun _ _ _ => True := by
  apply Lexer.Tracks.of_follows
  intro walker token
  unfold Lexer.Follows handle
  simp only [Walker.push_withEarlier, Option.map_id, id_eq]

theorem feed_withEarlier (engine : Engine) (earlier : List Match) (chunk : Bytes) :
    (engine.withEarlier earlier).feed chunk =
      ((engine.feed chunk).1.withEarlier earlier, (engine.feed chunk).2) := by
  have tracks := handle_tracks engine.plan (engine.window chunk) earlier
  have raises : ∀ lexical, DocumentError.lex lexical = id (DocumentError.lex lexical) :=
    fun _ => rfl
  obtain ⟨pushed, _⟩ := tracks.push raises engine.lexer engine.walker chunk trivial
  rw [Option.map_id, id_eq] at pushed
  unfold feed
  unfold window at pushed
  simp only [withEarlier, pushed]
  rcases Lexer.push (handle engine.plan ⟨chunk.toByteArray, engine.lexer.position⟩)
    DocumentError.lex engine.lexer engine.walker chunk with ⟨lexer, walker, _ | error⟩
  · simp only [Walker.endChunk_withEarlier]
  · rfl

theorem finish_withEarlier (engine : Engine) (earlier : List Match) :
    (engine.withEarlier earlier).finish =
      (engine.finish.1.withEarlier earlier, engine.finish.2) := by
  have tracks := handle_tracks engine.plan ⟨ByteArray.empty, engine.lexer.position⟩ earlier
  have raises : ∀ lexical, DocumentError.lex lexical = id (DocumentError.lex lexical) :=
    fun _ => rfl
  obtain ⟨ended, _⟩ := tracks.finish raises engine.lexer engine.walker trivial
  rw [Option.map_id, id_eq] at ended
  unfold finish
  simp only [withEarlier, ended]

end Engine
end JsonProjection

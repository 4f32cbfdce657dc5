import JsonProjection.Proofs.Token.Cache
import JsonProjection.Proofs.Walk.Carry

/-!
A source in chunks is read like a source at once.

`Plan.readOn` reads a source without chunks: it walks along the tokens of the source, with all of
the source in sight. Feeding an engine the chunks of the source and ending it comes to the same,
however the source is cut.
-/

namespace JsonProjection

open Walk

/-! ### Chunk by chunk and at once -/

namespace Engine

def feedAll : Engine → List Bytes → Engine × Option DocumentError
  | engine, [] => (engine, none)
  | engine, chunk :: rest =>
    match engine.feed chunk with
    | (engine, some error) => (engine, some error)
    | (engine, none) => feedAll engine rest

def stream (engine : Engine) (chunks : List Bytes) : Engine × Option DocumentError :=
  match engine.feedAll chunks with
  | (engine, some error) => (engine, some error)
  | (engine, none) => engine.finish

end Engine

def Plan.readOn (plan : Plan) (source : Bytes) (walker : Walker) (lexing : Lexing) :
    Walker × Option DocumentError :=
  match walker.walk plan (Window.whole source) lexing.tokens, lexing.error? with
  | (walker, some error), _ => (walker, some (.structural error))
  | (walker, none), some error => (walker, some (.lex error))
  | (walker, none), none => (walker, (walker.endOfInput source.length).2.map .structural)

def Plan.walkOn (plan : Plan) (source : Bytes) (walker : Walker)
    (scanned : List Token × Except LexError Lexer) : Walker × Option DocumentError :=
  match walker.walk plan (Window.whole source) scanned.1, scanned.2 with
  | (walker, some error), _ => (walker, some (.structural error))
  | (walker, none), .error error => (walker, some (.lex error))
  | (walker, none), .ok _ => (walker, none)

theorem Plan.walkOn_congr {plan : Plan} {source : Bytes} {walker : Walker}
    {one other : List Token × Except LexError Lexer} (same : Lexer.SameReading one other) :
    plan.walkOn source walker one = plan.walkOn source walker other := by
  unfold walkOn
  cases same with
  | ok tokens behind =>
      rcases walker.walk plan (Window.whole source) tokens with ⟨last, _ | error⟩ <;> rfl
  | error tokens error => rfl

/-- What reading a source from the start comes to. -/
def Plan.read (plan : Plan) (single : Bool) (source : Bytes) : Walker × Option DocumentError :=
  plan.readOn source { Walker.new with single } (Lexing.of source)

namespace Engine

def window (engine : Engine) (chunk : Bytes) : Window :=
  ⟨chunk.toByteArray, engine.lexer.position⟩

def Carries (engine : Engine) (source : Bytes) : Prop :=
  engine.walker.carry.reverse = carried source engine.lexer.position
    (engine.walker.rawStart? engine.plan.mode engine.lexer.pendingStart?)

/-- An engine in the middle of a source: its lexer is sound, its cache is faithful, and it carries
the right bytes. -/
structure Within (engine : Engine) (source rest : Bytes) : Prop where
  sound : engine.lexer.Sound
  faithful : engine.lexer.cache.Faithful
  place : ∃ before, source = before ++ rest ∧ before.length = engine.lexer.position
  carries : engine.Carries source

end Engine

namespace Walker

theorem endChunk_carry {window : Window} {source chunk : Bytes}
    (shows : window.Shows source chunk) {walker : Walker} {mode : EmitMode}
    {pendingStart? : Option Nat}
    (kept : walker.carry.reverse =
      carried source window.base (walker.rawStart? mode pendingStart?)) :
    (walker.endChunk mode window pendingStart?).carry.reverse =
      carried source (window.base + chunk.length) (walker.rawStart? mode pendingStart?) := by
  unfold endChunk
  cases raw : walker.rawStart? mode pendingStart? with
  | none => rfl
  | some start =>
      rw [raw] at kept
      simp only [List.reverse_append, List.reverse_reverse, kept]
      exact Window.carried_append_suffix shows start

theorem endChunk_withCarry (walker : Walker) (mode : EmitMode) (window : Window)
    (pendingStart? : Option Nat) (carry : Bytes) :
    (walker.endChunk mode window pendingStart?).withCarry carry = walker.withCarry carry := by
  unfold endChunk
  split <;> rfl

theorem endChunk_rawStart? (walker : Walker) (mode : EmitMode) (window : Window)
    (pendingStart? : Option Nat) :
    (walker.endChunk mode window pendingStart?).rawStart? mode pendingStart? =
      walker.rawStart? mode pendingStart? := by
  unfold endChunk
  split <;> rfl

end Walker

namespace Plan

variable {plan : Plan} {source : Bytes} {walker next : Walker} {tokens : List Token}

theorem walkOn_append_ok {lexer middle : Lexer} {first : Bytes}
    (scanned : (lexer.scan first).2 = .ok middle)
    (walked : plan.walkOn source walker (lexer.scan first) = (next, none)) (second : Bytes) :
    plan.walkOn source walker (lexer.scan (first ++ second)) =
      plan.walkOn source next (middle.scan second) := by
  rcases front : lexer.scan first with ⟨tokens, outcome⟩
  rw [front] at scanned walked
  obtain rfl : outcome = .ok middle := scanned
  rw [Lexer.scan_append_ok front]
  unfold walkOn at walked ⊢
  rcases own : walker.walk plan (Window.whole source) tokens with ⟨between, _ | error⟩
  · simp only [own] at walked
    cases walked
    rw [Walker.walk_append_ok own]
  · simp only [own] at walked
    cases walked

theorem walkOn_append_error {lexer : Lexer} {first : Bytes} {error : DocumentError}
    (walked : plan.walkOn source walker (lexer.scan first) = (next, some error))
    (second : Bytes) :
    plan.walkOn source walker (lexer.scan (first ++ second)) = (next, some error) := by
  rcases front : lexer.scan first with ⟨tokens, lexical | middle⟩
  · rw [front] at walked
    rw [Lexer.scan_append_error front]
    exact walked
  · rw [front] at walked
    rw [Lexer.scan_append_ok front]
    unfold walkOn at walked ⊢
    rcases own : walker.walk plan (Window.whole source) tokens with ⟨between, _ | refusal⟩
    · simp only [own] at walked
      cases walked
    · simp only [own] at walked
      rw [Walker.walk_append_error own]
      exact walked

theorem readOn_of_walkOn_ok {lexer middle : Lexer} {bytes : Bytes}
    (scanned : (lexer.scan bytes).2 = .ok middle)
    (walked : plan.walkOn source walker (lexer.scan bytes) = (next, none)) :
    plan.readOn source walker (lexer.readOn bytes) =
      plan.readOn source next (middle.readOn []) := by
  rcases front : lexer.scan bytes with ⟨tokens, outcome⟩
  rw [front] at scanned walked
  obtain rfl : outcome = .ok middle := scanned
  rw [← List.append_nil bytes, Lexer.readOn_append_ok front]
  unfold walkOn at walked
  unfold readOn
  rcases own : walker.walk plan (Window.whole source) tokens with ⟨between, _ | error⟩
  · simp only [own] at walked
    cases walked
    rw [Walker.walk_append_ok own]
  · simp only [own] at walked
    cases walked

theorem readOn_of_walkOn_error {lexer : Lexer} {bytes : Bytes} {error : DocumentError}
    (walked : plan.walkOn source walker (lexer.scan bytes) = (next, some error)) :
    plan.readOn source walker (lexer.readOn bytes) = (next, some error) := by
  unfold walkOn at walked
  unfold readOn Lexer.readOn
  rcases front : lexer.scan bytes with ⟨tokens, lexical | middle⟩
  · rw [front] at walked
    rcases own : walker.walk plan (Window.whole source) tokens with ⟨between, _ | refusal⟩
    · simp only [own] at walked ⊢
      exact walked
    · simp only [own] at walked ⊢
      exact walked
  · rw [front] at walked
    rcases own : walker.walk plan (Window.whole source) tokens with ⟨between, _ | refusal⟩
    · simp only [own] at walked
      cases walked
    · simp only [own] at walked
      simp only [Walker.walk_append_error own]
      exact walked

end Plan

namespace Engine

theorem Within.walk_scan {engine : Engine} {source chunk rest : Bytes}
    (inside : engine.Within source (chunk ++ rest)) {tokens : List Token} {next : Lexer}
    {length : Nat} (le : length ≤ chunk.length)
    (advance : engine.lexer.Advance tokens next length) {walker : Walker}
    {error? : Option StructuralError}
    (walked : engine.walker.walk engine.plan (engine.window chunk) tokens = (walker, error?)) :
    (engine.walker.withCarry []).walk engine.plan (Window.whole source) tokens =
        (walker.withCarry [], error?) ∧
      (error? = none → walker.carry.reverse = carried source engine.lexer.position
        (walker.rawStart? engine.plan.mode next.pendingStart?)) := by
  obtain ⟨before, split, place⟩ := inside.place
  have shows : (engine.window chunk).Shows source chunk := ⟨rfl, before, rest, split, place⟩
  have carries := inside.carries
  unfold Carries at carries
  cases tokens with
  | nil =>
      cases walked
      refine ⟨rfl, fun _ => ?_⟩
      rw [carries]
      cases pending : engine.lexer.pendingStart? with
      | some start => rw [advance.stays start pending rfl]
      | none =>
          cases later : next.pendingStart? with
          | none => rfl
          | some start =>
              have edge : engine.lexer.edge = engine.lexer.position := by
                simp only [Lexer.edge, pending, Option.getD_none]
              have nextEdge : next.edge = start := by
                simp only [Lexer.edge, later, Option.getD_some]
              have le : engine.lexer.edge ≤ next.edge := advance.chain
              rw [edge, nextEdge] at le
              exact (Walker.carried_rawStart? _ _ le).symm
  | cons token others =>
      have base : engine.lexer.position ≤ token.span.stop :=
        advance.behind token List.mem_cons_self
      have last : next.edge ≤ engine.lexer.position + chunk.length := by
        have := Lexer.edge_le_position advance.sound
        rw [advance.position] at this
        omega
      have kept : engine.walker.carry.reverse = carried source engine.lexer.position
          (engine.walker.rawStart? engine.plan.mode (some token.span.start)) := by
        cases pending : engine.lexer.pendingStart? with
        | some start => rw [advance.starts start pending token rfl, carries, pending]
        | none =>
            have edge : engine.lexer.edge = engine.lexer.position := by
              simp only [Lexer.edge, pending, Option.getD_none]
            have le := advance.chain.1
            rw [edge] at le
            rw [carries, pending, Walker.carried_rawStart? _ _ le]
      obtain ⟨same, carry⟩ := Walker.walk_whole shows advance.chain base last advance.inner kept
      rw [walked] at same carry
      refine ⟨same, fun none => ?_⟩
      rw [carry none]
      cases later : next.pendingStart? with
      | none => rfl
      | some start =>
          have nextEdge : next.edge = start := by
            simp only [Lexer.edge, later, Option.getD_some]
          have behind := advance.chain.2.2.le
          rw [nextEdge] at behind
          exact (Walker.carried_rawStart? _ _ (Nat.le_trans base behind)).symm

theorem Within.walk_flush {engine : Engine} {source : Bytes} (inside : engine.Within source [])
    {walker : Walker} {error? : Option StructuralError}
    (walked : engine.walker.walk engine.plan ⟨ByteArray.empty, engine.lexer.position⟩
      engine.lexer.flush.1 = (walker, error?)) :
    (engine.walker.withCarry []).walk engine.plan (Window.whole source) engine.lexer.flush.1 =
      (walker.withCarry [], error?) := by
  obtain ⟨before, split, place⟩ := inside.place
  have shows : (⟨ByteArray.empty, engine.lexer.position⟩ : Window).Shows source [] :=
    ⟨rfl, before, [], split, place⟩
  have carries := inside.carries
  unfold Carries at carries
  have chain := Lexer.flush_chain inside.sound
  have inner := Lexer.flush_inner engine.lexer
  have starts := Lexer.flush_starts engine.lexer
  cases tokens : engine.lexer.flush.1 with
  | nil =>
      rw [tokens] at walked
      cases walked
      rfl
  | cons token rest =>
      rw [tokens] at walked chain inner starts
      obtain ⟨pending, stop⟩ := starts token List.mem_cons_self
      rw [pending] at carries
      have same := (Walker.walk_whole shows chain (Nat.le_of_eq stop.symm) (Nat.le_refl _) inner
        carries).1
      rw [walked] at same
      exact same

theorem feed_scan (engine : Engine) (chunk : Bytes) :
    ∃ stopped : Lexer, engine.feed chunk =
      match engine.walker.walk engine.plan (engine.window chunk) (engine.lexer.scan chunk).1,
        (engine.lexer.scan chunk).2 with
      | (walker, some error), _ =>
        (⟨engine.plan, stopped, walker, engine.processed + chunk.length⟩,
          some (.structural error))
      | (walker, none), .error error =>
        (⟨engine.plan, stopped, walker, engine.processed + chunk.length⟩, some (.lex error))
      | (walker, none), .ok next =>
        (⟨engine.plan, next,
          walker.endChunk engine.plan.mode (engine.window chunk) next.pendingStart?,
          engine.processed + chunk.length⟩, none) := by
  obtain ⟨stopped, pushed⟩ := Lexer.push_scan (handle engine.plan (engine.window chunk)) .lex
    engine.lexer engine.walker chunk
  refine ⟨stopped, ?_⟩
  rw [Walker.handAll_handle] at pushed
  unfold feed
  unfold window at pushed ⊢
  simp only [pushed]
  rcases engine.walker.walk engine.plan ⟨chunk.toByteArray, engine.lexer.position⟩
    (engine.lexer.scan chunk).1 with ⟨walker, _ | error⟩
  · cases (engine.lexer.scan chunk).2 <;> rfl
  · rfl

theorem Within.feed_ok {engine : Engine} {source chunk rest : Bytes}
    (inside : engine.Within source (chunk ++ rest)) {tokens : List Token} {next : Lexer}
    (scanned : engine.lexer.scan chunk = (tokens, .ok next)) {walker : Walker}
    (walked : engine.walker.walk engine.plan (engine.window chunk) tokens = (walker, none)) :
    Within ⟨engine.plan, next,
      walker.endChunk engine.plan.mode (engine.window chunk) next.pendingStart?,
      engine.processed + chunk.length⟩ source rest := by
  have advance := Lexer.scan_advance inside.sound scanned
  obtain ⟨_, carry⟩ := inside.walk_scan (Nat.le_refl _) advance walked
  obtain ⟨before, split, place⟩ := inside.place
  have shows : (engine.window chunk).Shows source chunk := ⟨rfl, before, rest, split, place⟩
  refine ⟨advance.sound, Lexer.scan_faithful inside.faithful scanned, ?_, ?_⟩
  · refine ⟨before ++ chunk, ?_, ?_⟩
    · rw [split, List.append_assoc]
    · rw [List.length_append, place, advance.position]
  · unfold Carries
    rw [Walker.endChunk_rawStart?, advance.position]
    exact Walker.endChunk_carry shows (carry rfl)

theorem Within.finish {engine : Engine} {source : Bytes} (inside : engine.Within source []) :
    (engine.finish.1.walker.withCarry [], engine.finish.2) =
      engine.plan.readOn source (engine.walker.withCarry []) (engine.lexer.readOn []) := by
  obtain ⟨before, split, place⟩ := inside.place
  rw [List.append_nil] at split
  have position : engine.lexer.position = source.length := by
    rw [split, place]
  have flushed : engine.lexer.readOn [] = ⟨engine.lexer.flush.1, engine.lexer.flush.2⟩ := rfl
  obtain ⟨stopped, ended⟩ := Lexer.finish_flush
    (handle engine.plan ⟨ByteArray.empty, engine.lexer.position⟩) .lex engine.lexer engine.walker
  rw [Walker.handAll_handle] at ended
  unfold Engine.finish
  simp only [ended, flushed]
  unfold Plan.readOn
  rcases walked : engine.walker.walk engine.plan ⟨ByteArray.empty, engine.lexer.position⟩
    engine.lexer.flush.1 with ⟨walker, _ | error⟩
  · rw [inside.walk_flush walked]
    cases engine.lexer.flush.2 with
    | some error => rfl
    | none =>
        have same : ((walker.withCarry []).endOfInput source.length).2 =
            (walker.endOfInput source.length).2 := by
          apply Walker.endOfInput_snd_congr <;> rfl
        simp only [Option.map_none, handle, Walker.push, if_true, position,
          Walker.endOfInput_fst, same]
  · rw [inside.walk_flush walked]
    rfl

/-- Feeding a chunk is walking along its tokens with the whole source in sight, but for the carried
bytes. Without an error the engine stays in the middle of the source. -/
theorem Within.feed {engine : Engine} {source chunk rest : Bytes}
    (inside : engine.Within source (chunk ++ rest)) :
    ((engine.feed chunk).1.walker.withCarry [], (engine.feed chunk).2) =
        engine.plan.walkOn source (engine.walker.withCarry []) (engine.lexer.scan chunk) ∧
      ((engine.feed chunk).2 = none →
        (engine.feed chunk).1.Within source rest ∧
          (engine.lexer.scan chunk).2 = .ok (engine.feed chunk).1.lexer) := by
  obtain ⟨stopped, fed⟩ := engine.feed_scan chunk
  rcases scanned : engine.lexer.scan chunk with ⟨tokens, error | next⟩
  · -- The tokens in front of a lexical error are those of the bytes in front of it.
    obtain ⟨taken, byte, others, next, split, front, _⟩ := Lexer.scan_error scanned
    have advance := Lexer.scan_advance inside.sound front
    have le : taken.length ≤ chunk.length := by
      rw [split, List.length_append]
      exact Nat.le_add_right _ _
    rw [scanned] at fed
    rcases walked : engine.walker.walk engine.plan (engine.window chunk) tokens with
      ⟨walker, _ | refusal⟩
    · obtain ⟨same, _⟩ := inside.walk_scan le advance walked
      simp only [walked] at fed
      simp only [fed, Plan.walkOn, same]
      exact ⟨trivial, fun impossible => by cases impossible⟩
    · obtain ⟨same, _⟩ := inside.walk_scan le advance walked
      simp only [walked] at fed
      simp only [fed, Plan.walkOn, same]
      exact ⟨trivial, fun impossible => by cases impossible⟩
  · have advance := Lexer.scan_advance inside.sound scanned
    rw [scanned] at fed
    rcases walked : engine.walker.walk engine.plan (engine.window chunk) tokens with
      ⟨walker, _ | refusal⟩
    · obtain ⟨same, _⟩ := inside.walk_scan (Nat.le_refl _) advance walked
      simp only [walked] at fed
      simp only [fed, Plan.walkOn, same, Walker.endChunk_withCarry]
      exact ⟨trivial, fun _ => ⟨inside.feed_ok scanned walked, trivial⟩⟩
    · obtain ⟨same, _⟩ := inside.walk_scan (Nat.le_refl _) advance walked
      simp only [walked] at fed
      simp only [fed, Plan.walkOn, same]
      exact ⟨trivial, fun impossible => by cases impossible⟩

theorem feedAll_plan (engine : Engine) (chunks : List Bytes) :
    (engine.feedAll chunks).1.plan = engine.plan := by
  induction chunks generalizing engine with
  | nil => rfl
  | cons chunk rest ih =>
      have plan : (engine.feed chunk).1.plan = engine.plan := rfl
      unfold feedAll
      rcases fed : engine.feed chunk with ⟨next, _ | error⟩
      · rw [fed] at plan
        exact (ih next).trans plan
      · rw [fed] at plan
        exact plan

theorem Within.feedAll {source rest : Bytes} {chunks : List Bytes} {engine : Engine}
    (inside : engine.Within source (chunks.flatten ++ rest)) :
    ((engine.feedAll chunks).1.walker.withCarry [], (engine.feedAll chunks).2) =
        engine.plan.walkOn source (engine.walker.withCarry [])
          (engine.lexer.scan chunks.flatten) ∧
      ((engine.feedAll chunks).2 = none →
        (engine.feedAll chunks).1.Within source rest ∧
          (engine.lexer.scan chunks.flatten).2 = .ok (engine.feedAll chunks).1.lexer) := by
  induction chunks generalizing engine with
  | nil => exact ⟨rfl, fun _ => ⟨inside, rfl⟩⟩
  | cons chunk others ih =>
      rw [List.flatten_cons, List.append_assoc] at inside
      rw [List.flatten_cons]
      obtain ⟨walked, behind⟩ := inside.feed
      have plan : (engine.feed chunk).1.plan = engine.plan := rfl
      unfold Engine.feedAll
      rcases fed : engine.feed chunk with ⟨next, _ | error⟩
      · rw [fed] at walked behind plan
        obtain ⟨within, scanned⟩ := behind rfl
        obtain ⟨all, last⟩ := ih within
        rw [Plan.walkOn_append_ok scanned walked.symm, ← plan]
        refine ⟨all, fun ended => ⟨(last ended).1, ?_⟩⟩
        rcases front : engine.lexer.scan chunk with ⟨tokens, outcome⟩
        rw [front] at scanned
        obtain rfl : outcome = .ok next.lexer := scanned
        rw [Lexer.scan_append_ok front]
        exact (last ended).2
      · rw [fed] at walked
        rw [Plan.walkOn_append_error walked.symm]
        exact ⟨rfl, fun impossible => by cases impossible⟩

/-- A source in chunks is read like the source at once: the same walker but for the carried bytes,
and the same error. -/
theorem Within.stream {source : Bytes} {chunks : List Bytes} {engine : Engine}
    (inside : engine.Within source chunks.flatten) :
    ((engine.stream chunks).1.walker.withCarry [], (engine.stream chunks).2) =
      engine.plan.readOn source (engine.walker.withCarry [])
        (engine.lexer.readOn chunks.flatten) := by
  rw [← List.append_nil chunks.flatten] at inside
  obtain ⟨walked, behind⟩ := inside.feedAll
  have plan := engine.feedAll_plan chunks
  unfold Engine.stream
  rcases fed : engine.feedAll chunks with ⟨last, _ | error⟩
  · rw [fed] at walked behind plan
    obtain ⟨within, scanned⟩ := behind rfl
    rw [Plan.readOn_of_walkOn_ok scanned walked.symm, ← plan]
    exact within.finish
  · rw [fed] at walked
    rw [Plan.readOn_of_walkOn_error walked.symm]

end Engine
end JsonProjection

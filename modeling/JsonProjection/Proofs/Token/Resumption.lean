import JsonProjection.Proofs.Token.Follow
import JsonProjection.Proofs.Token.Spans

/-!
Taking a chunk in parts.

A client may push a chunk as a whole or in smaller chunks, refuse a token and go on behind it, or
pull a few tokens at a time. `Takes` is what all of these come to: single tokens taken one after
the other, and bytes that complete none. What was taken and what is left then come to what one push
of the whole chunk comes to, in the tokens, the first error, and the lexer behind.
-/

namespace JsonProjection.Lexer

/-! ### Ways of taking bytes -/

/-- What came of taking some bytes: the lexer behind, the bytes that are left, the tokens in order,
and the lexical error that dropped all that was left. -/
structure Reading where
  lexer : Lexer
  left : Bytes
  tokens : List Token
  error? : Option LexError
  deriving DecidableEq

def Reading.behind (tokens : List Token) (reading : Reading) : Reading :=
  { reading with tokens := tokens ++ reading.tokens }

inductive Stop where
  | refused
  | lexical (error : LexError)
  deriving DecidableEq

def Stop.error? : Stop → Option LexError
  | .refused => none
  | .lexical error => some error

def keep (refuses : List Token → Bool) (tokens : List Token) (token : Token) :
    List Token × Option Stop :=
  (tokens ++ [token], if refuses (tokens ++ [token]) then some .refused else none)

def pushed (lexer : Lexer) (bytes : Bytes) : Reading :=
  let (next, tokens, stop?) := lexer.push (keep fun _ => false) Stop.lexical [] bytes
  ⟨next, [], tokens, stop?.bind Stop.error?⟩

/-- A way of taking bytes from the front: a chunk of the first `size` of them is pushed, with a
handler that may refuse a token, or at most `limit` tokens are pulled from it. -/
inductive Move where
  | push (size : Nat) (refuses : List Token → Bool)
  | pull (size limit : Nat)

def Move.Proper : Move → Prop
  | .push size _ => 0 < size
  | .pull size limit => 0 < size ∧ 0 < limit

/-- A refused push leaves the bytes from the position of the lexer on, and a pull the last bytes of
its chunk, as many as the scanner has not consumed. -/
def Move.take (lexer : Lexer) (bytes : Bytes) : Move → Reading
  | .push size refuses =>
    match lexer.push (keep refuses) Stop.lexical [] (bytes.take size) with
    | (next, tokens, none) => ⟨next, bytes.drop size, tokens, none⟩
    | (next, tokens, some .refused) =>
      ⟨next, bytes.drop (next.position - lexer.position), tokens, none⟩
    | (next, tokens, some (.lexical error)) => ⟨next, [], tokens, some error⟩
  | .pull size limit =>
    let chunk := bytes.take size
    match lexer.pull limit chunk [] with
    | (next, rest, latest, none) =>
      ⟨next, chunk.drop (chunk.length - rest.length) ++ bytes.drop size, latest.reverse, none⟩
    | (next, _, latest, some error) => ⟨next, [], latest.reverse, some error⟩

def consume (lexer : Lexer) : List Move → Bytes → Reading
  | [], bytes => ⟨lexer, bytes, [], none⟩
  | move :: moves, bytes =>
    let reading := move.take lexer bytes
    match reading.error? with
    | some _ => reading
    | none => (consume reading.lexer moves reading.left).behind reading.tokens

/-! ### One token -/

variable {lexer next middle : Lexer} {bytes rest front back : Bytes} {token : Token}
  {error : LexError}

theorem next?_token (taken : lexer.next? bytes = (next, rest, some (.ok token))) :
    ∃ own, bytes = own ++ rest ∧ next.position = lexer.position + own.length ∧
      next.pending = none ∧ (own = [] → lexer.pending ≠ none) := by
  induction bytes generalizing lexer with
  | nil => cases taken
  | cons byte others ih =>
      have goes := step_goes lexer byte
      rw [next?] at taken
      rcases stepped : lexer.step byte with ⟨middle, _ | done | done | error⟩
      · rw [stepped] at taken goes
        obtain ⟨own, rfl, position, idle, -⟩ := ih taken
        refine ⟨byte :: own, rfl, ?_, idle, fun none => absurd none (List.cons_ne_nil _ _)⟩
        rw [position, goes, List.length_cons]
        omega
      · rw [stepped] at taken goes
        cases taken
        exact ⟨[byte], rfl, goes.1, goes.2, fun none => absurd none (List.cons_ne_nil _ _)⟩
      · rw [stepped] at taken goes
        cases taken
        exact ⟨[], rfl, goes.1, goes.2.2, fun _ => goes.2.1⟩
      · rw [stepped] at taken
        cases taken

theorem next?_none (taken : lexer.next? bytes = (next, rest, none)) :
    rest = [] ∧ next.position = lexer.position + bytes.length := by
  induction bytes generalizing lexer with
  | nil =>
      cases taken
      exact ⟨rfl, rfl⟩
  | cons byte others ih =>
      have goes := step_goes lexer byte
      rw [next?] at taken
      rcases stepped : lexer.step byte with ⟨middle, _ | done | done | error⟩
      · rw [stepped] at taken goes
        obtain ⟨rfl, position⟩ := ih taken
        refine ⟨rfl, ?_⟩
        rw [position, goes, List.length_cons]
        omega
      all_goals
        rw [stepped] at taken
        cases taken

/-- More bytes behind a token stay where they are, an error drops them, and bytes that complete no
token are as if they had been taken before. -/
theorem next?_append (lexer : Lexer) (front back : Bytes) :
    lexer.next? (front ++ back) =
      match lexer.next? front with
      | (next, rest, some (.ok token)) => (next, rest ++ back, some (.ok token))
      | (next, _, some (.error error)) => (next, [], some (.error error))
      | (next, _, none) => next.next? back := by
  induction front generalizing lexer with
  | nil => rfl
  | cons byte others ih =>
      rw [List.cons_append, next?, next?]
      rcases lexer.step byte with ⟨middle, _ | done | done | error⟩
      · exact ih middle
      · rfl
      · rfl
      · rfl

theorem push_next {σ ε : Type} (handle : σ → Token → σ × Option ε) (raise : LexError → ε)
    (lexer : Lexer) (state : σ) (bytes : Bytes) :
    push handle raise lexer state bytes =
      match lexer.next? bytes with
      | (next, _, none) => (next, state, none)
      | (next, _, some (.error error)) => (next, state, some (raise error))
      | (next, rest, some (.ok token)) =>
        match handle state token with
        | (state, some refusal) => (next, state, some refusal)
        | (state, none) => push handle raise next state rest := by
  induction bytes generalizing lexer with
  | nil => rfl
  | cons byte others ih =>
      have goes := step_goes lexer byte
      rw [push, next?]
      generalize lexer.step byte = result at goes ⊢
      rcases result with ⟨middle, _ | done | done | error⟩
      · exact ih middle
      · rfl
      · -- The byte behind the number is the first one of the bytes that are left.
        have idle : middle.pending = none := goes.2.2
        simp only
        rcases handle state done with ⟨after, _ | refusal⟩
        · simp only
          rw [push, step_idle idle, startToken_eq]
          cases Lead.of byte <;> rfl
        · rfl
      · rfl

theorem push_keep (lexer : Lexer) (tokens : List Token) (bytes : Bytes) :
    push (keep fun _ => false) Stop.lexical lexer tokens bytes =
      ((push (keep fun _ => false) Stop.lexical lexer [] bytes).1,
        tokens ++ (push (keep fun _ => false) Stop.lexical lexer [] bytes).2.1,
        (push (keep fun _ => false) Stop.lexical lexer [] bytes).2.2) := by
  have follows (current : List Token) (token : Token) :
      Follows (keep fun _ => false) (keep fun _ => false) (tokens ++ ·) id current token := by
    simp only [Follows, keep, Bool.false_eq_true, if_false, Option.map_none, List.append_assoc]
  have raises (error : LexError) : Stop.lexical error = id (Stop.lexical error) := rfl
  have pushed := ((Tracks.of_follows follows).push raises lexer [] bytes trivial).1
  rw [List.append_nil, Option.map_id] at pushed
  exact pushed

theorem pushed_next (lexer : Lexer) (bytes : Bytes) :
    lexer.pushed bytes =
      match lexer.next? bytes with
      | (next, _, none) => ⟨next, [], [], none⟩
      | (next, _, some (.error error)) => ⟨next, [], [], some error⟩
      | (next, rest, some (.ok token)) => (next.pushed rest).behind [token] := by
  unfold pushed
  rw [push_next]
  rcases lexer.next? bytes with ⟨next, rest, _ | error | token⟩
  · rfl
  · rfl
  · simp only [keep, Bool.false_eq_true, if_false, List.nil_append]
    rw [push_keep]
    rfl

theorem pushed_nil (lexer : Lexer) : lexer.pushed [] = ⟨lexer, [], [], none⟩ :=
  rfl

/-! ### Many tokens -/

/-- Some bytes from the front were taken: tokens one after the other, and bytes that complete
none. -/
inductive Takes (lexer : Lexer) (bytes : Bytes) : Reading → Prop where
  | start : Takes lexer bytes ⟨lexer, bytes, [], none⟩
  | token {middle next : Lexer} {between rest : Bytes} {tokens : List Token} {token : Token}
      (before : Takes lexer bytes ⟨middle, between, tokens, none⟩)
      (taken : middle.next? between = (next, rest, some (.ok token))) :
      Takes lexer bytes ⟨next, rest, tokens ++ [token], none⟩
  | part {middle next : Lexer} {front back rest : Bytes} {tokens : List Token}
      (before : Takes lexer bytes ⟨middle, front ++ back, tokens, none⟩)
      (taken : middle.next? front = (next, rest, none)) :
      Takes lexer bytes ⟨next, back, tokens, none⟩
  | failed {middle next : Lexer} {between rest : Bytes} {tokens : List Token} {error : LexError}
      (before : Takes lexer bytes ⟨middle, between, tokens, none⟩)
      (taken : middle.next? between = (next, rest, some (.error error))) :
      Takes lexer bytes ⟨next, [], tokens, some error⟩

namespace Takes

variable {reading : Reading} {tokens : List Token}

/-- What was taken, and then what is left, come to what one push of all comes to. -/
theorem pushed (takes : Takes lexer bytes reading) :
    lexer.pushed bytes =
      match reading.error? with
      | some _ => reading
      | none => (reading.lexer.pushed reading.left).behind reading.tokens := by
  induction takes with
  | start => rfl
  | token before taken ih =>
      refine ih.trans ?_
      simp only [Reading.behind]
      rw [pushed_next, taken]
      simp only [Reading.behind, List.append_assoc]
  | @part middle next front back rest tokens before taken ih =>
      refine ih.trans ?_
      simp only
      rw [pushed_next, next?_append, taken, pushed_next next]
  | failed before taken ih =>
      refine ih.trans ?_
      simp only [Reading.behind]
      rw [pushed_next, taken]
      simp only [List.append_nil]

theorem taken (takes : Takes lexer bytes reading) (unbroken : reading.error? = none) :
    ∃ own, bytes = own ++ reading.left ∧
      reading.lexer.position = lexer.position + own.length := by
  induction takes with
  | start => exact ⟨[], rfl, rfl⟩
  | token before taken ih =>
      obtain ⟨first, rfl, position⟩ := ih rfl
      obtain ⟨own, rfl, further, -⟩ := next?_token taken
      refine ⟨first ++ own, (List.append_assoc _ _ _).symm, ?_⟩
      simp only at position
      rw [further, position, List.length_append, Nat.add_assoc]
  | @part middle next front back rest tokens before taken ih =>
      obtain ⟨first, split, position⟩ := ih rfl
      obtain ⟨-, further⟩ := next?_none taken
      refine ⟨first ++ front, by rw [split, List.append_assoc], ?_⟩
      simp only at position
      rw [further, position, List.length_append, Nat.add_assoc]
  | failed => cases unbroken

theorem extend (takes : Takes lexer front reading) (back : Bytes) :
    match reading.error? with
    | some _ => Takes lexer (front ++ back) reading
    | none => Takes lexer (front ++ back) { reading with left := reading.left ++ back } := by
  induction takes with
  | start => exact .start
  | @token middle next between rest tokens token before taken ih =>
      have longer : middle.next? (between ++ back) = (next, rest ++ back, some (.ok token)) := by
        rw [next?_append, taken]
      exact .token ih longer
  | @part middle next own others rest tokens before taken ih =>
      simp only [List.append_assoc] at ih
      exact .part ih taken
  | @failed middle next between rest tokens error before taken ih =>
      have longer : middle.next? (between ++ back) = (next, [], some (.error error)) := by
        rw [next?_append, taken]
      exact .failed ih longer

theorem left_of_error (takes : Takes lexer bytes reading)
    (broken : reading.error? = some error) : reading.left = [] := by
  cases takes with
  | failed => rfl
  | start => cases broken
  | token => cases broken
  | part => cases broken

/-! ### Moves -/

theorem remainder {source : Bytes} {first : Lexer}
    (takes : Takes first source ⟨lexer, bytes, tokens, none⟩)
    (taken : lexer.next? bytes = (next, rest, none)) :
    Takes first source ⟨next, [], tokens, none⟩ := by
  rw [← List.append_nil bytes] at takes
  exact .part takes taken

theorem pull {source : Bytes} {latest : List Token} {first : Lexer}
    (takes : Takes first source ⟨lexer, bytes, latest.reverse, none⟩) (limit : Nat) :
    match Lexer.pull limit lexer bytes latest with
    | (next, rest, more, none) => Takes first source ⟨next, rest, more.reverse, none⟩ ∧
      (rest = [] ∨ more.length = latest.length + limit)
    | (next, _, more, some error) =>
      Takes first source ⟨next, [], more.reverse, some error⟩ := by
  induction limit generalizing lexer bytes latest with
  | zero => exact ⟨takes, Or.inr rfl⟩
  | succ limit ih =>
      rw [Lexer.pull]
      rcases taken : lexer.next? bytes with ⟨next, rest, _ | error | token⟩
      · obtain ⟨rfl, -⟩ := next?_none taken
        exact ⟨takes.remainder taken, Or.inl rfl⟩
      · exact .failed takes taken
      · have further : Takes first source ⟨next, rest, (token :: latest).reverse, none⟩ := by
          rw [List.reverse_cons]
          exact .token takes taken
        have pulled := ih further
        simp only
        generalize Lexer.pull limit next rest (token :: latest) = result at pulled ⊢
        rcases result with ⟨last, left, more, _ | error⟩
        · obtain ⟨all, ends⟩ := pulled
          rw [List.length_cons] at ends
          exact ⟨all, ends.imp_right fun count => by omega⟩
        · exact pulled

end Takes

/-- What bounds the moves that bytes can take: two for each byte, and one for a token under way. -/
def effort (lexer : Lexer) (bytes : Bytes) : Nat :=
  2 * bytes.length + if lexer.pending = none then 0 else 1

theorem effort_token (taken : lexer.next? bytes = (next, rest, some (.ok token))) :
    next.effort rest < lexer.effort bytes := by
  obtain ⟨own, rfl, -, idle, under⟩ := next?_token taken
  unfold effort
  rw [if_pos idle, List.length_append]
  rcases own with _ | ⟨byte, others⟩
  · rw [if_neg (under rfl), List.length_nil]
    omega
  · rw [List.length_cons]
    omega

theorem Takes.push {source : Bytes} {tokens : List Token} {first : Lexer}
    (takes : Takes first source ⟨lexer, bytes, tokens, none⟩) (refuses : List Token → Bool) :
    match Lexer.push (keep refuses) Stop.lexical lexer tokens bytes with
    | (next, tokens, none) => Takes first source ⟨next, [], tokens, none⟩
    | (next, tokens, some (.lexical error)) => Takes first source ⟨next, [], tokens, some error⟩
    | (next, tokens, some .refused) => tokens ≠ [] ∧ refuses tokens = true ∧
      ∃ rest, Takes first source ⟨next, rest, tokens, none⟩ := by
  induction bound : lexer.effort bytes using Nat.strongRecOn
    generalizing lexer bytes tokens with
  | ind bound ih =>
      subst bound
      rw [push_next]
      rcases taken : lexer.next? bytes with ⟨next, rest, _ | error | token⟩
      · exact takes.remainder taken
      · exact .failed takes taken
      · have further : Takes first source ⟨next, rest, tokens ++ [token], none⟩ :=
          .token takes taken
        simp only [keep]
        by_cases refused : refuses (tokens ++ [token]) = true
        · rw [if_pos refused]
          exact ⟨List.append_ne_nil_of_right_ne_nil _ (List.cons_ne_nil _ _), refused, rest,
            further⟩
        · rw [if_neg refused]
          exact ih _ (effort_token taken) further rfl

namespace Move

theorem takes (lexer : Lexer) (bytes : Bytes) (move : Move) :
    Takes lexer bytes (move.take lexer bytes) := by
  cases move with
  | push size refuses =>
      have split := List.take_append_drop size bytes
      have fresh : Takes lexer (bytes.take size) ⟨lexer, bytes.take size, [], none⟩ := .start
      have pushed := fresh.push refuses
      unfold take
      simp only
      generalize Lexer.push (keep refuses) Stop.lexical lexer [] (bytes.take size) = result
        at pushed ⊢
      rcases result with ⟨next, tokens, _ | _ | error⟩
      · have whole := pushed.extend (bytes.drop size)
        simp only [split] at whole
        exact whole
      · obtain ⟨-, -, rest, pushed⟩ := pushed
        obtain ⟨own, chunk, position⟩ := pushed.taken rfl
        have whole := pushed.extend (bytes.drop size)
        have left : bytes.drop (next.position - lexer.position) = rest ++ bytes.drop size :=
          calc
            bytes.drop (next.position - lexer.position) = bytes.drop own.length :=
              congrArg bytes.drop (Nat.sub_eq_of_eq_add' position)
            _ = (bytes.take size ++ bytes.drop size).drop own.length := by rw [split]
            _ = rest ++ bytes.drop size := by rw [chunk, List.append_assoc, List.drop_left]
        simp only [split] at whole
        simp only [left]
        exact whole
      · have whole := pushed.extend (bytes.drop size)
        simp only [split] at whole
        exact whole
  | pull size limit =>
      have split := List.take_append_drop size bytes
      have fresh : Takes lexer (bytes.take size) ⟨lexer, bytes.take size, [].reverse, none⟩ :=
        .start
      have pulled := fresh.pull limit
      unfold take
      simp only
      generalize Lexer.pull limit lexer (bytes.take size) [] = result at pulled ⊢
      rcases result with ⟨next, rest, latest, _ | error⟩
      · obtain ⟨pulled, -⟩ := pulled
        obtain ⟨own, chunk, -⟩ := pulled.taken rfl
        have whole := pulled.extend (bytes.drop size)
        have left : (bytes.take size).drop ((bytes.take size).length - rest.length) = rest := by
          simp only at chunk
          rw [chunk, List.length_append, Nat.add_sub_cancel, List.drop_left]
        simp only [split] at whole
        simp only [left]
        exact whole
      · have whole := pulled.extend (bytes.drop size)
        simp only [split] at whole
        exact whole

theorem progress {move : Move} (proper : move.Proper) (some : bytes ≠ [])
    (unbroken : (move.take lexer bytes).error? = none) :
    (move.take lexer bytes).tokens ≠ [] ∨ (move.take lexer bytes).left.length < bytes.length := by
  have nonempty := List.length_pos_iff.mpr some
  cases move with
  | push size refuses =>
      have positive : 0 < size := proper
      have fresh : Takes lexer (bytes.take size) ⟨lexer, bytes.take size, [], none⟩ := .start
      have pushed := fresh.push refuses
      revert unbroken
      unfold take
      simp only
      generalize Lexer.push (keep refuses) Stop.lexical lexer [] (bytes.take size) = result
        at pushed ⊢
      rcases result with ⟨next, tokens, _ | _ | error⟩
      · intro _
        refine Or.inr ?_
        simp only [List.length_drop]
        omega
      · exact fun _ => Or.inl pushed.1
      · exact fun broken => nomatch broken
  | pull size limit =>
      obtain ⟨positive, some⟩ : 0 < size ∧ 0 < limit := proper
      have fresh : Takes lexer (bytes.take size) ⟨lexer, bytes.take size, [].reverse, none⟩ :=
        .start
      have pulled := fresh.pull limit
      revert unbroken
      unfold take
      simp only
      generalize Lexer.pull limit lexer (bytes.take size) [] = result at pulled ⊢
      rcases result with ⟨next, rest, latest, _ | error⟩
      · intro _
        rcases pulled.2 with rfl | count
        · refine Or.inr ?_
          simp only [List.length_append, List.length_drop, List.length_take, List.length_nil]
          omega
        · refine Or.inl fun none => ?_
          rw [List.reverse_eq_nil_iff.mp none, List.length_nil] at count
          omega
      · exact fun broken => nomatch broken

end Move

/-! ### Runs of moves -/

theorem Takes.lessens {reading : Reading} (takes : Takes lexer bytes reading)
    (unbroken : reading.error? = none) :
    reading.lexer.effort reading.left + reading.tokens.length ≤ lexer.effort bytes := by
  induction takes with
  | start => exact Nat.le_refl _
  | token before taken ih =>
      have so_far := ih rfl
      have less := effort_token taken
      simp only at so_far
      simp only [List.length_append, List.length_singleton]
      omega
  | @part middle next front back rest tokens before taken ih =>
      refine Nat.le_trans (Nat.add_le_add_right ?_ _) (ih rfl)
      simp only [effort, List.length_append]
      cases front with
      | nil =>
          cases taken
          exact Nat.le_of_eq (by rw [List.length_nil, Nat.zero_add])
      | cons byte others =>
          rw [List.length_cons]
          split <;> split <;> omega
  | failed => cases unbroken

theorem Move.lessens {move : Move} (proper : move.Proper) (some : bytes ≠ [])
    (unbroken : (move.take lexer bytes).error? = none) :
    (move.take lexer bytes).lexer.effort (move.take lexer bytes).left < lexer.effort bytes := by
  have bound := (move.takes lexer bytes).lessens unbroken
  rcases Move.progress proper some unbroken with tokens | fewer
  · have count := List.length_pos_iff.mpr tokens
    omega
  · unfold effort
    split <;> split <;> omega

theorem Takes.trans {first second : Reading} (takes : Takes lexer bytes first)
    (unbroken : first.error? = none) (further : Takes first.lexer first.left second) :
    Takes lexer bytes (second.behind first.tokens) := by
  obtain ⟨middle, left, tokens, error?⟩ := first
  obtain rfl : error? = none := unbroken
  induction further with
  | start =>
      rw [Reading.behind, List.append_nil]
      exact takes
  | token before taken ih =>
      rw [Reading.behind, ← List.append_assoc]
      exact .token ih taken
  | part before taken ih => exact .part ih taken
  | failed before taken ih => exact .failed ih taken

theorem consume_takes (lexer : Lexer) (moves : List Move) (bytes : Bytes) :
    Takes lexer bytes (lexer.consume moves bytes) := by
  induction moves generalizing lexer bytes with
  | nil => exact .start
  | cons move rest ih =>
      have taken := move.takes lexer bytes
      rw [consume]
      cases unbroken : (move.take lexer bytes).error? with
      | some error => exact taken
      | none => exact taken.trans unbroken (ih _ _)

theorem consume_nil (lexer : Lexer) (moves : List Move) :
    (lexer.consume moves []).left = [] := by
  have taken := consume_takes lexer moves []
  cases unbroken : (lexer.consume moves []).error? with
  | none =>
      obtain ⟨own, split, -⟩ := taken.taken unbroken
      exact (List.append_eq_nil_iff.mp split.symm).2
  | some error => exact taken.left_of_error unbroken

/-- Proper moves come to the end, or to an error, within the effort that the bytes take. -/
theorem consume_ends {moves : List Move} (proper : ∀ move ∈ moves, move.Proper)
    (enough : lexer.effort bytes ≤ moves.length + 1) : (lexer.consume moves bytes).left = [] := by
  induction moves generalizing lexer bytes with
  | nil =>
      unfold effort at enough
      rw [List.length_nil] at enough
      have none : bytes = [] := List.length_eq_zero_iff.mp (by omega)
      exact none
  | cons move rest ih =>
      obtain ⟨own, others⟩ := List.forall_mem_cons.mp proper
      by_cases none : bytes = []
      · rw [none]
        exact lexer.consume_nil (move :: rest)
      rw [consume]
      cases unbroken : (move.take lexer bytes).error? with
      | some error => exact (move.takes lexer bytes).left_of_error unbroken
      | none =>
          have less := Move.lessens own none unbroken
          rw [List.length_cons] at enough
          exact ih others (by omega)

/-- However a client takes some bytes, and whatever the lexer stands at: pushed in chunks of any
size, with handlers that refuse any token, or pulled a few tokens at a time. Once no byte is left
there are the tokens, the first error and the lexer, its position, its token under way and its cache
included, that one push of all the bytes comes to. Until an error the position moves on by the bytes
that were taken, and proper moves get to the end. -/
theorem consume_pushed (lexer : Lexer) (bytes : Bytes) (moves : List Move) :
    let reading := lexer.consume moves bytes
    (reading.left = [] → reading = lexer.pushed bytes) ∧
      (reading.error? = none → ∃ own, bytes = own ++ reading.left ∧
        reading.lexer.position = lexer.position + own.length) ∧
      ((∀ move ∈ moves, move.Proper) → 2 * bytes.length ≤ moves.length → reading.left = []) := by
  intro reading
  have takes : Takes lexer bytes reading := consume_takes lexer moves bytes
  refine ⟨fun ended => ?_, takes.taken, fun proper enough => consume_ends proper ?_⟩
  · have same := takes.pushed
    cases unbroken : reading.error? with
    | some error =>
        rw [unbroken] at same
        exact same.symm
    | none =>
        rw [unbroken, ended, pushed_nil] at same
        refine Eq.trans ?_ same.symm
        simp only [Reading.behind, List.append_nil, ← ended, ← unbroken]
  · unfold effort
    split <;> omega

set_option maxRecDepth 20000 in
/-- The first chunk ends inside the number. A refused push hands out the number, and the comma that
shows its end stays. -/
theorem consume_pushed_number :
    let lexer := Lexer.new (StringCache.new 1 8)
    let bytes : Bytes := [0x5B, 0x31, 0x32, 0x2C, 0x22, 0x61, 0x22]
    let moves := .push 2 (fun _ => false) :: .push 9 (fun tokens => tokens.length == 1) ::
      List.replicate 12 (.pull 9 1)
    let reading := lexer.consume moves bytes
    reading.left = [] ∧ reading = lexer.pushed bytes ∧ reading.lexer.position = 7 ∧
      (reading.tokens.map (·.kind) = [.openArray, .number (.unsigned 12), .comma, .string "a"]) ∧
      (lexer.consume (moves.take 2) bytes).left = [0x2C, 0x22, 0x61, 0x22] := by
  intro lexer bytes moves reading
  obtain ⟨whole, position, ends⟩ := consume_pushed lexer bytes moves
  have proper : ∀ move ∈ moves, move.Proper := by
    refine List.forall_mem_cons.mpr ⟨Nat.succ_pos 1, List.forall_mem_cons.mpr
      ⟨Nat.succ_pos 8, fun move member => ?_⟩⟩
    rw [List.eq_of_mem_replicate member]
    exact ⟨Nat.succ_pos 8, Nat.succ_pos 0⟩
  have left := ends proper (Nat.le_refl _)
  obtain ⟨own, split, moved⟩ := position (by decide)
  have all : own = bytes := by
    rw [split, left, List.append_nil]
  refine ⟨left, whole left, ?_, by decide, by decide⟩
  rw [moved, all]
  rfl

end JsonProjection.Lexer

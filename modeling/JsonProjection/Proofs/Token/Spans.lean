import JsonProjection.Proofs.Token.Scan

/-!
Where the tokens of a source stand.

Tokens follow each other without overlap, none is empty, and what the lexer has under way starts
behind all of them. `Advance` is all that a stretch of bytes does to the offsets of a lexer.
-/

namespace JsonProjection

/-! ### Tokens in order -/

/-- Tokens that follow each other between two offsets, each at least one byte long. -/
def Token.Chain : Nat → List Token → Nat → Prop
  | first, [], last => first ≤ last
  | first, token :: rest, last =>
    first ≤ token.span.start ∧ token.span.start < token.span.stop ∧
      Token.Chain token.span.stop rest last

namespace Token

theorem Chain.le {first last : Nat} {tokens : List Token} (chain : Chain first tokens last) :
    first ≤ last := by
  induction tokens generalizing first with
  | nil => exact chain
  | cons token rest ih =>
      obtain ⟨before, proper, behind⟩ := chain
      have := ih behind
      omega

theorem Chain.append {first middle last : Nat} {left right : List Token}
    (chain : Chain first left middle) (behind : Chain middle right last) :
    Chain first (left ++ right) last := by
  induction left generalizing first with
  | nil =>
      cases right with
      | nil => exact Nat.le_trans chain behind
      | cons token rest =>
          exact ⟨Nat.le_trans chain behind.1, behind.2⟩
  | cons token rest ih => exact ⟨chain.1, chain.2.1, ih chain.2.2⟩

theorem Chain.weaken {first last wider : Nat} {tokens : List Token}
    (chain : Chain first tokens last) (le : last ≤ wider) : Chain first tokens wider := by
  have behind : Token.Chain last [] wider := le
  simpa only [List.append_nil] using chain.append behind

theorem Chain.mem {first last : Nat} {tokens : List Token} (chain : Chain first tokens last)
    {token : Token} (member : token ∈ tokens) :
    first ≤ token.span.start ∧ token.span.start < token.span.stop ∧ token.span.stop ≤ last := by
  induction tokens generalizing first with
  | nil => cases member
  | cons head rest ih =>
      obtain ⟨before, proper, behind⟩ := chain
      have bound := behind.le
      rcases List.mem_cons.mp member with same | later
      · subst head
        exact ⟨before, proper, bound⟩
      · have := ih behind later
        omega

theorem Chain.pairwise {first last : Nat} {tokens : List Token}
    (chain : Chain first tokens last) :
    tokens.Pairwise (fun left right => left.span.stop ≤ right.span.start) := by
  induction tokens generalizing first with
  | nil => exact List.Pairwise.nil
  | cons head rest ih =>
      obtain ⟨_, _, behind⟩ := chain
      exact List.pairwise_cons.mpr ⟨fun token member => (behind.mem member).1, ih behind⟩

theorem Chain.split {first last : Nat} {left right : List Token}
    (chain : Chain first (left ++ right) last) :
    ∃ middle, Chain first left middle ∧ Chain middle right last := by
  induction left generalizing first with
  | nil => exact ⟨first, Nat.le_refl first, chain⟩
  | cons token rest ih =>
      obtain ⟨before, proper, behind⟩ := chain
      obtain ⟨middle, front, back⟩ := ih behind
      exact ⟨middle, ⟨before, proper, front⟩, back⟩

def cover (tokens : List Token) : Span :=
  ⟨(tokens.head?.map (·.span.start)).getD 0, (tokens.getLast?.map (·.span.stop)).getD 0⟩

theorem cover_of_ends {tokens : List Token} {first last : Token}
    (head : tokens.head? = some first) (final : tokens.getLast? = some last) :
    cover tokens = ⟨first.span.start, last.span.stop⟩ := by
  unfold cover
  rw [head, final]
  rfl

theorem cover_cons_append (first last : Token) (front : List Token) :
    cover (first :: (front ++ [last])) = ⟨first.span.start, last.span.stop⟩ :=
  cover_of_ends rfl (List.getLast?_concat (l := first :: front))

theorem Chain.cover {first last : Nat} {tokens : List Token} (chain : Chain first tokens last)
    (some : tokens ≠ []) :
    first ≤ (cover tokens).start ∧ (cover tokens).start < (cover tokens).stop ∧
      (cover tokens).stop ≤ last := by
  obtain ⟨head, rest, rfl⟩ := List.exists_cons_of_ne_nil some
  have final := List.getLast?_eq_some_getLast some
  have bound := chain.mem (List.getLast_mem some)
  rw [cover_of_ends rfl final]
  -- The last token is the first one, or starts behind its end.
  have ordered : head.span.start < ((head :: rest).getLast some).span.stop := by
    rcases List.mem_cons.mp (List.getLast_mem some) with same | behind
    · rw [same]
      exact chain.2.1
    · have later := chain.2.2.mem behind
      have proper := chain.2.1
      omega
  exact ⟨chain.1, ordered, bound.2.2⟩

theorem cover_mem {tokens : List Token} (some : tokens ≠ []) :
    ∃ first ∈ tokens, ∃ last ∈ tokens, cover tokens = ⟨first.span.start, last.span.stop⟩ := by
  obtain ⟨head, rest, rfl⟩ := List.exists_cons_of_ne_nil some
  exact ⟨head, List.mem_cons_self, (head :: rest).getLast some, List.getLast_mem some,
    cover_of_ends rfl (List.getLast?_eq_some_getLast some)⟩

/-- The tokens up to the end of some of them are those that end no later. -/
theorem Chain.upTo {first last : Nat} {front own back : List Token}
    (chain : Chain first (front ++ (own ++ back)) last) (some : own ≠ []) :
    (front ++ (own ++ back)).filter
        (fun token => decide (token.span.stop ≤ (Token.cover own).stop)) = front ++ own := by
  have final := List.getLast?_eq_some_getLast some
  have split : own.dropLast ++ [own.getLast some] = own := List.dropLast_concat_getLast some
  obtain ⟨head, rest, own_eq⟩ := List.exists_cons_of_ne_nil some
  have start : own.head? = Option.some head := by
    rw [own_eq]
    rfl
  rw [cover_of_ends start final]
  rw [← split, List.append_assoc, ← List.append_assoc] at chain
  obtain ⟨before, lead, further⟩ := chain.split
  -- What stands in front of the last token ends before it, and the rest ends behind it.
  have kept : (front ++ own).filter
      (fun token => decide (token.span.stop ≤ (own.getLast some).span.stop)) = front ++ own := by
    rw [List.filter_eq_self]
    intro token member
    rw [decide_eq_true_iff]
    rw [← split, ← List.append_assoc] at member
    rcases List.mem_append.mp member with early | same
    · have bounds := lead.mem early
      have begins := further.1
      have proper := further.2.1
      omega
    · exact Nat.le_of_eq (congrArg (·.span.stop) (List.mem_singleton.mp same))
  have dropped : back.filter
      (fun token => decide (token.span.stop ≤ (own.getLast some).span.stop)) = [] := by
    rw [List.filter_eq_nil_iff]
    intro token member
    rw [decide_eq_true_iff]
    have bounds := further.2.2.mem member
    omega
  rw [← List.append_assoc, List.filter_append, kept, dropped, List.append_nil]

end Token

namespace Lexer

/-! ### The offsets of a lexer -/

/-- A token under way has its first byte behind it. -/
def Sound (lexer : Lexer) : Prop :=
  ∀ start, lexer.pendingStart? = some start → start < lexer.position

/-- Where the first byte stands that may still belong to a token to come. -/
def edge (lexer : Lexer) : Nat :=
  lexer.pendingStart?.getD lexer.position

theorem sound_new (cache : StringCache) : (new cache).Sound := by
  intro start impossible
  cases impossible

theorem sound_reset (lexer : Lexer) : lexer.reset.Sound := by
  intro start impossible
  cases impossible

theorem edge_le_position {lexer : Lexer} (sound : lexer.Sound) : lexer.edge ≤ lexer.position := by
  unfold edge
  cases pending : lexer.pendingStart? with
  | none => exact Nat.le_refl _
  | some start => exact Nat.le_of_lt (sound start pending)

/-- How a lexer moves on over `length` bytes that complete some tokens. A token under way is the
first of them, unless it stays under way. -/
structure Advance (lexer : Lexer) (tokens : List Token) (next : Lexer) (length : Nat) : Prop where
  position : next.position = lexer.position + length
  sound : next.Sound
  chain : Token.Chain lexer.edge tokens next.edge
  behind : ∀ token ∈ tokens, lexer.position ≤ token.span.stop
  inner : ∀ token ∈ tokens, token.kind ≠ .endOfInput
  stays : ∀ start, lexer.pendingStart? = some start → tokens = [] →
    next.pendingStart? = some start
  starts : ∀ start, lexer.pendingStart? = some start →
    ∀ token ∈ tokens.head?, token.span.start = start

theorem Advance.refl {lexer : Lexer} (sound : lexer.Sound) : lexer.Advance [] lexer 0 :=
  ⟨rfl, sound, Nat.le_refl _, by simp, by simp, fun _ same _ => same, by simp⟩

theorem Advance.trans {lexer middle last : Lexer} {left right : List Token} {first second : Nat}
    (one : lexer.Advance left middle first) (two : middle.Advance right last second) :
    lexer.Advance (left ++ right) last (first + second) := by
  refine ⟨?_, two.sound, one.chain.append two.chain, ?_, ?_, ?_, ?_⟩
  · rw [two.position, one.position]
    omega
  · intro token member
    rcases List.mem_append.mp member with inLeft | inRight
    · exact one.behind token inLeft
    · have bound := two.behind token inRight
      rw [one.position] at bound
      omega
  · intro token member
    exact (List.mem_append.mp member).elim (one.inner token) (two.inner token)
  · intro start pending none
    obtain ⟨noLeft, noRight⟩ := List.append_eq_nil_iff.mp none
    exact two.stays start (one.stays start pending noLeft) noRight
  · intro start pending token head
    cases left with
    | nil => exact two.starts start (one.stays start pending rfl) token head
    | cons other rest => exact one.starts start pending token head

theorem step_pending {lexer : Lexer} {pending : Pending} (under : lexer.pending = some pending)
    (byte : UInt8) :
    match lexer.step byte with
    | (next, .nothing) =>
      next.position = lexer.position + 1 ∧ next.pendingStart? = some pending.start
    | (next, .completes token) =>
      next.position = lexer.position + 1 ∧ next.pending = none ∧
        token.span = ⟨pending.start, lexer.position + 1⟩ ∧ token.kind.scalar?.isSome = true
    | (next, .precedes token) =>
      next.position = lexer.position ∧ next.pending = none ∧
        token.span = ⟨pending.start, lexer.position⟩ ∧ token.kind.scalar?.isSome = true
    | (next, .fails _) =>
      (next.position = lexer.position ∨ next.position = lexer.position + 1) ∧
        next.pendingStart? = some pending.start := by
  unfold step
  rw [under]
  rcases pending with ⟨shape, start, latest⟩
  cases shape with
  | string escaped =>
      cases escaped with
      | true => exact ⟨rfl, rfl⟩
      | false =>
          by_cases quote : byte == 0x22
          · simp only [if_pos quote]
            exact ⟨trivial, trivial, rfl, rfl⟩
          · by_cases backslash : byte == 0x5C
            · simp only [quote, backslash, if_true]
              exact ⟨rfl, rfl⟩
            · simp only [quote, backslash]
              exact ⟨rfl, rfl⟩
  | number =>
      by_cases inside : isNumberByte byte
      · simp only [inside, if_true]
        exact ⟨rfl, rfl⟩
      · rcases read : Pending.numeral ⟨.number, start, latest⟩ with error | value
        · simp only [inside, read]
          exact ⟨Or.inl rfl, by simp only [pendingStart?, under, Option.map_some]⟩
        · simp only [inside, read]
          exact ⟨rfl, rfl, rfl, rfl⟩
  | literal word =>
      simp only
      by_cases short : (byte :: latest).length < word.bytes.length
      · simp only [short, if_true]
        exact ⟨rfl, rfl⟩
      · by_cases spelled : (byte :: latest).reverse = word.bytes
        · simp only [short, spelled, if_true, if_false]
          exact ⟨rfl, trivial, trivial, by cases word <;> rfl⟩
        · simp only [short, spelled, if_false]
          exact ⟨Or.inr rfl, rfl⟩

theorem step_idle {lexer : Lexer} (idle : lexer.pending = none) (byte : UInt8) :
    lexer.step byte = lexer.startToken byte := by
  simp only [step, idle]

theorem step_goes (lexer : Lexer) (byte : UInt8) :
    match lexer.step byte with
    | (next, .nothing) => next.position = lexer.position + 1
    | (next, .completes _) => next.position = lexer.position + 1 ∧ next.pending = none
    | (next, .precedes _) =>
      next.position = lexer.position ∧ lexer.pending ≠ none ∧ next.pending = none
    | (_, .fails _) => True := by
  cases under : lexer.pending with
  | none =>
      rw [step_idle under, startToken_eq]
      cases Lead.of byte with
      | mark kind => exact ⟨rfl, under⟩
      | begin shape bytes => exact rfl
      | ignored => exact rfl
  | some pending =>
      have stepped := step_pending under byte
      generalize lexer.step byte = result at stepped ⊢
      rcases result with ⟨next, _ | token | token | error⟩
      · exact stepped.1
      · exact ⟨stepped.1, stepped.2.1⟩
      · exact ⟨stepped.1, Option.some_ne_none pending, stepped.2.1⟩
      · trivial

theorem Lead.of_ne (byte : UInt8) : Lead.of byte ≠ .mark .endOfInput := by
  unfold Lead.of
  simp only [apply_ite (fun lead => lead ≠ Lead.mark .endOfInput), ne_eq, Lead.mark.injEq,
    reduceCtorEq, not_false_eq_true, ite_self]

theorem scalar?_endOfInput {kind : Token.Kind} (scalar : kind.scalar?.isSome = true) :
    kind ≠ .endOfInput := by
  intro ending
  subst ending
  cases scalar

theorem startToken_advance {lexer : Lexer} (idle : lexer.pending = none) (byte : UInt8) :
    match lexer.startToken byte with
    | (next, .completes token) => lexer.Advance [token] next 1
    | (next, _) => lexer.Advance [] next 1 := by
  have edge : lexer.edge = lexer.position := by
    simp only [Lexer.edge, pendingStart?, idle, Option.map_none, Option.getD_none]
  have noStart : lexer.pendingStart? = none := by
    simp only [pendingStart?, idle, Option.map_none]
  rw [startToken_eq]
  cases lead : Lead.of byte with
  | mark kind =>
      refine ⟨rfl, ?_, ?_, ?_, ?_, ?_, ?_⟩
      · intro start pending
        exact absurd (noStart.symm.trans pending) (by simp)
      · simp only [Token.Chain, edge]
        refine ⟨Nat.le_refl _, Nat.lt_succ_self _, ?_⟩
        simp only [Lexer.edge, pendingStart?, idle, Option.map_none, Option.getD_none]
        exact Nat.le_refl _
      · intro token member
        cases List.mem_singleton.mp member
        exact Nat.le_succ _
      · intro token member
        cases List.mem_singleton.mp member
        exact fun ending => Lead.of_ne byte (lead.trans (congrArg Lead.mark ending))
      · intro start pending
        exact absurd (noStart.symm.trans pending) (by simp)
      · intro start pending
        exact absurd (noStart.symm.trans pending) (by simp)
  | begin shape bytes =>
      refine ⟨rfl, ?_, ?_, by simp, by simp, ?_, by simp⟩
      · intro start pending
        cases pending
        exact Nat.lt_succ_self _
      · simp only [Token.Chain, edge]
        exact Nat.le_refl _
      · intro start pending
        exact absurd (noStart.symm.trans pending) (by simp)
  | ignored =>
      refine ⟨rfl, ?_, ?_, by simp, by simp, ?_, by simp⟩
      · intro start pending
        exact absurd (noStart.symm.trans pending) (by simp)
      · simp only [Token.Chain, edge]
        simp only [Lexer.edge, pendingStart?, idle, Option.map_none, Option.getD_none]
        exact Nat.le_succ _
      · intro start pending
        exact absurd (noStart.symm.trans pending) (by simp)

private theorem Advance.of_token {lexer next : Lexer} {pending : Pending}
    (sound : lexer.Sound) (under : lexer.pending = some pending) {token : Token} {length : Nat}
    (position : next.position = lexer.position + length) (idle : next.pending = none)
    (span : token.span = ⟨pending.start, lexer.position + length⟩)
    (scalar : token.kind.scalar?.isSome = true) : lexer.Advance [token] next length := by
  have startEq : lexer.pendingStart? = some pending.start := by
    simp only [pendingStart?, under, Option.map_some]
  have before : pending.start < lexer.position := sound pending.start startEq
  have edge : lexer.edge = pending.start := by
    simp only [Lexer.edge, startEq, Option.getD_some]
  have nextStart : next.pendingStart? = none := by
    simp only [pendingStart?, idle, Option.map_none]
  have nextEdge : next.edge = lexer.position + length := by
    simp only [Lexer.edge, nextStart, Option.getD_none, position]
  refine ⟨position, ?_, ?_, ?_, ?_, by simp, ?_⟩
  · intro start isStart
    exact absurd (nextStart.symm.trans isStart) (by simp)
  · simp only [Token.Chain, edge, nextEdge, span]
    omega
  · intro other member
    cases List.mem_singleton.mp member
    simp only [span]
    omega
  · intro other member
    cases List.mem_singleton.mp member
    exact scalar?_endOfInput scalar
  · intro start isStart other head
    cases Option.some.inj head
    rw [span]
    exact Option.some.inj (startEq.symm.trans isStart)

private theorem takeByte_advance_pending {lexer next : Lexer} {pending : Pending}
    (sound : lexer.Sound) (under : lexer.pending = some pending) {byte : UInt8}
    {tokens : List Token} (taken : lexer.takeByte byte = (tokens, .ok next)) :
    lexer.Advance tokens next 1 := by
  have stepped := step_pending under byte
  unfold takeByte at taken
  rcases stepEq : lexer.step byte with ⟨middle, outcome⟩
  rw [stepEq] at taken stepped
  cases outcome with
  | fails error => cases taken
  | nothing =>
      cases taken
      obtain ⟨position, stays⟩ := stepped
      have startEq : lexer.pendingStart? = some pending.start := by
        simp only [pendingStart?, under, Option.map_some]
      have before : pending.start < lexer.position := sound pending.start startEq
      have edge : next.edge = lexer.edge := by
        simp only [Lexer.edge, stays, startEq, Option.getD_some]
      refine ⟨position, ?_, Nat.le_of_eq edge.symm, by simp, by simp, ?_, by simp⟩
      · intro start isStart
        have same : pending.start = start := Option.some.inj (stays.symm.trans isStart)
        omega
      · intro start isStart _
        rw [stays, ← startEq, isStart]
  | completes token =>
      cases taken
      obtain ⟨position, idle, span, scalar⟩ := stepped
      exact Advance.of_token sound under position idle span scalar
  | precedes token =>
      -- The number ends in front of the byte, which then starts a token of its own.
      obtain ⟨position, idle, span, scalar⟩ := stepped
      have number : lexer.Advance [token] middle 0 :=
        Advance.of_token sound under position idle span scalar
      have started := startToken_advance idle byte
      simp only at taken
      rcases begun : middle.startToken byte with ⟨last, outcome⟩
      rw [begun] at taken started
      cases outcome <;> cases taken <;> simpa using number.trans started

theorem takeByte_advance {lexer next : Lexer} (sound : lexer.Sound) {byte : UInt8}
    {tokens : List Token} (taken : lexer.takeByte byte = (tokens, .ok next)) :
    lexer.Advance tokens next 1 := by
  cases under : lexer.pending with
  | some pending => exact takeByte_advance_pending sound under taken
  | none =>
      have started := startToken_advance under byte
      unfold takeByte at taken
      have stepEq : lexer.step byte = lexer.startToken byte := by
        simp only [step, under]
      rw [stepEq] at taken
      rw [startToken_eq] at taken started
      cases lead : Lead.of byte <;> rw [lead] at taken started <;> cases taken <;> exact started

theorem takeByte_error {lexer : Lexer} {byte : UInt8} {tokens : List Token} {error : LexError}
    (taken : lexer.takeByte byte = (tokens, .error error)) : tokens = [] := by
  unfold takeByte at taken
  rcases stepEq : lexer.step byte with ⟨middle, outcome⟩
  rw [stepEq] at taken
  cases outcome with
  | fails reason =>
      cases taken
      rfl
  | nothing => cases taken
  | completes token => cases taken
  | precedes token =>
      simp only at taken
      rcases begun : middle.startToken byte with ⟨last, outcome⟩
      rw [begun] at taken
      cases outcome <;> cases taken

theorem scan_advance {lexer next : Lexer} (sound : lexer.Sound) {bytes : Bytes}
    {tokens : List Token} (scanned : lexer.scan bytes = (tokens, .ok next)) :
    lexer.Advance tokens next bytes.length := by
  induction bytes generalizing lexer tokens with
  | nil =>
      cases scanned
      exact Advance.refl sound
  | cons byte rest ih =>
      rcases taken : lexer.takeByte byte with ⟨own, error | middle⟩
      · rw [scan_cons_error taken] at scanned
        cases scanned
      · rw [scan_cons_ok taken] at scanned
        rcases behind : middle.scan rest with ⟨more, outcome⟩
        rw [behind] at scanned
        cases scanned
        have one := takeByte_advance sound taken
        have all := one.trans (ih one.sound behind)
        rw [List.length_cons, Nat.add_comm]
        exact all

theorem scan_error {lexer : Lexer} {bytes : Bytes} {tokens : List Token} {error : LexError}
    (scanned : lexer.scan bytes = (tokens, .error error)) :
    ∃ taken byte rest next, bytes = taken ++ byte :: rest ∧
      lexer.scan taken = (tokens, .ok next) ∧ next.takeByte byte = ([], .error error) := by
  induction bytes generalizing lexer tokens with
  | nil => cases scanned
  | cons byte rest ih =>
      rcases taken : lexer.takeByte byte with ⟨own, reason | middle⟩
      · have none := takeByte_error taken
        subst none
        rw [scan_cons_error taken] at scanned
        cases scanned
        exact ⟨[], byte, rest, lexer, rfl, rfl, taken⟩
      · rw [scan_cons_ok taken] at scanned
        rcases behind : middle.scan rest with ⟨more, outcome⟩
        rw [behind] at scanned
        cases scanned
        obtain ⟨front, last, others, next, split, scannedFront, failed⟩ := ih behind
        refine ⟨byte :: front, last, others, next, ?_, ?_, failed⟩
        · rw [split]
          rfl
        · rw [scan_cons_ok taken, scannedFront]

theorem flush_inner (lexer : Lexer) : ∀ token ∈ lexer.flush.1, token.kind ≠ .endOfInput := by
  intro token member
  unfold flush at member
  cases under : lexer.pending with
  | none =>
      rw [under] at member
      cases member
  | some pending =>
      rw [under] at member
      rcases pending with ⟨shape, start, latest⟩
      cases shape with
      | string escaped => cases member
      | literal word => cases member
      | number =>
          simp only at member
          split at member
          · cases member
          · cases List.mem_singleton.mp member
            exact scalar?_endOfInput rfl

theorem flush_starts (lexer : Lexer) : ∀ token ∈ lexer.flush.1,
    lexer.pendingStart? = some token.span.start ∧ token.span.stop = lexer.position := by
  intro token member
  unfold flush at member
  cases under : lexer.pending with
  | none =>
      rw [under] at member
      cases member
  | some pending =>
      rw [under] at member
      rcases pending with ⟨shape, start, latest⟩
      cases shape with
      | string escaped => cases member
      | literal word => cases member
      | number =>
          simp only at member
          split at member
          · cases member
          · cases List.mem_singleton.mp member
            exact ⟨by simp only [pendingStart?, under, Option.map_some], rfl⟩

theorem flush_chain {lexer : Lexer} (sound : lexer.Sound) :
    Token.Chain lexer.edge lexer.flush.1 lexer.position := by
  unfold flush
  cases under : lexer.pending with
  | none => exact edge_le_position sound
  | some pending =>
      have startEq : lexer.pendingStart? = some pending.start := by
        simp only [pendingStart?, under, Option.map_some]
      have before : pending.start < lexer.position := sound pending.start startEq
      have edge : lexer.edge = pending.start := by
        simp only [Lexer.edge, startEq, Option.getD_some]
      rcases pending with ⟨shape, start, latest⟩
      cases shape with
      | string escaped => exact edge_le_position sound
      | literal word => exact edge_le_position sound
      | number =>
          simp only
          cases Pending.numeral ⟨.number, start, latest⟩ with
          | error error => exact edge_le_position sound
          | ok value =>
              simp only at before edge
              simp only [Token.Chain, edge]
              omega

/-! ### Single steps, errors included -/

theorem startToken_moves {lexer : Lexer} (sound : lexer.Sound) (byte : UInt8) :
    match lexer.startToken byte with
    | (next, .completes token) =>
      next.position = lexer.position + 1 ∧ next.Sound ∧
        token.span = ⟨lexer.position, lexer.position + 1⟩
    | (next, _) => next.position = lexer.position + 1 ∧ next.Sound := by
  rw [startToken_eq]
  cases Lead.of byte with
  | mark kind =>
      refine ⟨rfl, ?_, rfl⟩
      intro start pending
      exact Nat.lt_succ_of_lt (sound start pending)
  | begin shape bytes =>
      refine ⟨rfl, ?_⟩
      intro start pending
      cases pending
      exact Nat.lt_succ_self _
  | ignored =>
      refine ⟨rfl, ?_⟩
      intro start pending
      exact Nat.lt_succ_of_lt (sound start pending)

theorem step_moves {lexer : Lexer} (sound : lexer.Sound) (byte : UInt8) :
    match lexer.step byte with
    | (next, .nothing) => next.position = lexer.position + 1 ∧ next.Sound
    | (next, .completes token) =>
      next.position = lexer.position + 1 ∧ next.Sound ∧ token.span.start ≤ token.span.stop ∧
        token.span.stop = next.position
    | (next, .precedes token) =>
      next.position = lexer.position ∧ next.Sound ∧ token.span.start ≤ token.span.stop ∧
        token.span.stop = next.position
    | (next, .fails _) =>
      (next.position = lexer.position ∨ next.position = lexer.position + 1) ∧ next.Sound := by
  cases under : lexer.pending with
  | none =>
      have started := startToken_moves sound byte
      have same : lexer.step byte = lexer.startToken byte := by
        simp only [step, under]
      rw [same]
      rw [startToken_eq] at started ⊢
      cases lead : Lead.of byte with
      | mark kind =>
          rw [lead] at started
          exact ⟨started.1, started.2.1, Nat.le_succ _, rfl⟩
      | begin shape bytes =>
          rw [lead] at started
          exact started
      | ignored =>
          rw [lead] at started
          exact started
  | some pending =>
      have startEq : lexer.pendingStart? = some pending.start := by
        simp only [pendingStart?, under, Option.map_some]
      have before : pending.start < lexer.position := sound pending.start startEq
      have stays {next : Lexer} (same : next.pendingStart? = some pending.start)
          (le : lexer.position ≤ next.position) : next.Sound := by
        intro start isStart
        obtain rfl : pending.start = start := Option.some.inj (same.symm.trans isStart)
        exact Nat.lt_of_lt_of_le before le
      have idle {next : Lexer} (none : next.pending = none) : next.Sound := by
        intro start isStart
        simp only [pendingStart?, none] at isStart
        cases isStart
      have stepped := step_pending under byte
      generalize lexer.step byte = result at stepped ⊢
      rcases result with ⟨next, _ | token | token | error⟩
      · obtain ⟨position, same⟩ := stepped
        exact ⟨position, stays same (by omega)⟩
      · obtain ⟨position, none, span, _⟩ := stepped
        simp only [span]
        exact ⟨position, idle none, by omega, position.symm⟩
      · obtain ⟨position, none, span, _⟩ := stepped
        simp only [span]
        exact ⟨position, idle none, by omega, position.symm⟩
      · obtain ⟨position, same⟩ := stepped
        exact ⟨position, stays same (by omega)⟩

theorem edge_of_pending {lexer : Lexer} {pending : Pending}
    (under : lexer.pending = some pending) : lexer.edge = pending.start := by
  simp only [edge, pendingStart?, under, Option.map_some, Option.getD_some]

theorem edge_of_idle {lexer : Lexer} (idle : lexer.pending = none) :
    lexer.edge = lexer.position := by
  simp only [edge, pendingStart?, idle, Option.map_none, Option.getD_none]

theorem step_edge (lexer : Lexer) (byte : UInt8) :
    match lexer.step byte with
    | (next, .nothing) => lexer.edge ≤ next.edge
    | (next, .completes token) =>
      lexer.edge ≤ token.span.start ∧ next.edge = token.span.stop
    | (next, .precedes token) =>
      lexer.edge ≤ token.span.start ∧ next.edge = token.span.stop
    | (next, .fails _) => next.edge = lexer.edge := by
  cases under : lexer.pending with
  | none =>
      rw [step_idle under, startToken_eq, edge_of_idle under]
      cases Lead.of byte with
      | mark kind => exact ⟨Nat.le_refl _, edge_of_idle under⟩
      | begin shape bytes => exact Nat.le_refl lexer.position
      | ignored =>
          have moved : edge { lexer with position := lexer.position + 1 } = lexer.position + 1 :=
            edge_of_idle under
          exact Nat.le_trans (Nat.le_succ _) (Nat.le_of_eq moved.symm)
  | some pending =>
      have stepped := step_pending under byte
      have stays {next : Lexer} (same : next.pendingStart? = some pending.start) :
          next.edge = pending.start := by
        rw [edge, same, Option.getD_some]
      rw [edge_of_pending under]
      generalize lexer.step byte = result at stepped ⊢
      rcases result with ⟨next, _ | token | token | error⟩
      · exact Nat.le_of_eq (stays stepped.2).symm
      · obtain ⟨position, idle, span, _⟩ := stepped
        simp only [span, edge_of_idle idle]
        exact ⟨Nat.le_refl _, position⟩
      · obtain ⟨position, idle, span, _⟩ := stepped
        simp only [span, edge_of_idle idle]
        exact ⟨Nat.le_refl _, position⟩
      · exact stays stepped.2

/-! ### Where an error points -/

end Lexer

def LexError.offset : LexError → Nat
  | .invalidLiteral _ _ offset => offset
  | .invalidNumber _ offset => offset
  | .unterminatedString offset => offset
  | .unterminatedLiteral offset => offset

namespace Lexer

theorem Pending.numeral_offset {pending : Pending} {error : LexError}
    (fails : pending.numeral = .error error) : error.offset = pending.start := by
  unfold Pending.numeral at fails
  split at fails
  · cases fails
  · cases fails
    rfl

theorem step_offset {lexer : Lexer} {byte : UInt8} {error : LexError}
    (failed : (lexer.step byte).2 = .fails error) : lexer.pendingStart? = some error.offset := by
  cases under : lexer.pending with
  | none =>
      rw [step_idle under, startToken_eq] at failed
      cases lead : Lead.of byte <;> rw [lead] at failed <;> cases failed
  | some pending =>
      rw [pendingStart?, under, Option.map_some]
      rcases pending with ⟨shape, start, latest⟩
      simp only [step, under] at failed
      cases shape with
      | string escaped =>
          cases escaped with
          | true => cases failed
          | false =>
              simp only at failed
              split at failed
              · cases failed
              · split at failed <;> cases failed
      | number =>
          simp only at failed
          split at failed
          · cases failed
          · split at failed
            · rename_i reason unread
              cases failed
              exact congrArg some (Pending.numeral_offset unread).symm
            · cases failed
      | literal word =>
          simp only at failed
          split at failed
          · cases failed
          · split at failed
            · cases failed
            · cases failed
              rfl

theorem takeByte_offset {lexer : Lexer} {byte : UInt8} {tokens : List Token} {error : LexError}
    (taken : lexer.takeByte byte = (tokens, .error error)) :
    lexer.pendingStart? = some error.offset := by
  apply step_offset
  unfold takeByte at taken
  rcases stepped : lexer.step byte with ⟨next, _ | token | token | reason⟩
  · rw [stepped] at taken
    cases taken
  · rw [stepped] at taken
    cases taken
  · rw [stepped] at taken
    simp only at taken
    rcases begun : next.startToken byte with ⟨last, outcome⟩
    rw [begun] at taken
    cases outcome <;> cases taken
  · rw [stepped] at taken
    cases taken
    rfl

theorem flush_offset {lexer : Lexer} {error : LexError} (flushed : lexer.flush.2 = some error) :
    lexer.pendingStart? = some error.offset := by
  unfold flush at flushed
  cases under : lexer.pending with
  | none =>
      rw [under] at flushed
      cases flushed
  | some pending =>
      rw [pendingStart?, under, Option.map_some]
      rcases pending with ⟨shape, start, latest⟩
      rw [under] at flushed
      cases shape with
      | string escaped =>
          cases flushed
          rfl
      | literal word =>
          cases flushed
          rfl
      | number =>
          simp only at flushed
          split at flushed
          · rename_i reason unread
            cases flushed
            exact congrArg some (Pending.numeral_offset unread).symm
          · cases flushed

theorem readOn_offset {lexer : Lexer} (sound : lexer.Sound) {bytes : Bytes} {error : LexError}
    (failed : (lexer.readOn bytes).error? = some error) :
    error.offset < lexer.position + bytes.length := by
  unfold readOn at failed
  rcases scanned : lexer.scan bytes with ⟨tokens, reason | next⟩
  · rw [scanned] at failed
    cases failed
    obtain ⟨taken, byte, others, next, split, front, last⟩ := scan_error scanned
    have advance := scan_advance sound front
    have bound := advance.sound error.offset (takeByte_offset last)
    rw [advance.position] at bound
    rw [split, List.length_append]
    omega
  · rw [scanned] at failed
    have advance := scan_advance sound scanned
    have bound := advance.sound error.offset (flush_offset failed)
    rw [advance.position] at bound
    exact bound

/-! ### The tokens of a whole source -/

theorem readOn_inner {lexer : Lexer} (sound : lexer.Sound) (bytes : Bytes) :
    ∀ token ∈ (lexer.readOn bytes).tokens, token.kind ≠ .endOfInput := by
  unfold readOn
  rcases scanned : lexer.scan bytes with ⟨tokens, error | next⟩
  · obtain ⟨_, _, _, _, _, front, _⟩ := scan_error scanned
    exact (scan_advance sound front).inner
  · intro token member
    exact (List.mem_append.mp member).elim ((scan_advance sound scanned).inner token)
      (flush_inner next token)

theorem readOn_chain {lexer : Lexer} (sound : lexer.Sound) (bytes : Bytes) :
    Token.Chain lexer.edge (lexer.readOn bytes).tokens (lexer.position + bytes.length) := by
  unfold readOn
  rcases scanned : lexer.scan bytes with ⟨tokens, error | next⟩
  · obtain ⟨taken, byte, others, next, split, front, _⟩ := scan_error scanned
    have advance := scan_advance sound front
    have last := edge_le_position advance.sound
    refine advance.chain.weaken ?_
    rw [advance.position] at last
    rw [split, List.length_append]
    omega
  · have advance := scan_advance sound scanned
    have flushed := flush_chain advance.sound
    rw [advance.position] at flushed
    exact advance.chain.append flushed

end Lexer

theorem Lexing.inner (source : Bytes) :
    ∀ token ∈ (Lexing.of source).tokens, token.kind ≠ .endOfInput :=
  Lexer.readOn_inner (Lexer.sound_new _) source

theorem Lexing.offset_lt {source : Bytes} {error : LexError}
    (failed : (Lexing.of source).error? = some error) : error.offset < source.length := by
  have bound := Lexer.readOn_offset (Lexer.sound_new (StringCache.new 0 0)) failed
  rwa [show (Lexer.new (StringCache.new 0 0)).position = 0 from rfl, Nat.zero_add] at bound

/-- The tokens of a source follow each other inside it. -/
theorem Lexing.chain (source : Bytes) :
    Token.Chain 0 (Lexing.of source).tokens source.length := by
  have chain := Lexer.readOn_chain (Lexer.sound_new (StringCache.new 0 0)) source
  rw [show (Lexer.new (StringCache.new 0 0)).position = 0 from rfl, Nat.zero_add] at chain
  exact chain

end JsonProjection

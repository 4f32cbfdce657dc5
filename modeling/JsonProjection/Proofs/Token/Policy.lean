import JsonProjection.Proofs.Token.Cache

/-!
What the string cache holds.

A cache is settled by the strings that it was asked for, in order: it holds the first short ones
that differ, as many as it has room for, and counts the look-ups that found one of them. A lexer
asks once for every string, at the quote that ends it, and a new document starts with the cache of
the last one.
-/

namespace JsonProjection

namespace StringCache

def short (lengthBound : Nat) (strings : List Bytes) : List Bytes :=
  (strings.filter fun raw => raw.length < lengthBound).eraseDups

/-- The strings that a cache holds once it was asked for some. -/
def held (capacity lengthBound : Nat) (strings : List Bytes) : List Bytes :=
  (short lengthBound strings).take capacity

/-- The places of the strings that were held already when the cache was asked for them. -/
def repeats (capacity lengthBound : Nat) (strings : List Bytes) : List Nat :=
  (List.range strings.length).filter fun place =>
    strings[place]?.any (· ∈ held capacity lengthBound (strings.take place))

def behind (capacity lengthBound : Nat) (strings : List Bytes) : StringCache where
  capacity := capacity
  lengthBound := lengthBound
  entries := (held capacity lengthBound strings).map fun raw => (raw, Text.Utf8.decodeLossy raw)
  hits := (repeats capacity lengthBound strings).length

theorem new_eq (capacity lengthBound : Nat) :
    new capacity lengthBound = behind capacity lengthBound [] := by
  simp only [new, behind, held, short, List.filter_nil, List.eraseDups_nil, List.take_nil,
    List.map_nil]
  rfl

/-! ### One more string -/

private theorem eraseDups_snoc (strings : List Bytes) (raw : Bytes) :
    (strings ++ [raw]).eraseDups =
      if raw ∈ strings then strings.eraseDups else strings.eraseDups ++ [raw] := by
  rw [List.eraseDups_append, List.removeAll, List.filter_cons, List.filter_nil]
  by_cases known : raw ∈ strings
  · simp only [List.elem_eq_contains, List.contains_iff_mem.mpr known, Bool.not_true,
      Bool.false_eq_true, if_false, known, if_true]
    exact List.append_nil _
  · simp only [List.elem_eq_contains, Bool.not_eq_true', List.contains_eq_mem, known,
      decide_false, if_true, if_false]
    rfl

theorem short_snoc (lengthBound : Nat) (strings : List Bytes) (raw : Bytes) :
    short lengthBound (strings ++ [raw]) =
      if raw.length < lengthBound ∧ raw ∉ short lengthBound strings then
        short lengthBound strings ++ [raw]
      else short lengthBound strings := by
  unfold short
  simp only [List.filter_append, List.filter_cons, List.filter_nil, List.mem_eraseDups]
  by_cases fits : raw.length < lengthBound
  · simp only [fits, decide_true, if_true, eraseDups_snoc, true_and, ite_not]
  · simp only [fits, decide_false, Bool.false_eq_true, if_false, List.append_nil, false_and]

theorem held_snoc (capacity lengthBound : Nat) (strings : List Bytes) (raw : Bytes) :
    held capacity lengthBound (strings ++ [raw]) =
      if raw.length < lengthBound ∧ raw ∉ held capacity lengthBound strings ∧
          (held capacity lengthBound strings).length < capacity then
        held capacity lengthBound strings ++ [raw]
      else held capacity lengthBound strings := by
  unfold held
  rw [short_snoc, List.length_take]
  by_cases room : (short lengthBound strings).length < capacity
  · have all : (short lengthBound strings).take capacity = short lengthBound strings :=
      List.take_of_length_le (Nat.le_of_lt room)
    have roomy : min capacity (short lengthBound strings).length < capacity := by omega
    simp only [all, roomy, and_true]
    by_cases added : raw.length < lengthBound ∧ raw ∉ short lengthBound strings
    · simp only [added, not_false_eq_true, and_self, if_true]
      exact List.take_of_length_le (by rw [List.length_append]; exact room)
    · simp only [added, if_false, all]
  · have filled : ¬ min capacity (short lengthBound strings).length < capacity := by omega
    simp only [filled, and_false, if_false]
    split
    · exact List.take_append_of_le_length (Nat.le_of_not_lt room)
    · rfl

theorem repeats_snoc (capacity lengthBound : Nat) (strings : List Bytes) (raw : Bytes) :
    repeats capacity lengthBound (strings ++ [raw]) =
      repeats capacity lengthBound strings ++
        if raw ∈ held capacity lengthBound strings then [strings.length] else [] := by
  unfold repeats
  rw [List.length_append, List.length_singleton, List.range_succ, List.filter_append]
  congr 1
  · apply List.filter_congr
    intro place inside
    have before : place < strings.length := List.mem_range.mp inside
    rw [List.getElem?_append_left before, List.take_append_of_le_length (Nat.le_of_lt before)]
  · rw [List.filter_cons, List.filter_nil, List.getElem?_concat_length, List.take_left' rfl]
    simp only [Option.any_some, decide_eq_true_eq]

theorem lookup_behind (capacity lengthBound : Nat) (strings : List Bytes) (raw : Bytes) :
    (behind capacity lengthBound strings).entries.lookup raw =
      if raw ∈ held capacity lengthBound strings then some (Text.Utf8.decodeLossy raw)
      else none := by
  unfold behind
  simp only
  induction held capacity lengthBound strings with
  | nil => rfl
  | cons first rest ih =>
      rw [List.map_cons, List.lookup_cons, ih]
      by_cases same : raw = first
      · subst same
        simp
      · simp only [beq_eq_false_iff_ne.mpr same, List.mem_cons, same, false_or]

theorem length_of_held {capacity lengthBound : Nat} {strings : List Bytes} {raw : Bytes}
    (member : raw ∈ held capacity lengthBound strings) : raw.length < lengthBound := by
  have inShort := List.mem_eraseDups.mp (List.mem_of_mem_take member)
  exact of_decide_eq_true (List.mem_filter.mp inShort).2

theorem intern_behind (capacity lengthBound : Nat) (strings : List Bytes) (raw : Bytes) :
    (behind capacity lengthBound strings).intern raw =
      (if raw ∈ held capacity lengthBound (strings ++ [raw]) then some (Text.Utf8.decodeLossy raw)
        else none,
        behind capacity lengthBound (strings ++ [raw])) := by
  have grown := held_snoc capacity lengthBound strings raw
  have counted := repeats_snoc capacity lengthBound strings raw
  have looked := lookup_behind capacity lengthBound strings raw
  unfold intern
  by_cases long : lengthBound ≤ raw.length
  · -- The string is too long for the cache.
    have bypassed : raw ∉ held capacity lengthBound strings := fun member =>
      Nat.not_lt_of_le long (length_of_held member)
    rw [if_neg fun now => Nat.not_lt_of_le long now.1] at grown
    rw [if_neg bypassed, List.append_nil] at counted
    simp only [behind, long, if_true, grown, counted, bypassed, if_false]
  · rw [if_neg (show ¬(behind capacity lengthBound strings).lengthBound ≤ raw.length from long)]
    by_cases member : raw ∈ held capacity lengthBound strings
    · rw [if_neg fun now => now.2.1 member] at grown
      rw [if_pos member] at counted looked
      simp only [looked]
      simp only [behind, grown, counted, member, if_true, List.length_append,
        List.length_singleton]
    · rw [if_neg member, List.append_nil] at counted
      rw [if_neg member] at looked
      simp only [looked]
      simp only [isFull, size, behind, List.length_map]
      by_cases full : capacity ≤ (held capacity lengthBound strings).length
      · rw [if_neg fun now => Nat.not_lt_of_le full now.2.2] at grown
        simp only [full, decide_true, if_true, grown, counted, member, if_false]
      · rw [if_pos ⟨Nat.lt_of_not_le long, member, Nat.lt_of_not_le full⟩] at grown
        simp only [full, decide_false, Bool.false_eq_true, if_false, grown, counted,
          List.map_append, List.map_cons, List.map_nil, List.mem_append, List.mem_singleton,
          or_true, if_true]

theorem held_prefix (capacity lengthBound : Nat) (earlier more : List Bytes) :
    held capacity lengthBound earlier <+: held capacity lengthBound (earlier ++ more) := by
  induction more generalizing earlier with
  | nil =>
      have same : earlier ++ [] = earlier := List.append_nil earlier
      exact same.symm ▸ List.prefix_rfl
  | cons raw more ih =>
      have grown : held capacity lengthBound earlier <+:
          held capacity lengthBound (earlier ++ [raw]) := by
        rw [held_snoc]
        split
        · exact List.prefix_append _ _
        · exact List.prefix_rfl
      rw [List.append_cons]
      exact grown.trans (ih (earlier ++ [raw]))

end StringCache

namespace Lexer

variable {capacity lengthBound : Nat} {strings : List (Bytes × String)} {lexer : Lexer}

/-! ### Strings ended by bytes -/

/-- The string that a byte ends: the bytes that count between its quotes, and the text of its
token. -/
def string? (lexer : Lexer) (byte : UInt8) : Option (Bytes × String) :=
  match lexer.pending, (lexer.step byte).2.token? with
  | some pending, some ⟨.string text, _⟩ => some (pending.latest.reverse, text)
  | _, _ => none

theorem Passes.string? {byte : UInt8} (passes : lexer.Passes (lexer.step byte)) :
    lexer.string? byte = none := by
  unfold Lexer.string?
  split
  · rename_i pending text span _under taken
    exact absurd rfl (passes.other _ taken text)
  · rfl

theorem decode_of_string? {byte : UInt8} {raw : Bytes} {text : String}
    (ended : lexer.string? byte = some (raw, text)) :
    (lexer.step byte).1.cache = (lexer.decodeString raw).cache ∧
      (lexer.step byte).1.slot = (lexer.decodeString raw).slot ∧
      text = (lexer.decodeString raw).slot.text := by
  rcases step_cases lexer byte with ⟨start, latest, under, taken⟩ | passes
  · simp only [string?, under, taken, Outcome.token?, Option.some.injEq, Prod.mk.injEq] at ended
    obtain ⟨rfl, rfl⟩ := ended
    rw [taken]
    exact ⟨rfl, rfl, rfl⟩
  · rw [passes.string?] at ended
    cases ended

theorem kept_of_string?_none {byte : UInt8} (none : lexer.string? byte = none) :
    (lexer.step byte).1.cache = lexer.cache ∧ (lexer.step byte).1.slot = lexer.slot := by
  rcases step_cases lexer byte with ⟨start, latest, under, taken⟩ | passes
  · simp only [string?, under, taken, Outcome.token?, reduceCtorEq] at none
  · exact ⟨passes.cache, passes.slot⟩

theorem string?_of_token {byte : UInt8} {token : Token} {text : String}
    (completed : (lexer.step byte).2.token? = some token) (kind : token.kind = .string text) :
    ∃ raw, lexer.string? byte = some (raw, text) := by
  rcases step_cases lexer byte with ⟨start, latest, under, taken⟩ | passes
  · rw [taken] at completed
    cases completed
    cases kind
    refine ⟨latest.reverse, ?_⟩
    simp only [string?, under, taken, Outcome.token?]
  · exact absurd kind (passes.other token completed text)

/-! ### The text of the latest string -/

/-- The slot behind some strings: the text of the last one, which the cache shares if it holds
it. -/
def TextSlot.behind (capacity lengthBound : Nat) (strings : List (Bytes × String)) : TextSlot :=
  match strings.getLast? with
  | none => .owned ""
  | some (raw, text) =>
    if raw ∈ StringCache.held capacity lengthBound (strings.map Prod.fst) then .shared text
    else .owned text

theorem decodeString_behind {strings : List Bytes}
    (cache : lexer.cache = StringCache.behind capacity lengthBound strings) (raw : Bytes) :
    (lexer.decodeString raw).cache = StringCache.behind capacity lengthBound (strings ++ [raw]) ∧
      (lexer.decodeString raw).slot =
        if raw ∈ StringCache.held capacity lengthBound (strings ++ [raw]) then
          .shared (Text.Utf8.decodeLossy raw)
        else .owned (Text.Utf8.decodeLossy raw) := by
  have written : lexer.slot.write (Text.Utf8.decodeLossy raw) =
      .owned (Text.Utf8.decodeLossy raw) := by
    cases lexer.slot with
    | shared text => rfl
    | owned buffer => exact congrArg TextSlot.owned String.empty_append
  unfold decodeString
  rw [cache, StringCache.intern_behind]
  by_cases member : raw ∈ StringCache.held capacity lengthBound (strings ++ [raw])
  · simp only [member, if_true, and_self]
  · simp only [member, if_false, written, and_self]

/-! ### Sessions -/

/-- The strings that the bytes given to a lexer have ended since it was new, in order, over any
number of documents and whatever broke them off. -/
inductive Session (capacity lengthBound : Nat) : List (Bytes × String) → Lexer → Prop where
  | new : Session capacity lengthBound [] (Lexer.new (StringCache.new capacity lengthBound))
  | step {strings : List (Bytes × String)} {lexer : Lexer}
      (session : Session capacity lengthBound strings lexer) (byte : UInt8) :
      Session capacity lengthBound (strings ++ (lexer.string? byte).toList) (lexer.step byte).1
  | finish {σ ε : Type} (handle : σ → Token → σ × Option ε) (raise : LexError → ε)
      {strings : List (Bytes × String)} {lexer : Lexer}
      (session : Session capacity lengthBound strings lexer) (state : σ) :
      Session capacity lengthBound strings (lexer.finish handle raise state).1
  | reset {strings : List (Bytes × String)} {lexer : Lexer}
      (session : Session capacity lengthBound strings lexer) :
      Session capacity lengthBound strings lexer.reset

namespace Session

theorem cache_eq (session : Session capacity lengthBound strings lexer) :
    lexer.cache = StringCache.behind capacity lengthBound (strings.map Prod.fst) := by
  induction session with
  | new => exact StringCache.new_eq capacity lengthBound
  | @step strings lexer session byte ih =>
      cases ended : lexer.string? byte with
      | none => rw [(kept_of_string?_none ended).1, ih, Option.toList_none, List.append_nil]
      | some string =>
          rw [(decode_of_string? ended).1, (decodeString_behind ih string.1).1,
            Option.toList_some, List.map_append]
          rfl
  | finish handle raise session state ih => exact (finish_keeps handle raise _ state).1.trans ih
  | reset session ih => exact ih

theorem text_eq (session : Session capacity lengthBound strings lexer) {byte : UInt8}
    {raw : Bytes} {text : String} (ended : lexer.string? byte = some (raw, text)) :
    text = Text.Utf8.decodeLossy raw := by
  rw [(decode_of_string? ended).2.2, (decodeString_behind session.cache_eq raw).2]
  split <;> rfl

/-- The strings of a session settle its slot. No text is left of the strings before the last. -/
theorem slot_eq (session : Session capacity lengthBound strings lexer) :
    lexer.slot = TextSlot.behind capacity lengthBound strings := by
  induction session with
  | new => rfl
  | @step strings lexer session byte ih =>
      cases ended : lexer.string? byte with
      | none => rw [(kept_of_string?_none ended).2, ih, Option.toList_none, List.append_nil]
      | some string =>
          obtain ⟨raw, text⟩ := string
          rw [(decode_of_string? ended).2.1, (decodeString_behind session.cache_eq raw).2,
            session.text_eq ended, Option.toList_some, TextSlot.behind, List.getLast?_concat,
            List.map_append]
          rfl
  | finish handle raise session state ih => exact (finish_keeps handle raise _ state).2.trans ih
  | reset session ih => exact ih

theorem texts (session : Session capacity lengthBound strings lexer) :
    ∀ string ∈ strings, string.2 = Text.Utf8.decodeLossy string.1 := by
  induction session with
  | new =>
      intro string member
      cases member
  | @step strings lexer session byte ih =>
      intro string member
      rcases List.mem_append.mp member with old | added
      · exact ih string old
      · exact session.text_eq (Option.mem_toList.mp added)
  | finish handle raise session state ih => exact ih
  | reset session ih => exact ih

theorem push {σ ε : Type} (handle : σ → Token → σ × Option ε) (raise : LexError → ε)
    (session : Session capacity lengthBound strings lexer) (state : σ) (bytes : Bytes) :
    ∃ more, Session capacity lengthBound (strings ++ more)
      (lexer.push handle raise state bytes).1 :=
  push_invariant (P := fun next => ∃ more, Session capacity lengthBound (strings ++ more) next)
    (fun _ byte ⟨_, session⟩ => ⟨_, List.append_assoc _ _ _ ▸ session.step byte⟩)
    ⟨[], (List.append_nil strings).symm ▸ session⟩ state bytes

theorem pull (session : Session capacity lengthBound strings lexer) (limit : Nat) (bytes : Bytes)
    (latest : List Token) :
    ∃ more, Session capacity lengthBound (strings ++ more) (lexer.pull limit bytes latest).1 :=
  pull_invariant (P := fun next => ∃ more, Session capacity lengthBound (strings ++ more) next)
    (fun _ byte ⟨_, session⟩ => ⟨_, List.append_assoc _ _ _ ▸ session.step byte⟩)
    ⟨[], (List.append_nil strings).symm ▸ session⟩ limit bytes latest

/-- The cache behind a session holds the first distinct short strings, as many as it has room for,
each with its text, and never gives one up. It has counted the look-ups of strings held by then. The
slot holds the text of the last string, from the cache or decoded on its own, and that of no string
before it; the text of every token is that of its own bytes. -/
theorem cache_policy (session : Session capacity lengthBound strings lexer) :
    lexer.cache.capacity = capacity ∧ lexer.cache.lengthBound = lengthBound ∧
      lexer.cache.entries =
        (StringCache.held capacity lengthBound (strings.map Prod.fst)).map
          (fun raw => (raw, Text.Utf8.decodeLossy raw)) ∧
      lexer.cache.size ≤ capacity ∧
      lexer.cache.hits =
        (StringCache.repeats capacity lengthBound (strings.map Prod.fst)).length ∧
      (∀ more later, Session capacity lengthBound (strings ++ more) later →
        lexer.cache.entries <+: later.cache.entries) ∧
      (∀ string ∈ strings, string.2 = Text.Utf8.decodeLossy string.1) ∧
      lexer.slot = TextSlot.behind capacity lengthBound strings ∧
      ∀ byte token text, (lexer.step byte).2.token? = some token → token.kind = .string text →
        ∃ raw, lexer.string? byte = some (raw, text) ∧ text = Text.Utf8.decodeLossy raw ∧
          (lexer.step byte).1.slot =
            if raw ∈ StringCache.held capacity lengthBound (strings.map Prod.fst ++ [raw]) then
              .shared text
            else .owned text := by
  have settled := session.cache_eq
  refine ⟨congrArg (·.capacity) settled, congrArg (·.lengthBound) settled,
    congrArg (·.entries) settled, ?_, congrArg (·.hits) settled, ?_, session.texts,
    session.slot_eq, ?_⟩
  · rw [settled, StringCache.size, StringCache.behind, List.length_map]
    exact List.length_take_le _ _
  · intro more later continued
    rw [settled, continued.cache_eq, List.map_append]
    exact (StringCache.held_prefix _ _ _ _).map _
  · intro byte token text completed kind
    obtain ⟨raw, ended⟩ := string?_of_token completed kind
    have own := session.text_eq ended
    refine ⟨raw, ended, own, ?_⟩
    rw [(decode_of_string? ended).2.1, (decodeString_behind settled raw).2, own]

/-- A session of two documents, `"a""b"` and `"a"`, with room for one string. The second string is
decoded on its own, and the third is found again. -/
theorem cache_policy_two_documents :
    ∃ lexer, Session 1 2 [([0x61], "a"), ([0x62], "b"), ([0x61], "a")] lexer ∧
      lexer.cache.entries = [([0x61], "a")] ∧ lexer.cache.hits = 1 ∧
      lexer.slot = .shared "a" := by
  have fresh : Session 1 2 [] (Lexer.new (StringCache.new 1 2)) := .new
  have first := (((((fresh.step 0x22).step 0x61).step 0x22).step 0x22).step 0x62).step 0x22
  have second := ((first.reset.step 0x22).step 0x61).step 0x22
  have policy := second.cache_policy
  exact ⟨_, second, policy.2.2.1, policy.2.2.2.2.1, policy.2.2.2.2.2.2.2.1⟩

end Session

theorem Reached.session {lexer : Lexer} (reached : lexer.Reached) :
    ∃ capacity lengthBound strings, Session capacity lengthBound strings lexer := by
  induction reached with
  | new capacity lengthBound => exact ⟨capacity, lengthBound, [], .new⟩
  | push handle raise _ state bytes ih =>
      obtain ⟨capacity, lengthBound, strings, session⟩ := ih
      obtain ⟨more, continued⟩ := session.push handle raise state bytes
      exact ⟨capacity, lengthBound, strings ++ more, continued⟩
  | pull _ limit bytes latest ih =>
      obtain ⟨capacity, lengthBound, strings, session⟩ := ih
      obtain ⟨more, continued⟩ := session.pull limit bytes latest
      exact ⟨capacity, lengthBound, strings ++ more, continued⟩
  | finish handle raise _ state ih =>
      obtain ⟨capacity, lengthBound, strings, session⟩ := ih
      exact ⟨capacity, lengthBound, strings, session.finish handle raise state⟩
  | reset _ ih =>
      obtain ⟨capacity, lengthBound, strings, session⟩ := ih
      exact ⟨capacity, lengthBound, strings, session.reset⟩

end Lexer
end JsonProjection

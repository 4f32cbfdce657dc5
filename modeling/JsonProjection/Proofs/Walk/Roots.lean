import JsonProjection.Proofs.Walk.Completion
import JsonProjection.Proofs.Walk.Document
import Mathlib.Algebra.GroupWithZero.Nat

/-!
Sources with any number of root values.

A walk that takes every root value splits its tokens into those of one value after the other. The
walker behind them has what the values give one by one, and waits for the next one.
-/

namespace JsonProjection

open Walk

/-- A root value under a plan: a tree that fits it, and tokens that spell the tree. -/
structure Plan.Root (plan : Plan) where
  tree : Tree
  tokens : List Token
  fits : tree.Fits plan.mode (.project plan.group)
  spelled : tokens.map (·.kind) = tree.kinds

namespace Plan.Root

variable {plan : Plan}

def parts (root : plan.Root) : List Part :=
  root.tree.parts plan.group root.tokens

def found (source : Bytes) (root : plan.Root) : List Match :=
  Part.found plan.mode source root.parts ++ plan.values root.tree

def skipped (root : plan.Root) : Nat :=
  Part.skipped root.parts

end Plan.Root

namespace Walker

variable {plan : Plan} {source : Bytes} {walker next : Walker}

/-! ### Along root values -/

structure Behind (walker next : Walker) (source : Bytes) (roots : List plan.Root) : Prop where
  awaits : next.AwaitsRoot
  many : next.single = false
  latest : next.latest = (roots.flatMap (·.found source)).reverse ++ walker.latest
  matched : next.matched = walker.matched + (roots.flatMap (·.found source)).length
  skipped : next.skipped = walker.skipped + (roots.map (·.skipped)).sum

theorem awaitsRoot_root (awaits : walker.AwaitsRoot) (many : walker.single = false)
    (plan : Plan) (source : Bytes) (tree : Tree) (tokens : List Token) :
    (walker.root plan source tree tokens).AwaitsRoot :=
  ⟨⟨awaits.free.skip, awaits.free.raw⟩, awaits.stack,
    fun single => Bool.noConfusion (many.symm.trans single)⟩

theorem walk_roots (distinct : plan.group.Distinct) (awaits : walker.AwaitsRoot)
    (many : walker.single = false) (roots : List plan.Root) :
    ∃ next, walker.walk plan (Window.whole source) (roots.flatMap (·.tokens)) = (next, none) ∧
      walker.Behind next source roots := by
  induction roots generalizing walker with
  | nil => exact ⟨walker, rfl, awaits, many, rfl, rfl, rfl⟩
  | cons root rest ih =>
      have own : walker.walk plan (Window.whole source) root.tokens = _ :=
        walk_root root.fits distinct awaits root.spelled
      have later := awaitsRoot_root awaits many plan source root.tree root.tokens
      obtain ⟨next, walked, behind⟩ := ih later many
      refine ⟨next, ?_, behind.awaits, behind.many, ?_, ?_, ?_⟩
      · rw [List.flatMap_cons, walk_append_ok own]
        exact walked
      · rw [behind.latest, List.flatMap_cons, List.reverse_append, List.append_assoc,
          Plan.Root.found, List.reverse_append, List.append_assoc]
        rfl
      · rw [behind.matched, List.flatMap_cons, List.length_append, Plan.Root.found,
          List.length_append, ← Nat.add_assoc, ← Nat.add_assoc]
        rfl
      · rw [behind.skipped, List.map_cons, List.sum_cons, ← Nat.add_assoc]
        rfl

theorem Behind.endOfInput {roots : List plan.Root} (behind : walker.Behind next source roots)
    (offset : Nat) : (next.endOfInput offset).2 = none := by
  unfold Walker.endOfInput
  simp only [behind.awaits.openBrackets, behind.many, Nat.lt_irrefl, if_false, Bool.false_and,
    Bool.false_eq_true]

end Walker

/-! ### The root values of a walk -/

inductive Plan.Documents (plan : Plan) : List Token.Kind → Prop where
  | nil : Documents plan []
  | cons {own behind : List Token.Kind} (accepts : plan.Accepts own)
      (further : Documents plan behind) : Documents plan (own ++ behind)

theorem Plan.Documents.roots {plan : Plan} {kinds : List Token.Kind}
    (documents : plan.Documents kinds) {tokens : List Token}
    (spelled : tokens.map (·.kind) = kinds) :
    ∃ roots : List plan.Root, tokens = roots.flatMap (·.tokens) := by
  induction documents generalizing tokens with
  | nil => exact ⟨[], List.map_eq_nil_iff.mp spelled⟩
  | cons accepts _ ih =>
      obtain ⟨tree, fits, rfl⟩ := accepts
      obtain ⟨own, behind, rfl, ownSpelled, behindSpelled⟩ := List.map_eq_append_iff.mp spelled
      obtain ⟨roots, rfl⟩ := ih behindSpelled
      exact ⟨⟨tree, own, fits, ownSpelled⟩ :: roots, rfl⟩

namespace Walker

variable {plan : Plan} {window : Window} {walker next : Walker} {token : Token}
  {kinds : List Token.Kind}

/-- What completes a walk that takes every root value: the rest of the one under way, and then
documents. -/
def Owes (plan : Plan) (walker : Walker) (kinds : List Token.Kind) : Prop :=
  ∃ own behind, kinds = own ++ behind ∧ plan.Documents behind ∧
    if walker.stack = [] then own = [] else walker.Needs plan own

theorem push_roots (sound : walker.Sound) (inner : token.kind ≠ .endOfInput)
    (pushed : walker.push plan window token = (next, none)) (stack : next.stack = []) :
    next.roots ≠ 0 := by
  have counted := push_begun sound inner pushed
  have some : 0 < walker.begun + if walker.stack = [] then 1 else 0 := by
    unfold begun
    split <;> omega
  rw [← counted, begun, if_pos stack] at some
  omega

theorem push_owes (sound : walker.Sound) (inner : token.kind ≠ .endOfInput)
    (pushed : walker.push plan window token = (next, none)) (owes : next.Owes plan kinds) :
    walker.Owes plan (token.kind :: kinds) := by
  obtain ⟨own, behind, rfl, documents, rest⟩ := owes
  have needs : next.Needs plan own := by
    by_cases stack : next.stack = []
    · rw [if_pos stack] at rest
      have free := (push_sound sound inner pushed).free_of_nil stack
      have some := push_roots sound inner pushed stack
      rw [free.needs_iff, stack]
      simp only [some, if_false]
      exact rest
    · rw [if_neg stack] at rest
      exact rest
  by_cases stack : walker.stack = []
  · have free := sound.free_of_nil stack
    cases push_cases inner pushed with
    | root _ _ first begun =>
        obtain ⟨tree, more, fits, spelled, tails⟩ := begin_needs (by exact ⟨free.skip, free.raw⟩)
          (fun name other => by cases other) (begin_cases begun) needs
        have none : more = [] := by
          rw [stack] at tails
          exact tails
        rw [none, List.append_nil] at spelled
        have accepts : plan.Accepts (token.kind :: own) := ⟨tree, fits, spelled⟩
        refine ⟨[], (token.kind :: own) ++ behind, rfl, .cons accepts documents, ?_⟩
        rw [if_pos stack]
    | frame _ opened =>
        rw [stack] at opened
        cases opened
    | skip skips =>
        rw [free.skip] at skips
        cases skips
    | skipped skips =>
        rw [free.skip] at skips
        cases skips
    | capture _ captures =>
        rw [free.raw] at captures
        cases captures
    | captured _ captures =>
        rw [free.raw] at captures
        cases captures
  · -- Inside a root value it makes no difference how many of them are wanted.
    have room : walker.Room := fun _ empty => absurd empty stack
    have same := push_withSingle plan window room true inner
    rw [pushed] at same
    have single : (walker.withSingle true).Sound :=
      ⟨sound.frames, sound.exclusive, sound.skip, sound.raw⟩
    have further : (walker.withSingle true).Needs plan (token.kind :: own) :=
      push_needs single rfl inner same needs
    refine ⟨token.kind :: own, behind, rfl, documents, ?_⟩
    rw [if_neg stack]
    exact further

theorem walk_owes {tokens : List Token} (sound : walker.Sound)
    (inner : ∀ token ∈ tokens, token.kind ≠ .endOfInput)
    (walked : walker.walk plan window tokens = (next, none)) (owes : next.Owes plan kinds) :
    walker.Owes plan (tokens.map (·.kind) ++ kinds) := by
  induction tokens generalizing walker with
  | nil =>
      cases walked
      exact owes
  | cons token rest ih =>
      obtain ⟨middle, pushed, behind⟩ := walk_cons_eq_none walked
      have own := inner token List.mem_cons_self
      exact push_owes sound own pushed (ih (push_sound sound own pushed)
        (fun other member => inner other (List.mem_cons_of_mem token member)) behind)

/-- The tokens of a walk from the start that ends where no container is open are those of root
values. -/
theorem walk_eq_roots {tokens : List Token}
    (inner : ∀ token ∈ tokens, token.kind ≠ .endOfInput)
    (walked : walk plan window new tokens = (next, none)) {offset : Nat}
    (ended : (next.endOfInput offset).2 = none) :
    ∃ roots : List plan.Root, tokens = roots.flatMap (·.tokens) := by
  obtain ⟨stack, -⟩ := endOfInput_none ended
  have owes : next.Owes plan [] := by
    refine ⟨[], [], rfl, .nil, ?_⟩
    rw [if_pos stack]
  obtain ⟨own, behind, same, documents, rest⟩ := walk_owes (sound_new false) inner walked owes
  obtain rfl : own = [] := by
    rw [if_pos (by rfl)] at rest
    exact rest
  rw [List.append_nil, List.nil_append] at same
  exact documents.roots same

end Walker
end JsonProjection

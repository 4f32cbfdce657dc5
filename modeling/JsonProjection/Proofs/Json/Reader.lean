import JsonProjection.Json.StrictReader
import JsonProjection.Proofs.Json.Members
import JsonProjection.Proofs.Json.Tokens
import JsonProjection.Proofs.Syntax.Project

/-!
The reader of standard JSON on the tokens of a tree.

The reader keeps its open containers on a stack and may give up, as it does where they are nested
too deep. Where it does not, it hands the whole value of the tree to the container around it.
-/

namespace JsonProjection

open Json Json.StrictReader

namespace Json.StrictReader

theorem run_open {stack : List Frame} {frame : Frame} {expect : Expect} {tokens : List StrictToken}
    {final : State}
    (ran : (match State.open? frame expect stack with
      | none => none
      | some next => State.run next tokens) = some final) :
    State.run ⟨frame :: stack, expect⟩ tokens = some final := by
  unfold State.open? at ran
  by_cases shallow : stack.length < depthLimit
  · rw [if_pos shallow] at ran
    exact ran
  · rw [if_neg shallow] at ran
    cases ran

end Json.StrictReader

theorem Scalar.strict (scalar : Scalar) : scalar.kind.strict? = some (.scalar scalar.value) := by
  rcases scalar with ⟨kind, value, spells⟩
  cases kind <;> cases spells <;> rfl

namespace Tree

def Reads (tree : Tree) : Prop :=
  ∀ {stack : List StrictReader.Frame} {rest : List Token.Kind} {final : State},
    State.run ⟨stack, .value⟩ (Token.Kind.strictAll (tree.kinds ++ rest)) = some final →
      State.run (State.attach tree.whole stack) (Token.Kind.strictAll rest) = some final

theorem IsJson.run_itemOrClose {tree : Tree} (json : tree.IsJson) (stack : List StrictReader.Frame)
    (rest : List Token.Kind) :
    State.run ⟨stack, .itemOrClose⟩ (Token.Kind.strictAll (tree.kinds ++ rest)) =
      State.run ⟨stack, .value⟩ (Token.Kind.strictAll (tree.kinds ++ rest)) := by
  cases json with
  | scalar own =>
      rw [kinds, List.singleton_append, Token.Kind.strictAll, List.filterMap_cons_some own.strict]
      rfl
  | array inner => rfl
  | object inner => rfl

variable {stack : List StrictReader.Frame} {rest : List Token.Kind} {final : State}

theorem reads_items {items : List Tree} (each : ∀ item ∈ items, item.Reads) {latest : List Value}
    (ran : State.run ⟨.array latest :: stack, .separator⟩
      (Token.Kind.strictAll (itemKinds false items ++ rest)) = some final) :
    State.run (State.attach (.array (latest.reverse ++ wholeItems items)) stack)
      (Token.Kind.strictAll rest) = some final := by
  induction items generalizing latest with
  | nil =>
      rw [wholeItems, List.append_nil]
      exact ran
  | cons item others ih =>
      -- Behind the comma the reader expects a value.
      have behind : State.run ⟨.array latest :: stack, .value⟩
          (Token.Kind.strictAll (item.kinds ++ itemKinds false others ++ rest)) = some final :=
        ran
      rw [List.append_assoc] at behind
      have own := ih (fun other member => each other (List.mem_cons_of_mem item member))
        (each item List.mem_cons_self behind)
      rw [List.reverse_cons, List.append_assoc] at own
      exact own

theorem reads_members {members : List (String × Tree)}
    (each : ∀ member ∈ members, member.2.Reads) {before : List (String × Value)} {key : String}
    (ran : State.run ⟨.object before key :: stack, .separator⟩
      (Token.Kind.strictAll (memberKinds false members ++ rest)) = some final) :
    State.run (State.attach (.object (Members.putAll before (wholeMembers members))) stack)
      (Token.Kind.strictAll rest) = some final := by
  induction members generalizing before key with
  | nil => exact ran
  | cons member others ih =>
      rcases member with ⟨name, value⟩
      -- So it does behind the comma, the key and the colon; the key waits in the frame.
      have named : State.run ⟨.object before name :: stack, .value⟩
          (Token.Kind.strictAll (value.kinds ++ memberKinds false others ++ rest)) = some final :=
        ran
      rw [List.append_assoc] at named
      exact ih (fun other inside => each other (List.mem_cons_of_mem _ inside))
        (each (name, value) List.mem_cons_self named)

/-- The induction is on the tree, with any stack around it: that an item or a member is read is
known for whatever stands on the stack by then. -/
theorem IsJson.reads {tree : Tree} (json : tree.IsJson) : tree.Reads := by
  induction json with
  | scalar own =>
      intro stack rest final ran
      rw [kinds, List.singleton_append, Token.Kind.strictAll,
        List.filterMap_cons_some own.strict] at ran
      exact ran
  | @array items inner ih =>
      intro stack rest final ran
      have opened : State.run ⟨.array [] :: stack, .itemOrClose⟩
          (Token.Kind.strictAll (itemKinds true items ++ rest)) = some final := run_open ran
      cases items with
      | nil => exact opened
      | cons item others =>
          -- The first item stands where the array might have ended.
          rw [itemKinds, separator_true, List.nil_append, List.append_assoc,
            (inner item List.mem_cons_self).run_itemOrClose] at opened
          exact reads_items (fun other member => ih other (List.mem_cons_of_mem item member))
            (ih item List.mem_cons_self opened)
  | @object members inner ih =>
      intro stack rest final ran
      have opened : State.run ⟨.object [] "" :: stack, .keyOrClose⟩
          (Token.Kind.strictAll (memberKinds true members ++ rest)) = some final := run_open ran
      rw [whole, ← Members.putAll_nil]
      cases members with
      | nil => exact opened
      | cons member others =>
          rcases member with ⟨name, value⟩
          have named : State.run ⟨.object [] name :: stack, .value⟩
              (Token.Kind.strictAll (value.kinds ++ memberKinds false others ++ rest)) =
                some final := opened
          rw [List.append_assoc] at named
          exact reads_members (fun other inside => ih other (List.mem_cons_of_mem _ inside))
            (ih (name, value) List.mem_cons_self named)

theorem IsJson.read {tree : Tree} (json : tree.IsJson) {final : State}
    (ran : State.run ⟨[], .value⟩ (Token.Kind.strictAll tree.kinds) = some final) :
    final = ⟨[], .done tree.whole⟩ := by
  rw [← List.append_nil tree.kinds] at ran
  exact (Option.some.inj (json.reads ran)).symm

end Tree

theorem Layout.readStrict {bytes : Bytes} {tokens : List Token} (layout : Layout 0 bytes tokens)
    (agrees : ∀ text ∈ numberTexts bytes, Agrees text) (plain : plainEscapes bytes = true)
    {tree : Tree} (json : tree.IsJson) (spelled : tokens.map (·.kind) = tree.kinds) {value : Value}
    (read : readStrict? bytes = some value) : value = tree.whole := by
  obtain ⟨strict, scanned, valued⟩ := Option.bind_eq_some_iff.mp read
  rw [layout.strict agrees plain scanned, spelled] at valued
  cases ran : State.run ⟨[], .value⟩ (Token.Kind.strictAll tree.kinds) with
  | none =>
      rw [ran] at valued
      cases valued
  | some final =>
      rw [ran, json.read ran] at valued
      exact (Option.some.inj valued).symm

end JsonProjection

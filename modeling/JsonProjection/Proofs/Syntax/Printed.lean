import JsonProjection.Proofs.Syntax.Readable
import JsonProjection.Proofs.Token.Printed

/-!
Compact texts.

The compact text of a value is the texts of the tokens of its tree, and it falls into these tokens
again, provided that each scalar by itself is read back.
-/

namespace JsonProjection

open Json Lexer

/-! ### The compact text -/

namespace Json

theorem emit_append (first second latest : List Char) :
    emit (first ++ second) latest = emit second (emit first latest) :=
  List.foldl_append

theorem emit_nil (text : List Char) : emit text [] = text.reverse := by
  rw [emit, List.foldl_flip_cons_eq_append', List.append_nil]

def emitKinds (kinds : List Token.Kind) (latest : List Char) : List Char :=
  emit (kinds.flatMap Token.Kind.chars) latest

theorem emitKinds_cons (kind : Token.Kind) (rest : List Token.Kind) (latest : List Char) :
    emitKinds (kind :: rest) latest = emitKinds rest (emit kind.chars latest) := by
  rw [emitKinds, List.flatMap_cons, emit_append]
  rfl

theorem emitKinds_append (first second : List Token.Kind) (latest : List Char) :
    emitKinds (first ++ second) latest = emitKinds second (emitKinds first latest) := by
  rw [emitKinds, List.flatMap_append, emit_append]
  rfl

theorem emitKinds_singleton (kind : Token.Kind) (latest : List Char) :
    emitKinds [kind] latest = emit kind.chars latest :=
  emitKinds_cons kind [] latest

theorem emit_lineBreak (depth : Nat) (latest : List Char) :
    emit (Layout.compact.lineBreak depth) latest = latest :=
  rfl

mutual

theorem write_compact (value : Value) (depth : Nat) (latest : List Char) :
    write .compact depth value latest = emitKinds value.tree.kinds latest := by
  cases value with
  | null => rfl
  | bool own => cases own <;> rfl
  | integer own =>
      rw [write, Value.tree, Tree.kinds, emitKinds_singleton, Numeral.ofInt_chars]
  | float own =>
      rw [write, Value.tree, Tree.kinds, emitKinds_singleton]
      rfl
  | string own =>
      rw [write, Value.tree, Tree.kinds, emitKinds_singleton]
      rfl
  | array items =>
      rw [Value.tree, Tree.kinds, emitKinds_cons]
      cases items with
      | nil => rfl
      | cons item rest =>
          rw [write, emit_lineBreak, emit_lineBreak, write_compact item, writeItems_compact rest,
            Value.treeItems, Tree.itemKinds, separator_true, List.nil_append, emitKinds_append]
          rfl
  | object members =>
      rw [Value.tree, Tree.kinds, emitKinds_cons]
      cases members with
      | nil => rfl
      | cons member rest =>
          obtain ⟨key, value⟩ := member
          rw [write, emit_lineBreak, emit_lineBreak, write_compact value, writeMembers_compact rest,
            Value.treeMembers, Tree.memberKinds, separator_true, List.nil_append, emitKinds_cons,
            emitKinds_cons, emitKinds_append]
          rfl

theorem writeItems_compact (items : List Value) (depth : Nat) (latest : List Char) :
    ']' :: writeItems .compact depth items latest =
      emitKinds (Tree.itemKinds false (Value.treeItems items)) latest := by
  cases items with
  | nil => rfl
  | cons item rest =>
      rw [writeItems, emit_lineBreak, write_compact item, writeItems_compact rest,
        Value.treeItems, Tree.itemKinds, separator_false, List.singleton_append, emitKinds_cons,
        emitKinds_append]
      rfl

theorem writeMembers_compact (members : List (String × Value)) (depth : Nat)
    (latest : List Char) :
    '\x7d' :: writeMembers .compact depth members latest =
      emitKinds (Tree.memberKinds false (Value.treeMembers members)) latest := by
  cases members with
  | nil => rfl
  | cons member rest =>
      obtain ⟨key, value⟩ := member
      rw [writeMembers, emit_lineBreak, write_compact value, writeMembers_compact rest,
        Value.treeMembers, Tree.memberKinds, separator_false, List.singleton_append,
        emitKinds_cons, emitKinds_cons, emitKinds_cons, emitKinds_append]
      rfl

end

theorem Value.encode_compact (value : Value) :
    Text.Utf8.encode value.compact = value.tree.kinds.flatMap Token.Kind.bytes := by
  rw [compact, text, write_compact, emitKinds, emit_nil, List.reverse_reverse,
    Text.Utf8.encode_ofList, List.flatMap_assoc]
  rfl

end Json

/-! ### Scalars that are read back -/

namespace Json.Value

mutual

/-- The scalars in a value, and the keys of its objects. -/
def atoms : Value → List Value
  | .null => [.null]
  | .bool value => [.bool value]
  | .integer value => [.integer value]
  | .float value => [.float value]
  | .string text => [.string text]
  | .array items => atomsOfItems items
  | .object members => atomsOfMembers members

def atomsOfItems : List Value → List Value
  | [] => []
  | item :: rest => item.atoms ++ atomsOfItems rest

def atomsOfMembers : List (String × Value) → List Value
  | [] => []
  | (key, value) :: rest => .string key :: (value.atoms ++ atomsOfMembers rest)

end

/-- What makes the text of a scalar read back: an integer fits into 64 bits, the text of a double is
read as the double, and no character of a string is a control character. -/
def ReadsBack : Value → Prop
  | .integer value => Numeral.Fits value
  | .float x => Numeral.float? (Text.Utf8.encode (Value.float x).compact) = some x
  | .string text => ∀ c ∈ text.toList, 0x20 ≤ c.toNat
  | _ => True

theorem atomsOfItems_eq (items : List Value) : atomsOfItems items = items.flatMap atoms := by
  induction items with
  | nil => rfl
  | cons item rest ih => rw [atomsOfItems, ih, List.flatMap_cons]

theorem atomsOfMembers_eq (members : List (String × Value)) :
    atomsOfMembers members =
      members.flatMap fun member => .string member.1 :: member.2.atoms := by
  induction members with
  | nil => rfl
  | cons member rest ih => rw [atomsOfMembers, ih, List.flatMap_cons, List.cons_append]

theorem Readable.integer_fits {value : Value} (readable : value.Readable) {n : Int}
    (inside : .integer n ∈ value.atoms) : Numeral.Fits n := by
  induction readable with
  | @scalar own scalar spells =>
      have alone : scalar.value.atoms = [scalar.value] :=
        @Scalar.value_cases scalar (fun value => value.atoms = [value])
          rfl (fun _ => rfl) (fun _ => rfl) (fun _ => rfl) (fun _ => rfl)
      rw [alone, List.mem_singleton] at inside
      exact spells.integer_fits (inside ▸ scalar.spells)
  | array _ ih =>
      rw [atoms, atomsOfItems_eq] at inside
      obtain ⟨item, member, own⟩ := List.mem_flatMap.mp inside
      exact ih item member own
  | object _ _ ih =>
      rw [atoms, atomsOfMembers_eq] at inside
      obtain ⟨member, among, own⟩ := List.mem_flatMap.mp inside
      rcases List.mem_cons.mp own with key | own
      · cases key
      · exact ih member among own

end Json.Value

/-! ### Reading the text -/

theorem Tree.endsNumber_items (items : List Tree) :
    EndsNumber ((itemKinds false items).flatMap Token.Kind.bytes) := by
  intro byte first
  cases items <;> (cases first; rfl)

theorem Tree.endsNumber_members (members : List (String × Tree)) :
    EndsNumber ((memberKinds false members).flatMap Token.Kind.bytes) := by
  intro byte first
  cases members <;> (cases first; rfl)

theorem Rereads.separate {kinds : List Token.Kind} (behind : Rereads kinds) (first : Bool) :
    Rereads (separator first ++ kinds) := by
  cases first with
  | true => exact behind
  | false => exact .cons (.mark rfl) (fun value other => by cases other) behind

namespace Json.Value

mutual

theorem rereads (value : Value) (reads : ∀ atom ∈ value.atoms, atom.ReadsBack) :
    Rereads value.tree.kinds := by
  cases value with
  | null => exact .single (.literal .null)
  | bool own =>
      cases own with
      | true => exact .single (.literal .true)
      | false => exact .single (.literal .false)
  | integer own =>
      refine .single ?_
      rw [Token.Kind.bytes, Numeral.ofInt_chars]
      exact .integer (reads _ List.mem_cons_self)
  | float own =>
      have back : Numeral.float? _ = some own := reads _ List.mem_cons_self
      rw [encode_compact, tree, Tree.kinds, List.flatMap_singleton] at back
      exact .single (.double back)
  | string own => exact .single (.quoted (reads _ List.mem_cons_self))
  | array items =>
      exact .cons (.mark rfl) (fun value other => by cases other)
        (rereads_items true items reads)
  | object members =>
      exact .cons (.mark rfl) (fun value other => by cases other)
        (rereads_members true members reads)

theorem rereads_items (first : Bool) (items : List Value)
    (reads : ∀ atom ∈ atomsOfItems items, atom.ReadsBack) :
    Rereads (Tree.itemKinds first (treeItems items)) := by
  cases items with
  | nil => exact .single (.mark rfl)
  | cons item rest =>
      obtain ⟨own, others⟩ := List.forall_mem_append.mp reads
      have behind := rereads_items false rest others
      exact ((rereads item own).append (Tree.endsNumber_items _) behind).separate first

theorem rereads_members (first : Bool) (members : List (String × Value))
    (reads : ∀ atom ∈ atomsOfMembers members, atom.ReadsBack) :
    Rereads (Tree.memberKinds first (treeMembers members)) := by
  cases members with
  | nil => exact .single (.mark rfl)
  | cons member rest =>
      obtain ⟨key, value⟩ := member
      obtain ⟨named, inner⟩ := List.forall_mem_cons.mp reads
      obtain ⟨own, others⟩ := List.forall_mem_append.mp inner
      have behind := rereads_members false rest others
      have valued := (rereads value own).append (Tree.endsNumber_members _) behind
      have assigned : Rereads (.colon :: _) :=
        .cons (.mark rfl) (fun value other => by cases other) valued
      have member : Rereads (.string key :: _) :=
        .cons (.quoted named) (fun value other => by cases other) assigned
      exact member.separate first

end

end Json.Value

end JsonProjection

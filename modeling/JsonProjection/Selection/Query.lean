import JsonProjection.Selection.Error
import JsonProjection.Selection.Group
import JsonProjection.Selection.Lexeme

/-!
Reading a query into a group.

A query is one group: field names between braces, separated by commas, at least one, no name
twice; a name may be followed by a group of its own. The reader keeps the groups that are still
open on a stack, innermost first, so that it takes one lexeme at a time.
-/

namespace JsonProjection

namespace Query

/-- A group that is still open: the offset of its brace, and its complete fields. -/
structure OpenGroup where
  start : Nat
  fields : Group

structure Waiting where
  group : OpenGroup
  name : String

/-- What has to come next, for the innermost open group and those around it. -/
inductive State where
  | start
  | fieldName (group : OpenGroup) (outer : List Waiting)
  | afterName (group : OpenGroup) (name : String) (outer : List Waiting)
  | separator (group : OpenGroup) (outer : List Waiting)
  | done (group : Group)

def OpenGroup.add (group : OpenGroup) (name : String) (selection : Selection) : OpenGroup :=
  ⟨group.start, group.fields.snoc name selection⟩

def OpenGroup.new (start : Nat) : OpenGroup :=
  ⟨start, .empty⟩

/-- A closed group belongs to the field that waits for it; with none waiting it is the query. -/
def closed (group : Group) : List Waiting → State
  | [] => .done group
  | ⟨outer, name⟩ :: rest => .separator (outer.add name (.nested group)) rest

def afterField (group : OpenGroup) (outer : List Waiting) (lexeme : Lexeme) (offset : Nat) :
    Except SyntaxError State :=
  match lexeme with
  | .comma => .ok (.fieldName group outer)
  | .closeGroup => .ok (closed group.fields outer)
  | _ => .error (.unexpected lexeme.head? .separator offset)

def State.push (state : State) (lexeme : Lexeme) (offset : Nat) : Except SyntaxError State :=
  match state with
  | .start =>
    match lexeme with
    | .openGroup => .ok (.fieldName (OpenGroup.new offset) [])
    | _ => .error (.unexpected lexeme.head? .groupStart offset)
  | .fieldName group outer =>
    match lexeme with
    | .name chars =>
      let name := String.ofList chars
      if group.fields.contains name then .error (.duplicate name offset)
      else .ok (.afterName group name outer)
    | _ => .error (.unexpected lexeme.head? .fieldName offset)
  | .afterName group name outer =>
    match lexeme with
    | .openGroup => .ok (.fieldName (OpenGroup.new offset) (⟨group, name⟩ :: outer))
    | _ => afterField (group.add name .leaf) outer lexeme offset
  | .separator group outer => afterField group outer lexeme offset
  | .done _ => .error (.trailing offset)

def State.run : State → List (Lexeme × Nat) → Except SyntaxError State
  | state, [] => .ok state
  | state, (lexeme, offset) :: rest =>
    match state.push lexeme offset with
    | .error error => .error error
    | .ok state => State.run state rest

def State.finish (length : Nat) : State → Except SyntaxError Group
  | .start => .error (.unexpected none .groupStart length)
  | .fieldName group _ => .error (.unterminated group.start)
  | .afterName group _ _ => .error (.unterminated group.start)
  | .separator group _ => .error (.unterminated group.start)
  | .done group => .ok group

end Query

def compile (query : String) : Except SyntaxError Group :=
  match Query.State.run .start (Lexeme.scan query.toList) with
  | .error error => .error error
  | .ok state => state.finish query.utf8ByteSize

end JsonProjection

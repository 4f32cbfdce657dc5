import JsonProjection.Json.StrictToken

/-!
Reading one value of standard JSON.

The reader keeps the open containers on a stack and refuses the first token that does not fit.
Values may be nested up to `depthLimit` containers deep. Of two members with one key the later
value counts, at the place of the earlier one.
-/

namespace JsonProjection.Json

def depthLimit : Nat := 127

namespace StrictReader

/-- An open container: an array with its items, latest first, or an object with its members and the
key whose value is being read. -/
inductive Frame where
  | array (latest : List Value)
  | object (members : List (String × Value)) (key : String)

/-- What has to come next. `done` holds the value that the text spells. -/
inductive Expect where
  | value
  | itemOrClose
  | keyOrClose
  | key
  | colon
  | separator
  | done (value : Value)

structure State where
  stack : List Frame
  expect : Expect

def State.attach (value : Value) : List Frame → State
  | [] => ⟨[], .done value⟩
  | .array latest :: rest => ⟨.array (value :: latest) :: rest, .separator⟩
  | .object members key :: rest => ⟨.object (Members.put members key value) "" :: rest, .separator⟩

def State.open? (frame : Frame) (expect : Expect) (stack : List Frame) : Option State :=
  if stack.length < depthLimit then some ⟨frame :: stack, expect⟩ else none

def State.begin? (stack : List Frame) : StrictToken → Option State
  | .scalar value => some (State.attach value stack)
  | .openArray => State.open? (.array []) .itemOrClose stack
  | .openObject => State.open? (.object [] "") .keyOrClose stack
  | _ => none

def State.close? : List Frame → StrictToken → Option State
  | .array latest :: rest, .closeArray => some (State.attach (.array latest.reverse) rest)
  | .object members _ :: rest, .closeObject => some (State.attach (.object members) rest)
  | _, _ => none

def State.key? : List Frame → StrictToken → Option State
  | .object members _ :: rest, .scalar (.string key) => some ⟨.object members key :: rest, .colon⟩
  | _, _ => none

def State.push (state : State) (token : StrictToken) : Option State :=
  match state.expect with
  | .value => State.begin? state.stack token
  | .itemOrClose =>
    match token with
    | .closeArray => State.close? state.stack token
    | _ => State.begin? state.stack token
  | .keyOrClose =>
    match token with
    | .closeObject => State.close? state.stack token
    | _ => State.key? state.stack token
  | .key => State.key? state.stack token
  | .colon =>
    match token with
    | .colon => some ⟨state.stack, .value⟩
    | _ => none
  | .separator =>
    match token, state.stack with
    | .comma, .array _ :: _ => some ⟨state.stack, .value⟩
    | .comma, .object .. :: _ => some ⟨state.stack, .key⟩
    | _, _ => State.close? state.stack token
  | .done _ => none

def State.run : State → List StrictToken → Option State
  | state, [] => some state
  | state, token :: rest =>
    match state.push token with
    | none => none
    | some state => State.run state rest

end StrictReader

def readStrict? (text : Bytes) : Option Value :=
  (StrictToken.ofBytes? text).bind fun tokens =>
    match StrictReader.State.run ⟨[], .value⟩ tokens with
    | some ⟨_, .done value⟩ => some value
    | _ => none

end JsonProjection.Json

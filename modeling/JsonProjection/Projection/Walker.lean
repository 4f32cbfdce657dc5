import JsonProjection.Projection.Error
import JsonProjection.Projection.Match
import JsonProjection.Selection.Group

/-!
Walking the tokens of a document along a selection.

The walker keeps the containers that are open on a stack, innermost first. Values of fields that are
not selected are passed over by counting brackets, and so are raw leaves, whose bytes are cut out of
the source when they end; every other value is built on the stack. A refused token leaves the walker
in the state in which it was refused.
-/

namespace JsonProjection

structure Plan where
  group : Group
  mode : EmitMode
  deriving DecidableEq, Repr

inductive Container where
  | object
  | array
  deriving DecidableEq, Repr

def Token.Kind.opens? : Token.Kind → Option Container
  | .openObject => some .object
  | .openArray => some .array
  | _ => none

def Token.Kind.closes? : Token.Kind → Option Container
  | .closeObject => some .object
  | .closeArray => some .array
  | _ => none

namespace Walk

/-- What the key before a value means: a selected field, by its position in the group; a key of an
object that is kept whole; or a field that nobody asked for. -/
inductive Key where
  | field (index : Nat)
  | kept (name : String)
  | ignored
  deriving DecidableEq, Repr

/-- What has to come next in a container: in an object a key, its colon, its value; in an array an
item; in both what stands behind a value. `orClose` holds where the container may end instead. -/
inductive Expect where
  | key (orClose : Bool)
  | colon (key : Key)
  | value (key : Key)
  | item (orClose : Bool)
  | separator
  deriving DecidableEq, Repr

/-- What is built of a container: nothing in raw mode; one slot for every field of the group; the
members or the items, latest first, of a container that is kept or projected; or nothing here, where
the items of a root array are delivered one by one. -/
inductive Building where
  | nothing
  | slots (values : List (Option Json.Value))
  | members (list : List (String × Json.Value))
  | items (latest : List Json.Value)
  | records
  deriving Repr

/-- An open container. Its group is missing inside a value that is kept whole. -/
structure Frame where
  container : Container
  group : Option Group
  expect : Expect
  building : Building
  deriving Repr

/-- A stretch of tokens that is passed over: how many of its brackets are open, and where it
began. -/
structure Stretch where
  depth : Nat
  start : Nat
  deriving DecidableEq, Repr

/-- A stretch with one token more. Both sorts of brackets count alike. -/
def Stretch.push (stretch : Stretch) (kind : Token.Kind) : Stretch :=
  if kind.opens?.isSome then { stretch with depth := stretch.depth + 1 }
  else if kind.closes?.isSome then { stretch with depth := stretch.depth - 1 }
  else stretch

/-- A raw leaf whose brackets are counted: the key that its bytes are delivered under, and its
tokens. -/
structure Capture where
  key : String
  stretch : Stretch
  deriving DecidableEq, Repr

/-- What is to be done with a value: pass over it, build all of it, cut its bytes out under a
name, or build what a group asks of it. -/
inductive Treatment where
  | skip
  | keep
  | capture (name : String)
  | project (group : Group)
  deriving DecidableEq, Repr

structure Window where
  bytes : ByteArray
  base : Nat

def Window.slice (window : Window) (span : Span) : Bytes :=
  (window.bytes.extract (span.start - window.base) (span.stop - window.base)).data.toList

/-- The bytes of the window from an offset on, which may lie before it. -/
def Window.suffix (window : Window) (start : Nat) : Bytes :=
  (window.bytes.extract (start - window.base) window.bytes.size).data.toList

def Window.upTo (window : Window) (stop : Nat) : Bytes :=
  (window.bytes.extract 0 (stop - window.base)).data.toList

def Expect.first : Container → Expect
  | .object => .key true
  | .array => .item true

/-- A frame takes a finished value, if one was built, and waits for a separator. -/
def Frame.accept (frame : Frame) (value? : Option Json.Value) : Frame :=
  let building :=
    match frame.building, frame.expect, value? with
    | .slots values, .value (.field index), some value => .slots (values.set index (some value))
    | .members list, .value (.kept key), some value => .members (Json.Members.put list key value)
    | .items latest, _, some value => .items (value :: latest)
    | building, _, _ => building
  { frame with expect := .separator, building }

def filledSlots (group : Group) (values : List (Option Json.Value)) :
    List (String × Json.Value) :=
  (group.fields.zip values).filterMap fun (field, value?) => value?.map (field.1, ·)

def Frame.result? (frame : Frame) : Option Json.Value :=
  match frame.building with
  | .slots values => some (.object (filledSlots (frame.group.getD .empty) values))
  | .members list => some (.object list)
  | .items latest => some (.array latest.reverse)
  | .records => none
  | .nothing => none

def Frame.key (frame : Frame) (name : String) : Key :=
  match frame.group with
  | none => .kept name
  | some group =>
    match group.lookup name with
    | some (index, _) => .field index
    | none => .ignored

def Frame.treatment (frame : Frame) (mode : EmitMode) : Treatment :=
  match frame.group with
  | none => .keep
  | some group =>
    match frame.container, frame.expect with
    | .array, _ => .project group
    | .object, .value (.field index) =>
      match group.fields[index]?, mode with
      | some (_, .leaf), .materialize => .keep
      | some (name, .leaf), .raw => .capture name
      | some (_, .nested child), _ => .project child
      | none, _ => .skip
    | .object, _ => .skip

end Walk

open Walk

/-- The state of a walk. Tokens go into `skip`, a stretch that is passed over, or into `raw`, a raw
leaf, or to the stack if there is neither. `carry` holds, latest first, the bytes of a raw leaf that
began in an earlier chunk, and `single` tells that just one root value is wanted. -/
structure Walker where
  stack : List Frame
  skip : Option Stretch
  raw : Option Capture
  carry : Bytes
  latest : List Match
  matched : Nat
  skipped : Nat
  roots : Nat
  shape : Option RootShape
  single : Bool
  deriving Repr

namespace Walker

def new : Walker :=
  ⟨[], none, none, [], [], 0, 0, 0, none, false⟩

def skipDepth (walker : Walker) : Nat :=
  match walker.skip with
  | some stretch => stretch.depth
  | none => 0

def captureDepth (walker : Walker) : Nat :=
  match walker.raw with
  | some capture => capture.stretch.depth
  | none => 0

def openBrackets (walker : Walker) : Nat :=
  walker.stack.length + walker.skipDepth + walker.captureDepth

def deliver (walker : Walker) (found : Match) : Walker :=
  { walker with latest := found :: walker.latest, matched := walker.matched + 1 }

/-- Hands a finished value, if one was built, to the container around it. A root value is delivered,
and so is an item of a root array. -/
def complete (walker : Walker) (value? : Option Json.Value) : Walker :=
  match walker.stack with
  | [] =>
    let walker := { walker with roots := walker.roots + 1 }
    match value? with
    | some value => walker.deliver (.value value)
    | none => walker
  | frame :: rest =>
    let walker := { walker with stack := frame.accept value? :: rest }
    match frame.building, value? with
    | .records, some value => walker.deliver (.value value)
    | _, _ => walker

/-- Delivers the bytes of a raw leaf: out of the window, or out of the carried bytes and the front
of the window. -/
def deliverRaw (walker : Walker) (window : Window) (key : String) (span : Span) : Walker :=
  if window.base ≤ span.start then walker.deliver (.raw ⟨key, span, window.slice span⟩)
  else
    let bytes := walker.carry.reverse ++ window.upTo span.stop
    { walker with carry := [] }.deliver (.raw ⟨key, span, bytes⟩)

def openFrame (walker : Walker) (container : Container) (group : Option Group)
    (building : Building) : Walker :=
  { walker with stack := ⟨container, group, Expect.first container, building⟩ :: walker.stack }

def projected (walker : Walker) (mode : EmitMode) (container : Container) (group : Group) :
    Building :=
  match mode, container with
  | .raw, _ => .nothing
  | .materialize, .object => .slots (List.replicate group.size none)
  | .materialize, .array => if walker.stack.isEmpty then .records else .items []

def refuse (walker : Walker) (token : Token) (expected : ExpectedToken) :
    Walker × Option StructuralError :=
  (walker, some (.unexpected token.kind expected token.span.start))

def begin (walker : Walker) (mode : EmitMode) (window : Window) (treatment : Treatment)
    (token : Token) : Walker × Option StructuralError :=
  match token.kind.opens?, token.kind.scalar? with
  | some container, _ =>
    match treatment with
    | .skip => ({ walker with skip := some ⟨1, token.span.start⟩ }, none)
    | .capture key => ({ walker with raw := some ⟨key, ⟨1, token.span.start⟩⟩ }, none)
    | .keep =>
      let building := match container with
        | .object => .members []
        | .array => .items []
      (walker.openFrame container none building, none)
    | .project group =>
      (walker.openFrame container (some group) (walker.projected mode container group), none)
  | none, none => walker.refuse token .value
  | none, some value =>
    match treatment with
    | .skip =>
      ({ walker with skipped := walker.skipped + token.span.length }.complete none, none)
    | .capture key => ((walker.deliverRaw window key token.span).complete none, none)
    | .keep => (walker.complete (some value), none)
    | .project _ =>
      match mode with
      | .materialize => (walker.complete (some value), none)
      | .raw => (walker.complete none, none)

/-- A token while no container is open. The root is projected like a nested field. -/
def beginRoot (walker : Walker) (plan : Plan) (window : Window) (token : Token) :
    Walker × Option StructuralError :=
  if walker.single && 0 < walker.roots then
    (walker, some (.trailingData token.span.start))
  else
    let shape := if token.kind = .openArray then .array else .single
    { walker with shape := some shape }.begin plan.mode window (.project plan.group) token

/-- A closing bracket where the innermost container may end. A bracket of the wrong sort is refused
after that container was given up. -/
def close (walker : Walker) (token : Token) : Walker × Option StructuralError :=
  match walker.stack with
  | [] => walker.refuse token .value
  | frame :: rest =>
    let walker := { walker with stack := rest }
    if token.kind.closes? = some frame.container then (walker.complete frame.result?, none)
    else (walker, some (.mismatchedClose token.span.start))

def expecting (walker : Walker) (frame : Frame) (rest : List Frame) (expect : Expect) :
    Walker × Option StructuralError :=
  ({ walker with stack := { frame with expect } :: rest }, none)

def pushFrame (walker : Walker) (mode : EmitMode) (window : Window) (frame : Frame)
    (rest : List Frame) (token : Token) : Walker × Option StructuralError :=
  match frame.expect with
  | .key orClose =>
    match token.kind with
    | .string name => walker.expecting frame rest (.colon (frame.key name))
    | .closeArray => (walker, some (.mismatchedClose token.span.start))
    | .closeObject => if orClose then walker.close token else walker.refuse token .key
    | _ => walker.refuse token (if orClose then .keyOrClose else .key)
  | .colon key =>
    match token.kind with
    | .colon => walker.expecting frame rest (.value key)
    | _ => walker.refuse token .colon
  | .value _ => walker.begin mode window (frame.treatment mode) token
  | .item orClose =>
    if orClose && token.kind = .closeArray then walker.close token
    else walker.begin mode window (frame.treatment mode) token
  | .separator =>
    match token.kind with
    | .comma =>
      match frame.container with
      | .object => walker.expecting frame rest (.key false)
      | .array => walker.expecting frame rest (.item false)
    | .closeObject => walker.close token
    | .closeArray => walker.close token
    | _ => walker.refuse token .separator

def endOfInput (walker : Walker) (offset : Nat) : Walker × Option StructuralError :=
  if 0 < walker.openBrackets then (walker, some (.truncated walker.openBrackets offset))
  else if walker.single && walker.roots == 0 then (walker, some .empty)
  else (walker, none)

def push (walker : Walker) (plan : Plan) (window : Window) (token : Token) :
    Walker × Option StructuralError :=
  if token.kind = .endOfInput then walker.endOfInput token.span.start
  else
    match walker.skip with
    | some stretch =>
      let stretch := stretch.push token.kind
      if stretch.depth = 0 then
        let skipped := walker.skipped + (token.span.stop - stretch.start)
        ({ walker with skip := none, skipped }.complete none, none)
      else ({ walker with skip := some stretch }, none)
    | none =>
      match walker.raw with
      | some ⟨key, stretch⟩ =>
        let stretch := stretch.push token.kind
        if stretch.depth = 0 then
          let walker := { walker with raw := none }
          ((walker.deliverRaw window key ⟨stretch.start, token.span.stop⟩).complete none, none)
        else ({ walker with raw := some ⟨key, stretch⟩ }, none)
      | none =>
        match walker.stack with
        | [] => walker.beginRoot plan window token
        | frame :: rest => walker.pushFrame plan.mode window frame rest token

def awaitsRawLeaf (walker : Walker) (mode : EmitMode) : Bool :=
  walker.skip.isNone && walker.raw.isNone &&
    match walker.stack with
    | [] => false
    | frame :: _ =>
      match frame.expect, frame.treatment mode with
      | .value _, .capture _ => true
      | _, _ => false

/-- Where the raw leaf under way started: a captured container, or a scalar whose token, which
started at `pendingStart?`, is not complete. -/
def rawStart? (walker : Walker) (mode : EmitMode) (pendingStart? : Option Nat) : Option Nat :=
  match walker.raw with
  | some capture => some capture.stretch.start
  | none => if walker.awaitsRawLeaf mode then pendingStart? else none

/-- The end of a chunk: the bytes of the raw leaf under way are kept, and no others. -/
def endChunk (walker : Walker) (mode : EmitMode) (window : Window) (pendingStart? : Option Nat) :
    Walker :=
  match walker.rawStart? mode pendingStart? with
  | some start => { walker with carry := (window.suffix start).reverse ++ walker.carry }
  | none => { walker with carry := [] }

end Walker
end JsonProjection

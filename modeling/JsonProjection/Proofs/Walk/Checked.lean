import JsonProjection.Projection.Walker

/-!
A walk in which every difference, slice and index is checked.

The functions below take the steps of a walk, and give up where a difference would be negative,
where a slice would leave its window, and where an index would not be below the length of its list.
-/

namespace JsonProjection

/-! ### Checked operations -/

def minus? (left right : Nat) : Option Nat :=
  if right ≤ left then some (left - right) else none

namespace Walk

def Window.range? (window : Window) (start stop : Nat) : Option Bytes :=
  if start ≤ stop ∧ stop ≤ window.bytes.size then
    some (window.bytes.extract start stop).data.toList
  else none

def Window.slice? (window : Window) (span : Span) : Option Bytes := do
  let start ← minus? span.start window.base
  let stop ← minus? span.stop window.base
  window.range? start stop

def Window.upTo? (window : Window) (stop : Nat) : Option Bytes := do
  let stop ← minus? stop window.base
  window.range? 0 stop

def Window.suffix? (window : Window) (start : Nat) : Option Bytes :=
  window.range? (start - window.base) window.bytes.size

def Stretch.push? (stretch : Stretch) (kind : Token.Kind) : Option Stretch :=
  if kind.opens?.isSome then some { stretch with depth := stretch.depth + 1 }
  else if kind.closes?.isSome then
    (minus? stretch.depth 1).map fun depth => { stretch with depth }
  else some stretch

def Frame.accept? (frame : Frame) (value? : Option Json.Value) : Option Frame :=
  match frame.building, frame.expect, value? with
  | .slots values, .value (.field index), some _ =>
    if index < values.length then some (frame.accept value?) else none
  | _, _, _ => some (frame.accept value?)

def Frame.key? (frame : Frame) (name : String) : Option Key :=
  match frame.group with
  | none => some (.kept name)
  | some group =>
    match group.fields.findIdx? (·.1 == name) with
    | none => some .ignored
    | some index => if index < group.size then some (.field index) else none

def Frame.treatment? (frame : Frame) (mode : EmitMode) : Option Treatment :=
  match frame.group, frame.container, frame.expect with
  | some group, .object, .value (.field index) =>
    if index < group.size then some (frame.treatment mode) else none
  | _, _, _ => some (frame.treatment mode)

end Walk

open Walk

namespace Walker

def deliverRaw? (walker : Walker) (window : Window) (key : String) (span : Span) :
    Option Walker :=
  if window.base ≤ span.start then do
    let bytes ← window.slice? span
    some (walker.deliver (.raw ⟨key, span, bytes⟩))
  else do
    let front ← window.upTo? span.stop
    some ({ walker with carry := [] }.deliver (.raw ⟨key, span, walker.carry.reverse ++ front⟩))

def complete? (walker : Walker) (value? : Option Json.Value) : Option Walker :=
  match walker.stack with
  | [] => some (walker.complete value?)
  | frame :: _ => (frame.accept? value?).map fun _ => walker.complete value?

def begin? (walker : Walker) (mode : EmitMode) (window : Window) (treatment : Treatment)
    (token : Token) : Option (Walker × Option StructuralError) :=
  match token.kind.opens?, token.kind.scalar?, treatment with
  | none, some _, .skip => do
    let length ← minus? token.span.stop token.span.start
    let walker ← { walker with skipped := walker.skipped + length }.complete? none
    some (walker, none)
  | none, some _, .capture key => do
    let walker ← walker.deliverRaw? window key token.span
    let walker ← walker.complete? none
    some (walker, none)
  | none, some value, .keep => do
    let walker ← walker.complete? (some value)
    some (walker, none)
  | none, some value, .project _ => do
    let walker ← walker.complete? (if mode = .materialize then some value else none)
    some (walker, none)
  | _, _, _ => some (walker.begin mode window treatment token)

def beginRoot? (walker : Walker) (plan : Plan) (window : Window) (token : Token) :
    Option (Walker × Option StructuralError) :=
  if walker.single && 0 < walker.roots then
    some (walker, some (.trailingData token.span.start))
  else
    let shape := if token.kind = .openArray then .array else .single
    { walker with shape := some shape }.begin? plan.mode window (.project plan.group) token

def close? (walker : Walker) (token : Token) : Option (Walker × Option StructuralError) :=
  match walker.stack with
  | [] => some (walker.refuse token .value)
  | frame :: rest =>
    let walker := { walker with stack := rest }
    if token.kind.closes? = some frame.container then do
      let walker ← walker.complete? frame.result?
      some (walker, none)
    else some (walker, some (.mismatchedClose token.span.start))

def pushFrame? (walker : Walker) (mode : EmitMode) (window : Window) (frame : Frame)
    (rest : List Frame) (token : Token) : Option (Walker × Option StructuralError) :=
  match frame.expect with
  | .key orClose =>
    match token.kind with
    | .string name => do
      let key ← frame.key? name
      some (walker.expecting frame rest (.colon key))
    | .closeArray => some (walker, some (.mismatchedClose token.span.start))
    | .closeObject => if orClose then walker.close? token else some (walker.refuse token .key)
    | _ => some (walker.refuse token (if orClose then .keyOrClose else .key))
  | .colon key =>
    match token.kind with
    | .colon => some (walker.expecting frame rest (.value key))
    | _ => some (walker.refuse token .colon)
  | .value _ => do
    let treatment ← frame.treatment? mode
    walker.begin? mode window treatment token
  | .item orClose =>
    if orClose && token.kind = .closeArray then walker.close? token
    else do
      let treatment ← frame.treatment? mode
      walker.begin? mode window treatment token
  | .separator =>
    match token.kind with
    | .comma =>
      match frame.container with
      | .object => some (walker.expecting frame rest (.key false))
      | .array => some (walker.expecting frame rest (.item false))
    | .closeObject => walker.close? token
    | .closeArray => walker.close? token
    | _ => some (walker.refuse token .separator)

def push? (walker : Walker) (plan : Plan) (window : Window) (token : Token) :
    Option (Walker × Option StructuralError) :=
  if token.kind = .endOfInput then some (walker.endOfInput token.span.start)
  else
    match walker.skip with
    | some stretch => do
      let stretch ← stretch.push? token.kind
      if stretch.depth = 0 then do
        let length ← minus? token.span.stop stretch.start
        let skipped := walker.skipped + length
        let walker ← { walker with skip := none, skipped }.complete? none
        some (walker, none)
      else some ({ walker with skip := some stretch }, none)
    | none =>
      match walker.raw with
      | some ⟨key, stretch⟩ => do
        let stretch ← stretch.push? token.kind
        if stretch.depth = 0 then do
          let walker := { walker with raw := none }
          let walker ← walker.deliverRaw? window key ⟨stretch.start, token.span.stop⟩
          let walker ← walker.complete? none
          some (walker, none)
        else some ({ walker with raw := some ⟨key, stretch⟩ }, none)
      | none =>
        match walker.stack with
        | [] => walker.beginRoot? plan window token
        | frame :: rest => walker.pushFrame? plan.mode window frame rest token

def leafStart? (walker : Walker) (mode : EmitMode) (pendingStart? : Option Nat) :
    Option (Option Nat) :=
  match walker.skip, walker.raw, walker.stack with
  | none, none, frame :: _ => do
    let _ ← frame.treatment? mode
    some (walker.rawStart? mode pendingStart?)
  | _, _, _ => some (walker.rawStart? mode pendingStart?)

def endChunk? (walker : Walker) (mode : EmitMode) (window : Window) (pendingStart? : Option Nat) :
    Option Walker := do
  match ← walker.leafStart? mode pendingStart? with
  | some start => do
    let bytes ← window.suffix? start
    some { walker with carry := bytes.reverse ++ walker.carry }
  | none => some { walker with carry := [] }

end Walker
end JsonProjection

import JsonProjection.Error
import JsonProjection.Projection.Engine
import JsonProjection.Selection.Query

/-!
Requests to a worker, and how a worker answers them.

A worker keeps the engine of the last query at its desk and uses it again for the same query in the
same mode. A response tells of errors in the query and in the document by their texts.
-/

namespace JsonProjection

/-- One document to be projected. The response carries the same `id`. -/
structure WorkRequest where
  id : Nat
  line : Bytes
  query : String
  mode : EmitMode
  deriving DecidableEq, Repr

structure WorkResponse where
  id : Nat
  result? : Option Json.Value
  raws : List RawMatch
  error? : Option String
  deriving Repr

namespace WorkResponse

def ofDocument (id : Nat) (document : Document) : WorkResponse :=
  ⟨id, document.value?, document.raws, none⟩

def ofError (id : Nat) (error : QueryError) : WorkResponse :=
  ⟨id, none, [], some error.message⟩

end WorkResponse

structure Desk where
  prepared? : Option (String × Engine)
  deriving Repr

namespace Desk

def empty : Desk :=
  ⟨none⟩

def engineFor (desk : Desk) (query : String) (mode : EmitMode) : Except SyntaxError Engine :=
  let build := (compile query).map fun group => Engine.new group (EngineOptions.ofMode mode)
  match desk.prepared? with
  | none => build
  | some (prepared, engine) =>
    if prepared = query && engine.plan.mode = mode then .ok engine else build

/-- Answers a request. A query that cannot be read leaves no engine ready. -/
def answer (desk : Desk) (request : WorkRequest) : Desk × WorkResponse :=
  match desk.engineFor request.query request.mode with
  | .error error => (empty, .ofError request.id (.query error))
  | .ok engine =>
    match engine.run request.line with
    | (engine, .error error) =>
      (⟨some (request.query, engine)⟩, .ofError request.id (.document error))
    | (engine, .ok document) =>
      (⟨some (request.query, engine)⟩, .ofDocument request.id document)

end Desk
end JsonProjection

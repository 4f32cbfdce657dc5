import JsonProjection.Proofs.Engine.Project
import JsonProjection.Proofs.Syntax.Printed

/-!
Projecting what was projected and printed.

The compact text of a value is executed like any document, and leaves out of the value what is not
asked for. Of a value that was projected to the same group nothing is left out.
-/

namespace JsonProjection.Engine

open Json

theorem execute_iff {engine : Engine} {source : Bytes} {value : Value} :
    (engine.execute source).2 = .ok (some value) ↔
      ∃ document, (engine.run source).2 = .ok document ∧ document.value? = some value := by
  have mapped : (engine.execute source).2 = (engine.run source).2.map Document.value? := rfl
  rw [mapped]
  cases (engine.run source).2 with
  | error error =>
      refine ⟨fun executed => ?_, fun ⟨document, run, _⟩ => ?_⟩
      · cases executed
      · cases run
  | ok document =>
      refine ⟨fun executed => ⟨document, rfl, Except.ok.inj executed⟩, ?_⟩
      rintro ⟨own, run, whole⟩
      cases run
      exact congrArg Except.ok whole

theorem execute_readable {engine : Engine} (reached : engine.Reached)
    (builds : engine.plan.mode = .materialize) {source : Bytes} {value : Value}
    (executed : (engine.execute source).2 = .ok (some value)) :
    value.Readable ∧ value.restrict engine.plan.group = value := by
  have distinct := reached.distinct
  obtain ⟨document, run, whole⟩ := execute_iff.mp executed
  obtain ⟨tokens, tree, lexed, spelled, fits⟩ := run_fitting reached run
  obtain ⟨own, same, projects⟩ := run_fits reached builds lexed fits spelled
  rw [run] at same
  cases same
  rw [projects.value] at whole
  have projected : tree.project engine.plan.group = value := Option.some.inj whole
  have spellable : Spellable tree.kinds := spelled ▸ (layout_of_readOn lexed).spellable
  rw [← projected]
  exact ⟨tree.project_readable distinct spellable,
    tree.restrict_project distinct.contained distinct⟩

theorem execute_compact {engine : Engine} (reached : engine.Reached)
    (builds : engine.plan.mode = .materialize) {value : Value} (readable : value.Readable)
    (reads : ∀ atom ∈ value.atoms, atom.ReadsBack) :
    (engine.execute (Text.Utf8.encode value.compact)).2 =
      .ok (some (value.restrict engine.plan.group)) := by
  obtain ⟨tokens, layout, spelled⟩ := value.rereads reads 0
  rw [← value.encode_compact] at layout
  have fits : (value.tree).Fits engine.plan.mode (.project engine.plan.group) :=
    readable.tree_json.fits fun name other => by cases other
  obtain ⟨document, run, projects⟩ := run_fits reached builds layout.readOn fits spelled
  rw [← readable.project_tree]
  exact execute_iff.mpr ⟨document, run, projects.value⟩

/-- A projection is projected to itself from its compact text, and so has the same text again. -/
theorem execute_printed {engine reader : Engine} (reached : engine.Reached)
    (reading : reader.Reached) (builds : engine.plan.mode = .materialize)
    (rebuilds : reader.plan.mode = .materialize) (same : reader.plan.group = engine.plan.group)
    {source : Bytes} {value : Value} (executed : (engine.execute source).2 = .ok (some value))
    (printable : ∀ text, .string text ∈ value.atoms → ∀ c ∈ text.toList, 0x20 ≤ c.toNat)
    (doubles : ∀ x, .float x ∈ value.atoms →
      Numeral.float? (Text.Utf8.encode (Value.float x).compact) = some x) :
    (reader.execute (Text.Utf8.encode value.compact)).2 = .ok (some value) := by
  obtain ⟨readable, settled⟩ := execute_readable reached builds executed
  have reads : ∀ atom ∈ value.atoms, atom.ReadsBack := by
    intro atom member
    cases atom with
    | integer n => exact readable.integer_fits member
    | float x => exact doubles x member
    | string text => exact printable text member
    | _ => trivial
  rw [execute_compact reading rebuilds readable reads, same, settled]

/-- From `{"x":0,"a":1.5}` the field `a` is kept, and kept again from `{"a":1.5}`. -/
theorem execute_printed_double :
    ((new (Group.withField .empty "a" .leaf) (.ofMode .materialize)).execute
        (Text.Utf8.encode
          (Value.object [("a", .float ⟨false, 0x3FF8000000000000⟩)]).compact)).2 =
      .ok (some (.object [("a", .float ⟨false, 0x3FF8000000000000⟩)])) := by
  have json : (Tree.object [("x", .scalar ⟨.number (.unsigned 0), .integer 0, rfl⟩),
      ("a", .scalar ⟨.number (.float ⟨false, 0x3FF8000000000000⟩), _, rfl⟩)]).IsJson :=
    .object (List.forall_mem_cons.mpr ⟨.scalar _, List.forall_mem_cons.mpr ⟨.scalar _,
      List.forall_mem_nil _⟩⟩)
  have lexed : Lexing.of
      [0x7B, 0x22, 0x78, 0x22, 0x3A, 0x30, 0x2C, 0x22, 0x61, 0x22, 0x3A, 0x31, 0x2E, 0x35, 0x7D] =
      ⟨[⟨.openObject, 0, 1⟩, ⟨.string "x", 1, 4⟩, ⟨.colon, 4, 5⟩, ⟨.number (.unsigned 0), 5, 6⟩,
        ⟨.comma, 6, 7⟩, ⟨.string "a", 7, 10⟩, ⟨.colon, 10, 11⟩,
        ⟨.number (.float ⟨false, 0x3FF8000000000000⟩), 11, 14⟩, ⟨.closeObject, 14, 15⟩], none⟩ := by
    decide +kernel
  have reached : (new (Group.withField .empty "a" .leaf) (.ofMode .materialize)).Reached :=
    .new (.leaf .empty "a") (.ofMode .materialize)
  obtain ⟨document, run, projects⟩ :=
    run_fits reached rfl lexed (json.fits fun name other => by cases other) rfl
  have half : Numeral.float? (Text.Utf8.encode
      (Value.float ⟨false, 0x3FF8000000000000⟩).compact) = some ⟨false, 0x3FF8000000000000⟩ := by
    decide +kernel
  refine execute_printed reached reached rfl rfl rfl
    (execute_iff.mpr ⟨document, run, projects.value⟩) ?_ ?_
  · intro text member
    rcases List.mem_cons.mp member with key | member
    · cases key
      exact List.forall_mem_singleton.mpr (by decide)
    · cases List.mem_singleton.mp member
  · intro x member
    rcases List.mem_cons.mp member with key | member
    · cases key
    · cases List.mem_singleton.mp member
      exact half

end JsonProjection.Engine

import JsonProjection.Proofs.Syntax.Project
import JsonProjection.Proofs.Walk.Carry

/-!
Walking over the values that a selection does not look into.

The bytes of such a value are skipped, or cut out as a raw leaf. Either way the walk behind it is
the walk in front of it with a part more passed.
-/

namespace JsonProjection

open Walk

/-! ### Passing parts -/

def Part.leaf (source : Bytes) (part : Part) : Match :=
  .raw ⟨part.key, part.span, part.span.of source⟩

def Part.found (mode : EmitMode) (source : Bytes) (parts : List Part) : List Match :=
  match mode with
  | .materialize => []
  | .raw => (parts.filter (·.selected)).map (Part.leaf source)

def Part.skipped : List Part → Nat
  | [] => 0
  | part :: rest => (if part.selected then 0 else part.span.length) + Part.skipped rest

theorem Part.skipped_append (first second : List Part) :
    Part.skipped (first ++ second) = Part.skipped first + Part.skipped second := by
  induction first with
  | nil => exact (Nat.zero_add _).symm
  | cons part rest ih => rw [List.cons_append, skipped, skipped, ih, Nat.add_assoc]

namespace Walker

def deliverAll (walker : Walker) (found : List Match) : Walker :=
  { walker with
    latest := found.reverse ++ walker.latest, matched := walker.matched + found.length }

def pass (walker : Walker) (mode : EmitMode) (source : Bytes) (parts : List Part) : Walker :=
  { walker.deliverAll (Part.found mode source parts) with
    skipped := walker.skipped + Part.skipped parts }

variable {walker : Walker} {mode : EmitMode} {source : Bytes}

@[simp]
theorem deliverAll_nil (walker : Walker) : walker.deliverAll [] = walker :=
  rfl

theorem deliverAll_append (walker : Walker) (first second : List Match) :
    walker.deliverAll (first ++ second) = (walker.deliverAll first).deliverAll second := by
  simp only [deliverAll, List.reverse_append, List.append_assoc, List.length_append,
    Nat.add_assoc]

@[simp]
theorem pass_nil (walker : Walker) (mode : EmitMode) (source : Bytes) :
    walker.pass mode source [] = walker := by
  cases mode <;> rfl

theorem pass_append (walker : Walker) (mode : EmitMode) (source : Bytes)
    (first second : List Part) :
    walker.pass mode source (first ++ second) =
      (walker.pass mode source first).pass mode source second := by
  have found : Part.found mode source (first ++ second) =
      Part.found mode source first ++ Part.found mode source second := by
    cases mode with
    | materialize => rfl
    | raw => simp only [Part.found, List.filter_append, List.map_append]
  simp only [pass, found, Part.skipped_append, deliverAll, List.reverse_append, List.append_assoc,
    List.length_append, Nat.add_assoc]

theorem deliverAll_pass {found : List Match} (apart : mode = .materialize ∨ found = [])
    (parts : List Part) :
    (walker.deliverAll found).pass mode source parts =
      (walker.pass mode source parts).deliverAll found := by
  rcases apart with rfl | rfl <;> rfl

end Walker

/-! ### Where a value starts -/

def Walk.Treatment.ofGroup : Option Group → Treatment
  | none => .keep
  | some group => .project group

namespace Walker

/-- A value comes next inside a container, and is to be treated so. -/
def Awaits (walker : Walker) (mode : EmitMode) (treatment : Treatment) : Prop :=
  walker.Free ∧ ∃ frame rest, walker.stack = frame :: rest ∧
    frame.treatment mode = treatment ∧
    ((∃ key, frame.expect = .value key) ∨ ∃ orClose, frame.expect = .item orClose)

variable {plan : Plan} {window : Window} {walker : Walker} {treatment : Treatment}
  {token : Token}

theorem push_awaits (window : Window) (awaits : walker.Awaits plan.mode treatment)
    (begins : token.kind.opens?.isSome ∨ token.kind.scalar?.isSome) :
    walker.push plan window token = walker.begin plan.mode window treatment token := by
  obtain ⟨free, frame, rest, stack, treated, expect⟩ := awaits
  obtain ⟨open?, inner⟩ := Token.Kind.begins_ne begins
  unfold push
  rw [if_neg inner, free.skip, free.raw]
  simp only [stack]
  unfold pushFrame
  rcases expect with ⟨key, expect⟩ | ⟨orClose, expect⟩
  · simp only [expect, treated]
  · have other : (orClose && decide (token.kind = .closeArray)) = false := by
      rw [decide_eq_false open?, Bool.and_false]
    simp only [expect, treated, other, Bool.false_eq_true, if_false]

end Walker

def Walk.Building.kept : Container → Building
  | .object => .members []
  | .array => .items []

def Walk.Treatment.value? (treatment : Treatment) (mode : EmitMode) (tree : Tree) :
    Option Json.Value :=
  match treatment, mode with
  | .skip, _ => none
  | .capture _, _ => none
  | .keep, _ => some tree.whole
  | .project group, .materialize => some (tree.project group)
  | .project _, .raw => none

def Walk.Treatment.parts (treatment : Treatment) (key : String) (tree : Tree)
    (tokens : List Token) : List Part :=
  match treatment with
  | .skip => [⟨key, false, tokens, tree⟩]
  | .capture name => [⟨name, true, tokens, tree⟩]
  | .keep => []
  | .project group => tree.parts group tokens

/-- Walking along the tokens of a tree, where a value is treated so, passes its parts and completes
its value. -/
def Walks (plan : Plan) (source : Bytes) (treatment : Treatment) (tree : Tree) : Prop :=
  ∀ (walker : Walker) (key : String) (tokens : List Token),
    walker.Awaits plan.mode treatment → tokens.map (·.kind) = tree.kinds →
    walker.walk plan (Window.whole source) tokens =
      ((walker.pass plan.mode source (treatment.parts key tree tokens)).complete
        (treatment.value? plan.mode tree), none)

/-! ### Stretches -/

theorem Walk.Stretch.push_closing {kind : Token.Kind} (closes : kind.closes?.isSome)
    (stretch : Stretch) : stretch.push kind = { stretch with depth := stretch.depth - 1 } := by
  simp only [push, (Token.Kind.closes_ne closes).1, closes, Option.isSome_none,
    Bool.false_eq_true, if_false, if_true]

namespace Walker

variable {plan : Plan} {window : Window} {walker : Walker} {token : Token}

/-- Walkers that differ in the stretch under way, and whose tokens go into it until it ends. -/
def Stretches (plan : Plan) (window : Window) (wrap : Stretch → Walker) : Prop :=
  ∀ (stretch : Stretch) (token : Token), token.kind ≠ .endOfInput →
    (stretch.push token.kind).depth ≠ 0 →
    (wrap stretch).push plan window token = (wrap (stretch.push token.kind), none)

theorem stretches_skip (plan : Plan) (window : Window) (walker : Walker) :
    Stretches plan window fun stretch => { walker with skip := some stretch } := by
  intro stretch token inner opened
  simp only [push, if_neg inner, if_neg opened]

theorem stretches_raw (plan : Plan) (window : Window) (passes : walker.skip = none) (key : String) :
    Stretches plan window fun stretch => { walker with raw := some ⟨key, stretch⟩ } := by
  intro stretch token inner opened
  simp only [push, if_neg inner, passes, if_neg opened]

/-- All tokens of a stretch but the last, which closes it. -/
theorem walk_stretch {wrap : Stretch → Walker} (stretches : Stretches plan window wrap)
    {depth start : Nat} {kinds : List Token.Kind} (closes : Closes depth kinds)
    {tokens : List Token} (spelled : tokens.map (·.kind) = kinds) (opened : 0 < depth) :
    ∃ front last, tokens = front ++ [last] ∧ last.kind.closes?.isSome ∧
      (wrap ⟨depth, start⟩).walk plan window front = (wrap ⟨1, start⟩, none) := by
  -- One token in front of the rest of a stretch, with one depth behind it or another.
  have further {token : Token} {rest : List Token} {depth next : Nat}
      (inner : token.kind ≠ .endOfInput) (still : 0 < next)
      (step : Stretch.push ⟨depth, start⟩ token.kind = ⟨next, start⟩)
      (behind : ∃ front last, rest = front ++ [last] ∧ last.kind.closes?.isSome ∧
        (wrap ⟨next, start⟩).walk plan window front = (wrap ⟨1, start⟩, none)) :
      ∃ front last, token :: rest = front ++ [last] ∧ last.kind.closes?.isSome ∧
        (wrap ⟨depth, start⟩).walk plan window front = (wrap ⟨1, start⟩, none) := by
    have pushed := stretches ⟨depth, start⟩ token inner (by rw [step]; exact Nat.ne_of_gt still)
    rw [step] at pushed
    obtain ⟨front, last, split, closing, walked⟩ := behind
    refine ⟨token :: front, last, by rw [split, List.cons_append], closing, ?_⟩
    rw [walk_cons_ok pushed, walked]
  induction closes generalizing tokens with
  | last closing =>
      obtain ⟨last, rfl, rfl⟩ := List.map_eq_singleton_iff.mp spelled
      exact ⟨[], last, rfl, closing, rfl⟩
  | @opens depth kind rest opens behind ih =>
      obtain ⟨token, others, rfl, rfl, othersSpelled⟩ := List.map_eq_cons_iff.mp spelled
      refine further (Token.Kind.begins_ne (Or.inl opens)).2 (Nat.succ_pos depth) ?_
        (ih othersSpelled (Nat.succ_pos depth))
      simp only [Stretch.push, opens, if_true]
  | @closes depth kind rest closing behind ih =>
      obtain ⟨token, others, rfl, rfl, othersSpelled⟩ := List.map_eq_cons_iff.mp spelled
      exact further (Token.Kind.closes_ne closing).2 (Nat.succ_pos depth)
        (Stretch.push_closing closing _) (ih othersSpelled (Nat.succ_pos depth))
  | other noOpening noClosing inner behind ih =>
      obtain ⟨token, others, rfl, rfl, othersSpelled⟩ := List.map_eq_cons_iff.mp spelled
      refine further inner opened ?_ (ih othersSpelled opened)
      simp only [Stretch.push, noOpening, noClosing, Option.isSome_none, Bool.false_eq_true,
        if_false]

/-! ### Values that are not looked into -/

theorem begin_scalar {value : Json.Value} (scalar : token.kind.scalar? = some value)
    (mode : EmitMode) (treatment : Treatment) :
    walker.begin mode window treatment token =
      (match treatment, mode with
        | .skip, _ =>
          { walker with skipped := walker.skipped + token.span.length }.complete none
        | .capture key, _ => (walker.deliverRaw window key token.span).complete none
        | .keep, _ => walker.complete (some value)
        | .project _, .materialize => walker.complete (some value)
        | .project _, .raw => walker.complete none, none) := by
  have noOpening : token.kind.opens? = none := by
    cases kind : token.kind <;> first | rfl | (rw [kind] at scalar; cases scalar)
  unfold begin
  rw [noOpening, scalar]
  cases treatment with
  | project group => cases mode <;> rfl
  | _ => rfl

def opened (walker : Walker) (mode : EmitMode) (container : Container) (start : Nat) :
    Treatment → Walker
  | .skip => { walker with skip := some ⟨1, start⟩ }
  | .capture key => { walker with raw := some ⟨key, ⟨1, start⟩⟩ }
  | .keep => walker.openFrame container none (Building.kept container)
  | .project group =>
    walker.openFrame container (some group) (walker.projected mode container group)

theorem begin_container {container : Container} (opens : token.kind.opens? = some container)
    (mode : EmitMode) (treatment : Treatment) :
    walker.begin mode window treatment token =
      (walker.opened mode container token.span.start treatment, none) := by
  unfold begin
  rw [opens]
  cases treatment with
  | keep => cases container <;> rfl
  | _ => rfl

theorem push_container (window : Window) {treatment : Treatment}
    (awaits : walker.Awaits plan.mode treatment) {container : Container}
    (opens : token.kind.opens? = some container) :
    walker.push plan window token =
      (walker.opened plan.mode container token.span.start treatment, none) := by
  have begins : token.kind.opens?.isSome := by
    rw [opens]
    rfl
  rw [push_awaits window awaits (Or.inl begins), begin_container opens]

end Walker

variable {plan : Plan} {source : Bytes} {tree : Tree}

theorem walks_skip (passable : Passable tree.kinds) : Walks plan source .skip tree := by
  intro walker key tokens awaits spelled
  generalize tree.kinds = kinds at passable spelled
  cases passable with
  | scalar scalar =>
      obtain ⟨token, rfl, rfl⟩ := List.map_eq_singleton_iff.mp spelled
      obtain ⟨value, scalarEq⟩ := Option.isSome_iff_exists.mp scalar
      have pushed := (Walker.push_awaits (Window.whole source) awaits
        (Or.inr scalar)).trans (Walker.begin_scalar scalarEq plan.mode .skip)
      rw [Walker.walk_cons_ok pushed, Walker.walk_nil]
      cases plan.mode <;> rfl
  | stretch opens closes =>
      obtain ⟨token, others, rfl, rfl, othersSpelled⟩ := List.map_eq_cons_iff.mp spelled
      obtain ⟨container, opensEq⟩ := Option.isSome_iff_exists.mp opens
      have pushed := Walker.push_container (Window.whole source) awaits opensEq
      obtain ⟨front, last, rfl, closing, walked⟩ := Walker.walk_stretch
        (Walker.stretches_skip plan (Window.whole source) walker) closes othersSpelled Nat.one_pos
      have inner := (Token.Kind.closes_ne closing).2
      have zero : (Stretch.push ⟨1, token.span.start⟩ last.kind).depth = 0 :=
        congrArg Stretch.depth (Stretch.push_closing closing _)
      rw [Walker.walk_cons_ok pushed, Walker.opened, Walker.walk_append_ok walked]
      have closed : Walker.push { walker with skip := some ⟨1, token.span.start⟩ } plan
          (Window.whole source) last =
          ({ walker with
            skip := none
            skipped := walker.skipped + (last.span.stop - token.span.start) }.complete none,
            none) := by
        simp only [Walker.push, if_neg inner, if_pos zero, Stretch.push_start]
      rw [Walker.walk_cons_ok closed, Walker.walk_nil]
      have passes : walker.skip = none := awaits.1.skip
      have covered : Part.span ⟨key, false, token :: (front ++ [last]), tree⟩ =
          ⟨token.span.start, last.span.stop⟩ :=
        Token.cover_cons_append token last front
      have skipped : Part.skipped [⟨key, false, token :: (front ++ [last]), tree⟩] =
          last.span.stop - token.span.start := by
        simp only [Part.skipped, covered, Span.length, Bool.false_eq_true, if_false, Nat.add_zero]
      have found : Part.found plan.mode source
          [⟨key, false, token :: (front ++ [last]), tree⟩] = [] := by
        cases plan.mode <;> rfl
      simp only [Walker.pass, Treatment.parts, Treatment.value?, skipped, found, ← passes]
      rfl

theorem walks_capture (raw : plan.mode = .raw) (name : String) (passable : Passable tree.kinds) :
    Walks plan source (.capture name) tree := by
  intro walker key tokens awaits spelled
  have found (own : List Token) : Part.found plan.mode source [⟨name, true, own, tree⟩] =
      [.raw ⟨name, Token.cover own, (Token.cover own).of source⟩] := by
    rw [raw]
    rfl
  generalize tree.kinds = kinds at passable spelled
  cases passable with
  | scalar scalar =>
      obtain ⟨token, rfl, rfl⟩ := List.map_eq_singleton_iff.mp spelled
      obtain ⟨value, scalarEq⟩ := Option.isSome_iff_exists.mp scalar
      have pushed := (Walker.push_awaits (Window.whole source) awaits
        (Or.inr scalar)).trans (Walker.begin_scalar scalarEq plan.mode (.capture name))
      simp only [Walker.deliverRaw_whole] at pushed
      rw [Walker.walk_cons_ok pushed, Walker.walk_nil]
      simp only [Walker.pass, Treatment.parts, Treatment.value?, found]
      rfl
  | stretch opens closes =>
      obtain ⟨token, others, rfl, rfl, othersSpelled⟩ := List.map_eq_cons_iff.mp spelled
      obtain ⟨container, opensEq⟩ := Option.isSome_iff_exists.mp opens
      have pushed := Walker.push_container (Window.whole source) awaits opensEq
      have passes : walker.skip = none := awaits.1.skip
      have idle : walker.raw = none := awaits.1.raw
      obtain ⟨front, last, rfl, closing, walked⟩ := Walker.walk_stretch
        (Walker.stretches_raw plan (Window.whole source) passes name) closes othersSpelled
        Nat.one_pos
      have inner := (Token.Kind.closes_ne closing).2
      have zero : (Stretch.push ⟨1, token.span.start⟩ last.kind).depth = 0 :=
        congrArg Stretch.depth (Stretch.push_closing closing _)
      rw [Walker.walk_cons_ok pushed, Walker.opened, Walker.walk_append_ok walked]
      have closed : Walker.push { walker with raw := some ⟨name, ⟨1, token.span.start⟩⟩ }
          plan (Window.whole source) last =
          ((Walker.deliver { walker with raw := none } (.raw ⟨name,
            ⟨token.span.start, last.span.stop⟩,
            Span.of ⟨token.span.start, last.span.stop⟩ source⟩)).complete none, none) := by
        simp only [Walker.push, if_neg inner, passes, if_pos zero, Stretch.push_start,
          Walker.deliverRaw_whole]
      rw [Walker.walk_cons_ok closed, Walker.walk_nil]
      simp only [Walker.pass, Treatment.parts, Treatment.value?, found,
        Token.cover_cons_append, ← idle]
      rfl

theorem walks_scalar (group? : Option Group) (own : Scalar) :
    Walks plan source (.ofGroup group?) (.scalar own) := by
  intro walker key tokens awaits spelled
  obtain ⟨token, rfl, kind⟩ := List.map_eq_singleton_iff.mp spelled
  have scalar : token.kind.scalar? = some own.value := by
    rw [kind]
    exact own.spells
  have pushed := (Walker.push_awaits (Window.whole source) awaits
    (Or.inr (by rw [scalar]; rfl))).trans (Walker.begin_scalar scalar plan.mode _)
  rw [Walker.walk_cons_ok pushed, Walker.walk_nil]
  cases group? with
  | none =>
      simp only [Treatment.ofGroup, Treatment.parts, Treatment.value?, Tree.whole, Walker.pass_nil]
  | some group =>
      simp only [Treatment.ofGroup, Treatment.parts, Treatment.value?, Tree.parts, Tree.project,
        Walker.pass_nil]
      cases plan.mode <;> rfl

end JsonProjection

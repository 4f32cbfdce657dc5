import JsonProjection.Proofs.Syntax.Parts
import JsonProjection.Proofs.Token.Ready
import JsonProjection.Proofs.Walk.Emission
import JsonProjection.Proofs.Walk.Roots

/-!
Root values deliver each match with the last token of its value.

Where values are built nothing is delivered inside a value, which is read off the walk up to its
closing bracket. Raw leaves need no look at the tree: each of them ends where it is delivered.
-/

namespace JsonProjection

open Walk

/-! ### What a root value delivers -/

/-- The items of a root array. `tokens` begin with the first item, and behind each item one token
follows. -/
def Tree.itemEmissions (group : Group) : List Tree → List Token → List Emission
  | [], _ => []
  | item :: rest, tokens =>
    ⟨.value (item.project group), tokens.take item.kinds.length⟩ ::
      Tree.itemEmissions group rest (tokens.drop (item.kinds.length + 1))

/-- What a root value delivers: its raw leaves, or the items of a root array, or itself. -/
def Plan.Root.emissions {plan : Plan} (source : Bytes) (root : plan.Root) : List Emission :=
  match plan.mode, root.tree with
  | .raw, _ =>
    (root.parts.filter (·.selected)).map fun part => ⟨part.leaf source, part.tokens⟩
  | .materialize, .array items => Tree.itemEmissions plan.group items (root.tokens.drop 1)
  | .materialize, tree => [⟨.value (tree.project plan.group), root.tokens⟩]

variable {plan : Plan} {source : Bytes} {group : Group}

/-! ### Inside a value -/

theorem Walker.pass_latest (walker : Walker) {mode : EmitMode} (builds : mode = .materialize)
    (source : Bytes) (parts : List Part) :
    (walker.pass mode source parts).latest = walker.latest := by
  rw [builds]
  rfl

theorem Walker.complete_none_latest (walker : Walker) :
    (walker.complete none).latest = walker.latest := by
  cases stack : walker.stack with
  | nil => rw [complete_of_nil stack]
  | cons frame rest =>
      rw [complete_of_cons stack]
      cases frame.building <;> rfl

section Inside

variable (builds : plan.mode = .materialize)
include builds

theorem quiet_items {items : List Tree}
    (each : ∀ item ∈ items, Walks plan source (.ofGroup (some group)) item) (walker : Walker)
    (free : walker.Free) {building : Building}
    (quiet : ∀ value?, building.emits value? = []) {tokens : List Token}
    (spelled : tokens.map (·.kind) = Tree.itemKinds true items) :
    ∃ front last middle, tokens = front ++ [last] ∧
      (walker.inside ⟨.array, some group, .item true, building⟩).walk plan (Window.whole source)
        front = (middle, none) ∧ middle.latest = walker.latest := by
  obtain ⟨front, last, expect, split, -, -, walked⟩ :=
    walk_insideItems (some group) each true walker free building (Or.inr quiet) spelled
  refine ⟨front, last, _, split, walked, ?_⟩
  rw [Building.emitted_nil quiet, Walker.deliverAll_nil]
  exact walker.pass_latest builds source _

theorem quiet_members {members : List (String × Tree)}
    (each : ∀ member ∈ members,
      Walks plan source (.ofMember (some group) plan.mode member.1) member.2) (walker : Walker)
    (free : walker.Free) {building : Building}
    (quiet : ∀ value?, building.emits value? = []) {tokens : List Token}
    (spelled : tokens.map (·.kind) = Tree.memberKinds true members) :
    ∃ front last middle, tokens = front ++ [last] ∧
      (walker.inside ⟨.object, some group, .key true, building⟩).walk plan (Window.whole source)
        front = (middle, none) ∧ middle.latest = walker.latest := by
  obtain ⟨front, last, expect, split, -, -, walked⟩ :=
    walk_insideMembers (some group) each true walker free building quiet spelled
  exact ⟨front, last, _, split, walked, walker.pass_latest builds source _⟩

variable (source) in
theorem quiet_value {tree : Tree} (fits : tree.Fits plan.mode (.project group))
    (distinct : group.Distinct) {walker : Walker}
    (awaits : walker.Awaits plan.mode (.project group)) {tokens : List Token}
    (spelled : tokens.map (·.kind) = tree.kinds) :
    ∃ front last middle, tokens = front ++ [last] ∧
      walker.walk plan (Window.whole source) front = (middle, none) ∧
      middle.latest = walker.latest := by
  cases fits with
  | scalar _ own =>
      obtain ⟨token, rfl, -⟩ := List.map_eq_singleton_iff.mp spelled
      exact ⟨[], token, walker, rfl, rfl, rfl⟩
  | @array _ items inner =>
      obtain ⟨token, others, rfl, kind, othersSpelled⟩ := List.map_eq_cons_iff.mp spelled
      have pushed := Walker.push_container (Window.whole source) awaits (opens?_openArray kind)
      obtain ⟨free, frame, rest, stack, -⟩ := awaits
      obtain ⟨front, last, middle, rfl, walked, latest⟩ := quiet_items builds
        (fun item member => walks_fits (inner item member) fun other same => by
          cases same
          exact distinct) walker free
        (fun _ => rfl : ∀ value?, (Building.items []).emits value? = []) othersSpelled
      refine ⟨token :: front, last, middle, rfl, ?_, latest⟩
      rw [Walker.walk_cons_ok pushed, ← walked]
      simp only [Walker.opened, Walker.projected, builds, stack, List.isEmpty_cons,
        Bool.false_eq_true, if_false]
      rfl
  | @object _ members inner =>
      obtain ⟨token, others, rfl, kind, othersSpelled⟩ := List.map_eq_cons_iff.mp spelled
      have pushed := Walker.push_container (Window.whole source) awaits (opens?_openObject kind)
      obtain ⟨front, last, middle, rfl, walked, latest⟩ := quiet_members builds
        (fun member inside => walks_fits (inner member inside) fun child treated =>
          distinct.treatment treated) walker awaits.1
        (fun _ => rfl : ∀ value?,
          (Building.slots (List.replicate group.size none)).emits value? = []) othersSpelled
      refine ⟨token :: front, last, middle, rfl, ?_, latest⟩
      rw [Walker.walk_cons_ok pushed, ← walked]
      simp only [Walker.opened, Walker.projected, builds]
      rfl

/-! ### Root arrays -/

variable (source) in
theorem item_emits {item : Tree} (fits : item.Fits plan.mode (.project group))
    (distinct : group.Distinct) {walker : Walker} (free : walker.Free)
    (orClose : Bool) {tokens : List Token} (spelled : tokens.map (·.kind) = item.kinds) :
    ∃ next : Walker, next.Free ∧
      (walker.inside ⟨.array, some group, .item orClose, .records⟩).walk plan (Window.whole source)
        tokens = (next.inside ⟨.array, some group, .separator, .records⟩, none) ∧
      Walker.Emits plan (Window.whole source)
        (walker.inside ⟨.array, some group, .item orClose, .records⟩) tokens
        [⟨.value (item.project group), tokens⟩] := by
  have awaits : (walker.inside ⟨.array, some group, .item orClose, .records⟩).Awaits plan.mode
      (.project group) :=
    ⟨⟨free.skip, free.raw⟩, _, _, rfl, rfl, Or.inr ⟨orClose, rfl⟩⟩
  have walks : Walks plan source (.project group) item := walks_fits fits fun other same => by
    cases same
    exact distinct
  have walked := walks _ "" tokens awaits spelled
  have built : (Treatment.project group).value? plan.mode item = some (item.project group) := by
    rw [builds]
    rfl
  rw [built, Walker.inside_pass, Walker.complete_inside, Frame.accept_item] at walked
  obtain ⟨front, last, middle, rfl, quiet, latest⟩ :=
    quiet_value source builds fits distinct awaits spelled
  refine ⟨_, ?_, walked, .last quiet latest walked ?_ List.getLast?_concat⟩
  · exact ⟨free.skip, free.raw⟩
  · have passed := walker.pass_latest builds source
      ((Treatment.project group).parts "" item (front ++ [last]))
    exact congrArg (Match.value (item.project group) :: ·) passed

variable (source) in
theorem items_emit {items : List Tree}
    (inner : ∀ item ∈ items, item.Fits plan.mode (.project group)) (distinct : group.Distinct)
    (first : Bool) {walker : Walker}
    (free : walker.Free) {tokens : List Token}
    (spelled : tokens.map (·.kind) = Tree.itemKinds first items) :
    Walker.Emits plan (Window.whole source)
      (walker.inside ⟨.array, some group, if first then .item true else .separator, .records⟩)
      tokens (Tree.itemEmissions group items (tokens.drop (separator first).length)) := by
  induction items generalizing first walker tokens with
  | nil =>
      obtain ⟨token, rfl, kind⟩ := List.map_eq_singleton_iff.mp spelled
      have closes : token.kind.closes? = some .array := by
        rw [kind]
        rfl
      have pushed := Walker.push_close plan (Window.whole source)
        ⟨.array, some group, if first then .item true else .separator, .records⟩ free
        closes (by cases first; exact Or.inr (Or.inr rfl); exact Or.inl ⟨rfl, rfl⟩)
      exact .quiet (Walker.walk_cons_ok pushed []) walker.complete_none_latest
  | cons item rest ih =>
      rw [Tree.itemKinds] at spelled
      obtain ⟨lead, others, rfl, leadSpelled, othersSpelled⟩ :=
        List.map_eq_append_iff.mp spelled
      obtain ⟨own, behind, rfl, ownSpelled, behindSpelled⟩ :=
        List.map_eq_append_iff.mp othersSpelled
      have length : item.kinds.length = own.length := by
        rw [← ownSpelled, List.length_map]
      have toItem : Walker.walk plan (Window.whole source) _ lead = _ :=
        walk_toItem (some group) first free .records leadSpelled
      obtain ⟨next, still, walked, emits⟩ :=
        item_emits source builds (inner item List.mem_cons_self) distinct free first ownSpelled
      have further := ih (fun other member => inner other (List.mem_cons_of_mem item member)) false
        still behindSpelled
      rw [drop_separator leadSpelled, Tree.itemEmissions, length, List.take_left,
        List.drop_length_add_append]
      exact (Walker.Emits.quiet toItem rfl).append toItem (emits.append walked further)

end Inside

/-! ### Root values -/

theorem Plan.Root.raw_emits (raw : plan.mode = .raw) (distinct : plan.group.Distinct)
    {walker : Walker} (awaits : walker.AwaitsRoot) (root : plan.Root) {first final : Nat}
    (chain : Token.Chain first root.tokens final) :
    Walker.Emits plan (Window.whole source) walker root.tokens (root.emissions source) := by
  have walked : walker.walk plan (Window.whole source) root.tokens = _ :=
    walk_root root.fits distinct awaits root.spelled
  have emissions : root.emissions source =
      (root.parts.filter (·.selected)).map fun part => ⟨part.leaf source, part.tokens⟩ := by
    unfold Plan.Root.emissions
    rw [raw]
  rw [emissions]
  refine .raw chain walked ?_ ?_
  · simp only [Walker.root, Walker.pass, Walker.deliverAll, Part.found, Plan.values, raw,
      List.map_map]
    rfl
  · intro emission member
    obtain ⟨part, inside, rfl⟩ := List.mem_map.mp member
    have stands := root.fits.parts_stand root.spelled part (List.mem_filter.mp inside).1
    obtain ⟨head, rest, whole⟩ := List.exists_cons_of_ne_nil stands.ne_nil
    have final := List.getLast?_eq_some_getLast stands.ne_nil
    refine ⟨_, rfl, part.tokens.getLast stands.ne_nil,
      stands.inside.subset (List.getLast_mem stands.ne_nil), final, ?_⟩
    have start : part.tokens.head? = some head := by
      rw [whole]
      rfl
    have stop := congrArg Span.stop (Token.cover_of_ends start final)
    exact stop

theorem quiet_root (builds : plan.mode = .materialize) (source : Bytes) {tree : Tree}
    (fits : tree.Fits plan.mode (.project plan.group)) (single : tree.shape = .single)
    (distinct : plan.group.Distinct) {walker : Walker} (awaits : walker.AwaitsRoot)
    {tokens : List Token} (spelled : tokens.map (·.kind) = tree.kinds) :
    ∃ front last middle, tokens = front ++ [last] ∧
      walker.walk plan (Window.whole source) front = (middle, none) ∧
      middle.latest = walker.latest := by
  cases fits with
  | scalar _ own =>
      obtain ⟨token, rfl, -⟩ := List.map_eq_singleton_iff.mp spelled
      exact ⟨[], token, walker, rfl, rfl, rfl⟩
  | array inner => cases single
  | @object _ members inner =>
      obtain ⟨token, others, rfl, kind, othersSpelled⟩ := List.map_eq_cons_iff.mp spelled
      have pushed := Walker.push_rootContainer plan (Window.whole source) awaits
        (opens?_openObject kind)
      obtain ⟨front, last, middle, rfl, walked, latest⟩ := quiet_members builds
        (fun member inside => walks_fits (inner member inside) fun child treated =>
          distinct.treatment treated) { walker with shape := some RootShape.single }
        ⟨awaits.free.skip, awaits.free.raw⟩
        (fun _ => rfl : ∀ value?,
          (Building.slots (List.replicate plan.group.size none)).emits value? = []) othersSpelled
      refine ⟨token :: front, last, middle, rfl, ?_, latest⟩
      rw [Walker.walk_cons_ok pushed, ← walked]
      simp only [Walker.projected, builds]
      rfl

theorem Plan.Root.built_emits (builds : plan.mode = .materialize) (distinct : plan.group.Distinct)
    {walker : Walker} (awaits : walker.AwaitsRoot) (root : plan.Root) :
    Walker.Emits plan (Window.whole source) walker root.tokens (root.emissions source) := by
  obtain ⟨tree, tokens, fits, spelled⟩ := root
  cases shape : tree.shape with
  | single =>
      have emissions : Plan.Root.emissions source ⟨tree, tokens, fits, spelled⟩ =
          [⟨.value (tree.project plan.group), tokens⟩] := by
        unfold Plan.Root.emissions
        rw [builds]
        cases tree <;> first | rfl | cases shape
      have values : plan.values tree = [.value (tree.project plan.group)] := by
        unfold Plan.values
        rw [builds]
        cases tree <;> first | rfl | cases shape
      have walked : walker.walk plan (Window.whole source) tokens = _ :=
        walk_root fits distinct awaits spelled
      have passed := walker.pass_latest builds source (tree.parts plan.group tokens)
      obtain ⟨front, last, middle, rfl, quiet, latest⟩ :=
        quiet_root builds source fits shape distinct awaits spelled
      rw [emissions]
      refine .last quiet latest walked ?_ List.getLast?_concat
      simp only [Walker.root, Walker.deliverAll, values, passed]
      rfl
  | array =>
      cases fits with
      | scalar => cases shape
      | object => cases shape
      | @array _ items inner =>
          obtain ⟨token, others, rfl, kind, othersSpelled⟩ := List.map_eq_cons_iff.mp spelled
          have pushed := Walker.push_rootContainer plan (Window.whole source) awaits
            (opens?_openArray kind)
          have records := Walker.projected_root awaits.stack plan.mode plan.group
          rw [builds] at records
          have emissions : Plan.Root.emissions source
              ⟨.array items, token :: others, .array inner, spelled⟩ =
              Tree.itemEmissions plan.group items others := by
            simp only [Plan.Root.emissions, builds]
            rfl
          have opened := Walker.walk_cons_ok pushed []
          simp only [builds, records] at opened
          have emits := items_emit source builds inner distinct true
            (⟨awaits.free.skip, awaits.free.raw⟩ :
              Walker.Free { walker with shape := some RootShape.array })
            othersSpelled
          rw [emissions]
          exact (Walker.Emits.quiet opened rfl).append opened emits

theorem Plan.Root.emits (distinct : plan.group.Distinct) {walker : Walker}
    (awaits : walker.AwaitsRoot) (root : plan.Root) {first final : Nat}
    (chain : Token.Chain first root.tokens final) :
    Walker.Emits plan (Window.whole source) walker root.tokens (root.emissions source) := by
  cases mode : plan.mode with
  | raw => exact raw_emits mode distinct awaits root chain
  | materialize => exact built_emits mode distinct awaits root

theorem Walker.roots_emit (distinct : plan.group.Distinct) {walker : Walker}
    (awaits : walker.AwaitsRoot) (many : walker.single = false) (roots : List plan.Root)
    {first final : Nat} (chain : Token.Chain first (roots.flatMap (·.tokens)) final) :
    Walker.Emits plan (Window.whole source) walker (roots.flatMap (·.tokens))
      (roots.flatMap (·.emissions source)) := by
  induction roots generalizing walker first with
  | nil => exact .quiet rfl rfl
  | cons root rest ih =>
      rw [List.flatMap_cons] at chain
      obtain ⟨middle, own, behind⟩ := chain.split
      have walked : walker.walk plan (Window.whole source) root.tokens = _ :=
        walk_root root.fits distinct awaits root.spelled
      have later := awaitsRoot_root awaits many plan source root.tree root.tokens
      rw [List.flatMap_cons, List.flatMap_cons]
      exact (root.emits distinct awaits own).append walked (ih later many behind)

/-! ### Where the values end -/

theorem Closes.last_closes {depth : Nat} {kinds : List Token.Kind} (closes : Closes depth kinds) :
    ∃ last, kinds.getLast? = some last ∧ last.closes?.isSome := by
  have behind {kind : Token.Kind} {rest : List Token.Kind}
      (later : ∃ last, rest.getLast? = some last ∧ last.closes?.isSome) :
      ∃ last, (kind :: rest).getLast? = some last ∧ last.closes?.isSome := by
    obtain ⟨last, final, closing⟩ := later
    refine ⟨last, ?_, closing⟩
    rw [List.getLast?_cons, final]
    rfl
  induction closes with
  | last closing => exact ⟨_, rfl, closing⟩
  | opens _ _ ih => exact behind ih
  | closes _ _ ih => exact behind ih
  | other _ _ _ _ ih => exact behind ih

namespace Emission

/-- Whether a value ends within so many bytes. Whether a number does shows with the byte behind
it. -/
def within (emission : Emission) (length : Nat) : Bool :=
  match emission.tokens with
  | [⟨.number _, span⟩] => span.stop < length
  | tokens => (Token.cover tokens).stop ≤ length

theorem within_eq {emission : Emission} (passable : Passable (emission.tokens.map (·.kind)))
    {last : Token} (final : emission.tokens.getLast? = some last) (length : Nat) :
    emission.within length = decide (last.ready ≤ length) := by
  unfold within
  split
  · rename_i value span own
    rw [own] at final
    cases final
    rfl
  · rename_i other
    have noNumber : ∀ value, last.kind ≠ .number value := by
      intro value kind
      generalize kindsEq : emission.tokens.map (·.kind) = kinds at passable
      cases passable with
      | scalar =>
          obtain ⟨token, own, -⟩ := List.map_eq_singleton_iff.mp kindsEq
          rw [own] at final
          cases final
          refine other value token.span ?_
          rw [own, ← kind]
          rfl
      | stretch _ closes =>
          obtain ⟨closing, ends, closed⟩ := closes.last_closes
          have same := congrArg List.getLast? kindsEq
          rw [List.getLast?_map, final, List.getLast?_cons, ends] at same
          obtain rfl : last.kind = closing := Option.some.inj same
          rw [kind] at closed
          cases closed
    obtain ⟨head, rest, own⟩ : ∃ head rest, emission.tokens = head :: rest := by
      refine List.exists_cons_of_ne_nil fun none => ?_
      rw [none] at final
      cases final
    have start : emission.tokens.head? = some head := by
      rw [own]
      rfl
    rw [Token.cover_of_ends start final, Token.ready_of_other noNumber]

end Emission

theorem Tree.itemEmissions_passable {mode : EmitMode} {items : List Tree}
    (inner : ∀ item ∈ items, item.Fits mode (.project group)) (first : Bool) {tokens : List Token}
    (spelled : tokens.map (·.kind) = Tree.itemKinds first items) :
    ∀ emission ∈ Tree.itemEmissions group items (tokens.drop (separator first).length),
      Passable (emission.tokens.map (·.kind)) := by
  induction items generalizing first tokens with
  | nil => exact fun _ member => absurd member List.not_mem_nil
  | cons item rest ih =>
      rw [Tree.itemKinds] at spelled
      obtain ⟨lead, others, rfl, leadSpelled, othersSpelled⟩ :=
        List.map_eq_append_iff.mp spelled
      obtain ⟨own, behind, rfl, ownSpelled, behindSpelled⟩ :=
        List.map_eq_append_iff.mp othersSpelled
      have length : item.kinds.length = own.length := by
        rw [← ownSpelled, List.length_map]
      rw [drop_separator leadSpelled, Tree.itemEmissions, length, List.take_left,
        List.drop_length_add_append]
      refine List.forall_mem_cons.mpr ⟨?_, ih (fun other member =>
        inner other (List.mem_cons_of_mem item member)) false behindSpelled⟩
      rw [ownSpelled]
      exact (inner item List.mem_cons_self).passable

theorem Plan.Root.emissions_passable (root : plan.Root) :
    ∀ emission ∈ root.emissions source, Passable (emission.tokens.map (·.kind)) := by
  obtain ⟨tree, tokens, fits, spelled⟩ := root
  cases mode : plan.mode with
  | raw =>
      intro emission member
      simp only [emissions, mode] at member
      obtain ⟨part, inside, rfl⟩ := List.mem_map.mp member
      have stands := fits.parts_stand spelled part (List.mem_filter.mp inside).1
      rw [stands.spelled]
      exact stands.passable
  | materialize =>
      have whole : Passable (tokens.map (·.kind)) := by
        rw [spelled]
        exact fits.passable
      simp only [emissions, mode]
      cases fits with
      | scalar => exact List.forall_mem_singleton.mpr whole
      | object => exact List.forall_mem_singleton.mpr whole
      | array inner =>
          obtain ⟨token, others, rfl, -, othersSpelled⟩ := List.map_eq_cons_iff.mp spelled
          exact Tree.itemEmissions_passable inner true othersSpelled

theorem Walker.Cut.filter_within {window : Window} {walker middle : Walker}
    {front back : List Token} {emissions first second : List Emission}
    (cut : Cut plan window walker front back emissions middle first second)
    (passable : ∀ emission ∈ emissions, Passable (emission.tokens.map (·.kind))) {length : Nat}
    (early : ∀ token ∈ front, token.ready ≤ length)
    (late : ∀ token ∈ back, length < token.ready) :
    emissions.filter (·.within length) = first := by
  rw [cut.split] at passable ⊢
  obtain ⟨firstPassable, secondPassable⟩ := List.forall_mem_append.mp passable
  have all : first.filter (·.within length) = first := by
    rw [List.filter_eq_self]
    intro emission member
    obtain ⟨last, inside, final⟩ := cut.ended emission member
    rw [Emission.within_eq (firstPassable emission member) final]
    exact decide_eq_true (early last inside)
  have none : second.filter (·.within length) = [] := by
    rw [List.filter_eq_nil_iff]
    intro emission member
    obtain ⟨last, inside, final⟩ := cut.later emission member
    rw [Emission.within_eq (secondPassable emission member) final, decide_eq_true_iff]
    exact Nat.not_le_of_lt (late last inside)
  rw [List.filter_append, all, none, List.append_nil]

end JsonProjection

import JsonProjection.Proofs.Walk.Recast
import JsonProjection.Proofs.Walk.Sound

/-!
A walk that wants one root value against one that takes any number of them.

The two differ only where a value begins behind a finished root value, which the first refuses.
-/

namespace JsonProjection

open Walk

namespace Walker

def withSingle (walker : Walker) (single : Bool) : Walker :=
  { walker with single }

variable {plan : Plan} {window : Window} {walker next : Walker} {token : Token}

theorem push_withSingle (plan : Plan) (window : Window) (room : walker.Room) (single : Bool)
    (inner : token.kind ≠ .endOfInput) :
    (walker.withSingle single).push plan window token =
      ((walker.push plan window token).1.withSingle single,
        (walker.push plan window token).2) := by
  have recast (walker : Walker) : walker.withSingle single = walker.recast [] single := by
    unfold withSingle Walker.recast
    rw [List.append_nil]
  rw [recast, recast]
  exact push_recast walker [] single plan window token inner (Or.inr room)

theorem push_trailing (plan : Plan) (window : Window) (full : ¬walker.Room)
    (single : walker.single = true)
    (inner : token.kind ≠ .endOfInput) :
    walker.push plan window token = (walker, some (.trailingData token.span.start)) := by
  obtain ⟨free, rest⟩ := Classical.not_imp.mp full
  obtain ⟨stack, roots⟩ := Classical.not_imp.mp rest
  have more : 0 < walker.roots := Nat.pos_of_ne_zero roots
  unfold push beginRoot
  simp only [if_neg inner, free.skip, free.raw, stack, single, more, decide_true, Bool.and_self,
    if_true]

theorem push_single (single : walker.single = true) (inner : token.kind ≠ .endOfInput)
    (pushed : walker.push plan window token = (next, none)) :
    walker.Room ∧ next.single = true := by
  by_cases room : walker.Room
  · have kept := push_fst_single walker plan window token
    rw [pushed] at kept
    exact ⟨room, kept.trans single⟩
  · rw [push_trailing plan window room single inner] at pushed
    cases pushed

/-! ### Whole walks -/

variable {tokens : List Token}

theorem walk_of_single (single : walker.single = true)
    (inner : ∀ token ∈ tokens, token.kind ≠ .endOfInput)
    (walked : walker.walk plan window tokens = (next, none)) :
    (walker.withSingle false).walk plan window tokens = (next.withSingle false, none) := by
  induction tokens generalizing walker with
  | nil =>
      cases walked
      rfl
  | cons token rest ih =>
      have own := inner token List.mem_cons_self
      obtain ⟨middle, pushed, behind⟩ := walk_cons_eq_none walked
      obtain ⟨room, kept⟩ := push_single single own pushed
      have other := push_withSingle plan window room false own
      rw [pushed] at other
      rw [walk_cons_ok other]
      exact ih kept (fun later member => inner later (List.mem_cons_of_mem token member)) behind

theorem walk_to_single (sound : walker.Sound) (one : next.begun ≤ 1)
    (inner : ∀ token ∈ tokens, token.kind ≠ .endOfInput)
    (walked : walker.walk plan window tokens = (next, none)) :
    (walker.withSingle true).walk plan window tokens = (next.withSingle true, none) := by
  induction tokens generalizing walker with
  | nil =>
      cases walked
      rfl
  | cons token rest ih =>
      have own := inner token List.mem_cons_self
      have others : ∀ later ∈ rest, later.kind ≠ .endOfInput :=
        fun later member => inner later (List.mem_cons_of_mem token member)
      obtain ⟨middle, pushed, behind⟩ := walk_cons_eq_none walked
      have middleSound := push_sound sound own pushed
      have room : walker.Room := by
        intro free stack
        have step := push_begun sound own pushed
        have bound := walk_begun_le middleSound others behind
        rw [if_pos stack] at step
        have count : walker.begun = walker.roots := by
          unfold begun
          rw [if_pos stack, Nat.add_zero]
        omega
      have other := push_withSingle plan window room true own
      rw [pushed] at other
      rw [walk_cons_ok other]
      exact ih middleSound others behind

theorem walk_single (single : walker.single = true)
    (inner : ∀ token ∈ tokens, token.kind ≠ .endOfInput)
    (walked : walker.walk plan window tokens = (next, none)) : next.single = true :=
  walk_keeps (P := fun walker _ => walker.single = true)
    (fun single inner pushed => (push_single single inner pushed).2) [] single inner walked

theorem walk_single_begun (sound : walker.Sound) (single : walker.single = true)
    (one : walker.begun ≤ 1) (inner : ∀ token ∈ tokens, token.kind ≠ .endOfInput)
    (walked : walker.walk plan window tokens = (next, none)) : next.begun ≤ 1 := by
  refine (walk_keeps (P := fun walker _ =>
    walker.Sound ∧ walker.single = true ∧ walker.begun ≤ 1) ?_ [] ⟨sound, single, one⟩ inner
    walked).2.2
  rintro walker next seen token ⟨sound, single, one⟩ inner pushed
  obtain ⟨room, kept⟩ := push_single single inner pushed
  refine ⟨push_sound sound inner pushed, kept, ?_⟩
  have step := push_begun sound inner pushed
  by_cases stack : walker.stack = []
  · have none : walker.begun = 0 := by
      unfold begun
      rw [room (sound.free_of_nil stack) stack, if_pos stack]
    rw [if_pos stack] at step
    omega
  · rw [if_neg stack] at step
    omega

end Walker
end JsonProjection

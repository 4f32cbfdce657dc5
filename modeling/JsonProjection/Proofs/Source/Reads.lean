import JsonProjection.Proofs.Source.Framing

/-!
What a reader takes of a source.

A reader of any size gets the bytes of the source, whole and in order, and breaks off only where the
source does.
-/

namespace JsonProjection.Arrival

theorem flatten_cutFrom (size room : Nat) (latest bytes : Bytes) :
    (cutFrom size room latest bytes).flatten = latest.reverse ++ bytes := by
  induction bytes generalizing room latest with
  | nil =>
      unfold cutFrom
      cases latest with
      | nil => rfl
      | cons byte rest => exact List.flatten_singleton.trans (List.append_nil _).symm
  | cons byte rest ih =>
      unfold cutFrom
      cases room with
      | zero =>
          simp only [List.flatten_cons, ih]
          rfl
      | succ room =>
          simp only [ih, List.reverse_cons, List.append_assoc]
          rfl

theorem joined_append (source rest : List Arrival) :
    joined (source ++ rest) = joined source ++ joined rest :=
  List.flatMap_append

theorem joined_chunks (chunks : List Bytes) :
    joined (chunks.map .chunk) = chunks.flatten := by
  unfold joined
  rw [List.flatMap_map]
  exact List.flatMap_id

theorem joined_reads (size : Nat) (source : List Arrival) :
    joined (reads size source) = joined source := by
  induction source with
  | nil => rfl
  | cons arrival rest ih =>
      have behind : reads size (arrival :: rest) = reads size [arrival] ++ reads size rest := by
        unfold reads
        rw [← List.flatMap_append]
        rfl
      rw [behind, joined_append, ih]
      cases arrival with
      | failure reason => rfl
      | chunk bytes =>
          have own : joined (reads size [.chunk bytes]) = bytes := by
            unfold reads
            rw [List.flatMap_singleton, joined_chunks]
            exact flatten_cutFrom _ _ [] bytes
          rw [own]
          rfl

theorem Unbroken.reads {source : List Arrival} (unbroken : Unbroken source) (size : Nat) :
    Unbroken (reads size source) := by
  intro reason failure
  obtain ⟨arrival, member, piece⟩ := List.mem_flatMap.mp failure
  cases arrival with
  | failure other => exact unbroken other member
  | chunk bytes =>
      obtain ⟨_, _, impossible⟩ := List.mem_map.mp piece
      cases impossible

end JsonProjection.Arrival

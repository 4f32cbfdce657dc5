import JsonProjection.Json.Value

/-!
Members of objects that repeat a key.

The last value of a key counts, at the place where the key first occurred.
-/

namespace JsonProjection.Json.Members

def last? (key : String) : List (String × Value) → Option Value
  | [] => none
  | (other, value) :: rest => (last? key rest).or (if other = key then some value else none)

/-- Every key once, in the order of first occurrence, with its last value. -/
def merge : List (String × Value) → List (String × Value)
  | [] => []
  | (key, value) :: rest =>
    (key, (last? key rest).getD value) :: (merge rest).filter fun member => member.1 ≠ key

def putAll (list members : List (String × Value)) : List (String × Value) :=
  members.foldl (fun list member => put list member.1 member.2) list

theorem last?_append (key : String) (first second : List (String × Value)) :
    last? key (first ++ second) = (last? key second).or (last? key first) := by
  induction first with
  | nil => exact (Option.or_none).symm
  | cons member rest ih =>
      rw [List.cons_append, last?, last?, ih, Option.or_assoc]

theorem last?_singleton (key : String) (member : String × Value) :
    last? key [member] = if member.1 = key then some member.2 else none :=
  Option.none_or

theorem put_of_absent {list : List (String × Value)} {key : String}
    (absent : key ∉ list.map Prod.fst) (value : Value) :
    put list key value = list ++ [(key, value)] := by
  induction list with
  | nil => rfl
  | cons member rest ih =>
      obtain ⟨other, behind⟩ := List.ne_and_not_mem_of_not_mem_cons absent
      rw [put, if_neg (Ne.symm other), ih behind, List.cons_append]

theorem put_of_present {list : List (String × Value)} (nodup : (list.map Prod.fst).Nodup)
    {key : String} (present : key ∈ list.map Prod.fst) (value : Value) :
    put list key value =
      list.map fun member => if member.1 = key then (member.1, value) else member := by
  induction list with
  | nil => cases present
  | cons member rest ih =>
      obtain ⟨fresh, others⟩ := List.nodup_cons.mp nodup
      rw [put, List.map_cons]
      by_cases same : member.1 = key
      · have unchanged : rest.map (fun member =>
            if member.1 = key then (member.1, value) else member) = rest := by
          rw [List.map_congr_left (g := id), List.map_id]
          intro other inside
          rw [if_neg]
          · rfl
          · intro equal
            exact fresh (same.trans equal.symm ▸ List.mem_map_of_mem inside)
        rw [if_pos same, if_pos same, unchanged]
      · have behind : key ∈ rest.map Prod.fst :=
          (List.mem_cons.mp present).resolve_left (Ne.symm same)
        rw [if_neg same, if_neg same, ih others behind]

theorem putAll_eq {list : List (String × Value)} (nodup : (list.map Prod.fst).Nodup)
    (members : List (String × Value)) :
    putAll list members =
      list.map (fun member => (member.1, (last? member.1 members).getD member.2)) ++
        (merge members).filter fun member => member.1 ∉ list.map Prod.fst := by
  induction members generalizing list with
  | nil => simp [putAll, last?, merge]
  | cons member rest ih =>
      rcases member with ⟨key, value⟩
      have unfolded : putAll list ((key, value) :: rest) = putAll (put list key value) rest := rfl
      rw [unfolded]
      by_cases present : key ∈ list.map Prod.fst
      · have keys : (put list key value).map Prod.fst = list.map Prod.fst := by
          rw [put_of_present nodup present, List.map_map]
          apply List.map_congr_left
          intro other inside
          simp only [Function.comp_apply]
          split <;> rfl
        rw [ih (keys ▸ nodup), keys, put_of_present nodup present, List.map_map]
        congr 1
        · apply List.map_congr_left
          intro other inside
          simp only [Function.comp_apply, last?]
          by_cases same : other.1 = key
          · rw [if_pos same, if_pos same.symm]
            cases last? other.1 rest <;> rfl
          · rw [if_neg same, if_neg (Ne.symm same), Option.or_none]
        · rw [merge, List.filter_cons_of_neg (by simpa using present), List.filter_filter]
          apply List.filter_congr
          intro other inside
          by_cases same : other.1 = key
          · simp [same, present]
          · simp [same]
      · have keys : (put list key value).map Prod.fst = list.map Prod.fst ++ [key] := by
          rw [put_of_absent present, List.map_append]
          rfl
        have distinct : ((put list key value).map Prod.fst).Nodup := by
          rw [keys]
          refine List.nodup_append.mpr
            ⟨nodup, List.nodup_cons.mpr ⟨List.not_mem_nil, List.nodup_nil⟩, ?_⟩
          intro other inside another same
          rw [List.mem_singleton.mp same]
          exact fun equal => present (equal ▸ inside)
        rw [ih distinct, keys, put_of_absent present, List.map_append, List.append_assoc]
        congr 1
        · apply List.map_congr_left
          intro other inside
          have different : key ≠ other.1 :=
            fun equal => present (equal ▸ List.mem_map_of_mem inside)
          simp only [last?, if_neg different, Option.or_none]
        · rw [merge, List.filter_cons_of_pos (by simpa using present), List.filter_filter]
          refine congrArg _ (List.filter_congr fun other inside => ?_)
          by_cases same : other.1 = key <;> simp [same]

theorem putAll_nil (members : List (String × Value)) : putAll [] members = merge members := by
  have nodup : (([] : List (String × Value)).map Prod.fst).Nodup := List.nodup_nil
  rw [putAll_eq nodup]
  simp

end JsonProjection.Json.Members

import JsonProjection.Text.Blank
import JsonProjection.Text.Utf8

/-!
Encoded text.

The bytes of a character are the character itself, if it is ASCII, and otherwise bytes that no ASCII
character has. Decoding reads every encoded text back.
-/

namespace JsonProjection.Text.Utf8

/-! ### Bytes of a character -/

theorem utf8EncodeChar_cases (c : Char) :
    (c.toNat < 0x80 ∧ String.utf8EncodeChar c = [UInt8.ofNat c.toNat]) ∨
      (0x80 ≤ c.toNat ∧ ∀ byte ∈ String.utf8EncodeChar c, 0x80 ≤ byte.toNat) := by
  have value : c.toNat = c.val.toNat := rfl
  rw [value]
  unfold String.utf8EncodeChar
  simp only
  have high (lead code : Nat) (width : Nat) (large : 0x80 ≤ lead) (small : lead + width ≤ 0x100)
      (positive : 0 < width) : 0x80 ≤ (UInt8.ofNat (code % width + lead)).toNat := by
    have less := Nat.mod_lt code positive
    rw [UInt8.toNat_ofNat', Nat.mod_eq_of_lt (by omega)]
    omega
  split
  · exact Or.inl ⟨by omega, rfl⟩
  split
  · refine Or.inr ⟨by omega, ?_⟩
    simp only [List.forall_mem_cons, List.not_mem_nil, false_imp_iff, implies_true, and_true]
    exact ⟨high 192 _ 32 (by decide) (by decide) (by decide),
      high 128 _ 64 (by decide) (by decide) (by decide)⟩
  split
  · refine Or.inr ⟨by omega, ?_⟩
    simp only [List.forall_mem_cons, List.not_mem_nil, false_imp_iff, implies_true, and_true]
    exact ⟨high 224 _ 16 (by decide) (by decide) (by decide),
      high 128 _ 64 (by decide) (by decide) (by decide),
      high 128 _ 64 (by decide) (by decide) (by decide)⟩
  · refine Or.inr ⟨by omega, ?_⟩
    simp only [List.forall_mem_cons, List.not_mem_nil, false_imp_iff, implies_true, and_true]
    exact ⟨high 240 _ 8 (by decide) (by decide) (by decide),
      high 128 _ 64 (by decide) (by decide) (by decide),
      high 128 _ 64 (by decide) (by decide) (by decide),
      high 128 _ 64 (by decide) (by decide) (by decide)⟩

/-! ### Reading characters back -/

theorem lead_ofNat (latest : List (Option Char)) {byte : Nat} (small : byte < 0x100) :
    Reader.lead latest (UInt8.ofNat byte) =
      if byte < 0x80 then ⟨.boundary, some (Char.ofNat byte) :: latest⟩
      else if byte < 0xC2 then ⟨.boundary, none :: latest⟩
      else if byte < 0xE0 then ⟨.inside 0 0x80 0xBF (byte - 0xC0), latest⟩
      else if byte = 0xE0 then ⟨.inside 1 0xA0 0xBF 0, latest⟩
      else if byte = 0xED then ⟨.inside 1 0x80 0x9F 0xD, latest⟩
      else if byte < 0xF0 then ⟨.inside 1 0x80 0xBF (byte - 0xE0), latest⟩
      else if byte = 0xF0 then ⟨.inside 2 0x90 0xBF 0, latest⟩
      else if byte < 0xF4 then ⟨.inside 2 0x80 0xBF (byte - 0xF0), latest⟩
      else if byte = 0xF4 then ⟨.inside 2 0x80 0x8F 4, latest⟩
      else ⟨.boundary, none :: latest⟩ := by
  have value : (UInt8.ofNat byte).toNat = byte := by
    rw [UInt8.toNat_ofNat', Nat.mod_eq_of_lt small]
  unfold Reader.lead
  simp only [UInt8.lt_iff_toNat_lt, beq_iff_eq, ← UInt8.toNat_inj, value]
  rfl

theorem push_inside (latest : List (Option Char)) (more code : Nat) {low high : UInt8} {byte : Nat}
    (small : byte < 0x100) (above : low.toNat ≤ byte) (below : byte ≤ high.toNat) :
    Reader.push ⟨.inside more low high code, latest⟩ (UInt8.ofNat byte) =
      match more with
      | 0 => ⟨.boundary, some (Char.ofNat (code * 64 + (byte - 0x80))) :: latest⟩
      | more + 1 => ⟨.inside more 0x80 0xBF (code * 64 + (byte - 0x80)), latest⟩ := by
  have value : (UInt8.ofNat byte).toNat = byte := by
    rw [UInt8.toNat_ofNat', Nat.mod_eq_of_lt small]
  have between : (decide (low ≤ UInt8.ofNat byte) && decide (UInt8.ofNat byte ≤ high)) = true := by
    simp only [UInt8.le_iff_toNat_le, value, above, below, decide_true, Bool.and_self]
  cases more <;> simp only [Reader.push, between, if_true, value]

theorem push_tail (latest : List (Option Char)) (more code rest : Nat) :
    Reader.push ⟨.inside more 0x80 0xBF code, latest⟩ (UInt8.ofNat (rest % 64 + 128)) =
      match more with
      | 0 => ⟨.boundary, some (Char.ofNat (code * 64 + rest % 64)) :: latest⟩
      | more + 1 => ⟨.inside more 0x80 0xBF (code * 64 + rest % 64), latest⟩ := by
  have less := Nat.mod_lt rest (Nat.succ_pos 63)
  have above : (0x80 : UInt8).toNat ≤ rest % 64 + 128 := Nat.le_add_left 128 _
  have below : rest % 64 + 128 ≤ (0xBF : UInt8).toNat := by
    simp only [UInt8.reduceToNat]
    omega
  rw [push_inside latest more code (by omega) above below, Nat.add_sub_cancel]

theorem lead_two (latest : List (Option Char)) {code : Nat} (large : 0x80 ≤ code)
    (small : code < 0x800) :
    Reader.lead latest (UInt8.ofNat (code / 64 % 32 + 192)) =
      ⟨.inside 0 0x80 0xBF (code / 64), latest⟩ := by
  have part : code / 64 % 32 = code / 64 := Nat.mod_eq_of_lt (by omega)
  rw [part, lead_ofNat latest (by omega), if_neg (by omega), if_neg (by omega), if_pos (by omega),
    Nat.add_sub_cancel]

theorem lead_three (latest : List (Option Char)) (code : Nat) (large : 0x800 ≤ code)
    (small : code < 0x10000) (noSurrogate : code < 0xD800 ∨ 0xDFFF < code) :
    ∃ low high : UInt8, Reader.lead latest (UInt8.ofNat (code / 4096 % 16 + 224)) =
        ⟨.inside 1 low high (code / 4096), latest⟩ ∧
      low.toNat ≤ code / 64 % 64 + 128 ∧ code / 64 % 64 + 128 ≤ high.toNat := by
  have part : code / 4096 % 16 = code / 4096 := Nat.mod_eq_of_lt (by omega)
  rw [part, lead_ofNat latest (by omega), if_neg (by omega), if_neg (by omega), if_neg (by omega)]
  by_cases first : code / 4096 = 0
  · refine ⟨0xA0, 0xBF, ?_, ?_, ?_⟩
    · rw [if_pos (by omega), first]
    · simp only [UInt8.reduceToNat]
      omega
    · simp only [UInt8.reduceToNat]
      omega
  rw [if_neg (by omega)]
  by_cases surrogate : code / 4096 = 13
  · refine ⟨0x80, 0x9F, ?_, ?_, ?_⟩
    · rw [if_pos (by omega), surrogate]
    · simp only [UInt8.reduceToNat]
      omega
    · simp only [UInt8.reduceToNat]
      omega
  · refine ⟨0x80, 0xBF, ?_, ?_, ?_⟩
    · rw [if_neg (by omega), if_pos (by omega), Nat.add_sub_cancel]
    · simp only [UInt8.reduceToNat]
      omega
    · simp only [UInt8.reduceToNat]
      omega

theorem lead_four (latest : List (Option Char)) (code : Nat) (large : 0x10000 ≤ code)
    (small : code < 0x110000) :
    ∃ low high : UInt8, Reader.lead latest (UInt8.ofNat (code / 262144 % 8 + 240)) =
        ⟨.inside 2 low high (code / 262144), latest⟩ ∧
      low.toNat ≤ code / 4096 % 64 + 128 ∧ code / 4096 % 64 + 128 ≤ high.toNat := by
  have part : code / 262144 % 8 = code / 262144 := Nat.mod_eq_of_lt (by omega)
  rw [part, lead_ofNat latest (by omega), if_neg (by omega), if_neg (by omega), if_neg (by omega),
    if_neg (by omega), if_neg (by omega), if_neg (by omega)]
  by_cases first : code / 262144 = 0
  · refine ⟨0x90, 0xBF, ?_, ?_, ?_⟩
    · rw [if_pos (by omega), first]
    · simp only [UInt8.reduceToNat]
      omega
    · simp only [UInt8.reduceToNat]
      omega
  rw [if_neg (by omega)]
  by_cases last : code / 262144 = 4
  · refine ⟨0x80, 0x8F, ?_, ?_, ?_⟩
    · rw [if_neg (by omega), if_pos (by omega), last]
    · simp only [UInt8.reduceToNat]
      omega
    · simp only [UInt8.reduceToNat]
      omega
  · refine ⟨0x80, 0xBF, ?_, ?_, ?_⟩
    · rw [if_pos (by omega), Nat.add_sub_cancel]
    · simp only [UInt8.reduceToNat]
      omega
    · simp only [UInt8.reduceToNat]
      omega

theorem foldl_char (latest : List (Option Char)) (c : Char) :
    (String.utf8EncodeChar c).foldl Reader.push ⟨.boundary, latest⟩ =
      ⟨.boundary, some c :: latest⟩ := by
  have valid : c.val.toNat < 0xD800 ∨ 0xDFFF < c.val.toNat ∧ c.val.toNat < 0x110000 := c.valid
  have value : Char.ofNat c.val.toNat = c := Char.ofNat_toNat c
  unfold String.utf8EncodeChar
  simp only
  generalize c.val.toNat = code at valid value
  have boundary (byte : UInt8) : Reader.push ⟨.boundary, latest⟩ byte = Reader.lead latest byte :=
    rfl
  split
  · rw [List.foldl_cons, boundary, lead_ofNat latest (by omega), if_pos (by omega), value]
    rfl
  split
  · have whole : code / 64 * 64 + code % 64 = code := Nat.div_add_mod' code 64
    rw [List.foldl_cons, boundary, lead_two latest (by omega) (by omega), List.foldl_cons,
      push_tail, List.foldl_nil]
    simp only [whole, value]
  split
  · obtain ⟨low, high, led, above, below⟩ :=
      lead_three latest code (by omega) (by omega) (by omega)
    have whole : (code / 4096 * 64 + code / 64 % 64) * 64 + code % 64 = code := by omega
    rw [List.foldl_cons, boundary, led, List.foldl_cons,
      push_inside latest 1 _ (by omega) above below, Nat.add_sub_cancel, List.foldl_cons,
      push_tail, List.foldl_nil]
    simp only [whole, value]
  · obtain ⟨low, high, led, above, below⟩ :=
      lead_four latest code (by omega) (by omega)
    have whole : ((code / 262144 * 64 + code / 4096 % 64) * 64 + code / 64 % 64) * 64 +
        code % 64 = code := by omega
    rw [List.foldl_cons, boundary, led, List.foldl_cons,
      push_inside latest 2 _ (by omega) above below, Nat.add_sub_cancel, List.foldl_cons,
      push_tail, List.foldl_cons, push_tail, List.foldl_nil]
    simp only [whole, value]

theorem encode_ofList (text : List Char) :
    encode (String.ofList text) = text.flatMap String.utf8EncodeChar := by
  rw [encode, String.toList_ofList]

theorem foldl_text (latest : List (Option Char)) (text : List Char) :
    (text.flatMap String.utf8EncodeChar).foldl Reader.push ⟨.boundary, latest⟩ =
      ⟨.boundary, (text.map some).reverse ++ latest⟩ := by
  induction text generalizing latest with
  | nil => rfl
  | cons c rest ih =>
      rw [List.flatMap_cons, List.foldl_append, foldl_char, ih, List.map_cons, List.reverse_cons,
        List.append_assoc, List.singleton_append]

theorem decodeLossy_encode (text : String) : decodeLossy (encode text) = text := by
  have read : pieces (encode text) = text.toList.map some := by
    rw [pieces, encode, foldl_text, List.append_nil]
    exact List.reverse_reverse _
  rw [decodeLossy, read, List.map_map]
  exact (congrArg String.ofList (List.map_id _)).trans String.ofList_toList

theorem utf8EncodeChar_ascii :
    ∀ code < 0x80, String.utf8EncodeChar (Char.ofNat code) = [UInt8.ofNat code] := by
  decide

theorem encode_decodeLossy {bytes : Bytes} (ascii : ∀ byte ∈ bytes, byte.toNat < 0x80) :
    encode (decodeLossy bytes) = bytes := by
  have encoded : (bytes.map fun byte => Char.ofNat byte.toNat).flatMap String.utf8EncodeChar =
      bytes := by
    induction bytes with
    | nil => rfl
    | cons byte rest ih =>
        obtain ⟨small, others⟩ := List.forall_mem_cons.mp ascii
        rw [List.map_cons, List.flatMap_cons, utf8EncodeChar_ascii _ small, ih others,
          UInt8.ofNat_toNat, List.singleton_append]
  rw [← encode_ofList] at encoded
  rw [← encoded, decodeLossy_encode]

end JsonProjection.Text.Utf8

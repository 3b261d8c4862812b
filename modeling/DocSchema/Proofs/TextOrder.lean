import Mathlib.Data.List.Basic

/-!
# The order of texts

Texts are compared by their characters, and that is the order of their bytes: the encoding of a character never
begins as the one of a later character does, and is the lesser of the two where they part.
-/

namespace DocSchema

/-- The bytes of a text. -/
def octets (s : String) : List UInt8 :=
  s.toByteArray.data.toList

section Octets

variable {a b : Nat}

theorem ofNat_lt_ofNat_iff (ha : a < 256) (hb : b < 256) : UInt8.ofNat a < UInt8.ofNat b ↔ a < b := by
  rw [UInt8.lt_iff_toNat_lt, UInt8.toNat_ofNat_of_lt' ha, UInt8.toNat_ofNat_of_lt' hb]

theorem ofNat_eq_ofNat_iff (ha : a < 256) (hb : b < 256) : UInt8.ofNat a = UInt8.ofNat b ↔ a = b := by
  rw [← UInt8.toNat_inj, UInt8.toNat_ofNat_of_lt' ha, UInt8.toNat_ofNat_of_lt' hb]

theorem div_lt_or_eq (le : a ≤ b) (k : Nat) : a / k < b / k ∨ a / k = b / k :=
  Nat.lt_or_eq_of_le (Nat.div_le_div_right le)

end Octets

/-- There are seventeen planes of characters. -/
theorem codePoint_lt (c : Char) : c.val.toNat < 17 * 65536 := by
  rcases c.valid with low | ⟨-, high⟩
  · exact Nat.lt_trans low (by decide)
  · exact high

/-- The lesser of two characters has the lesser encoding, whatever stands behind the two. -/
theorem utf8EncodeChar_append_lt {c d : Char} (below : c < d) (rest others : List UInt8) :
    String.utf8EncodeChar c ++ rest < String.utf8EncodeChar d ++ others := by
  have lt : c.val.toNat < d.val.toNat := below
  have boundC := codePoint_lt c
  have boundD := codePoint_lt d
  simp only [String.utf8EncodeChar]
  generalize c.val.toNat = m at *
  generalize d.val.toNat = n at *
  -- The bytes hold six bits each, so the encodings part where these quotients do.
  have high := div_lt_or_eq (Nat.le_of_lt lt) 262144
  have middle := div_lt_or_eq (Nat.le_of_lt lt) 4096
  have low := div_lt_or_eq (Nat.le_of_lt lt) 64
  have leadM : m / 262144 % 8 = m / 262144 := Nat.mod_eq_of_lt (by omega)
  have leadN : n / 262144 % 8 = n / 262144 := Nat.mod_eq_of_lt (by omega)
  repeat' split
  all_goals try omega
  all_goals
    simp only [List.cons_append, List.nil_append, List.cons_lt_cons_iff]
    repeat rw [ofNat_lt_ofNat_iff (by omega) (by omega)]
    repeat rw [ofNat_eq_ofNat_iff (by omega) (by omega)]
    omega

theorem utf8Encode_lt {as bs : List Char} (below : as < bs) :
    as.flatMap String.utf8EncodeChar < bs.flatMap String.utf8EncodeChar := by
  induction below with
  | @nil b bs =>
    rw [List.flatMap_nil, List.flatMap_cons]
    have first : String.utf8EncodeChar b ≠ [] := by
      rw [← List.length_pos_iff, String.length_utf8EncodeChar]
      exact b.utf8Size_pos
    obtain ⟨octet, later, starts⟩ := List.exists_cons_of_ne_nil first
    rw [starts]
    exact .nil
  | rel below => exact utf8EncodeChar_append_lt below _ _
  | @cons c as bs _ ih =>
    rw [List.flatMap_cons, List.flatMap_cons]
    exact List.append_left_lt ih

theorem octets_eq (s : String) : octets s = s.toList.flatMap String.utf8EncodeChar := by
  rw [octets]
  conv_lhs => rw [← String.ofList_toList (s := s), String.toByteArray_ofList]
  rw [List.utf8Encode, List.data_toByteArray]

/-- Texts are in the order of their bytes. -/
theorem octets_lt_iff {s t : String} : octets s < octets t ↔ s < t := by
  rw [octets_eq, octets_eq]
  refine ⟨fun below => ?_, utf8Encode_lt⟩
  rcases Std.lt_trichotomy s t with before | rfl | after
  · exact before
  · exact absurd below (List.lt_irrefl _)
  · exact absurd below (List.lt_asymm (utf8Encode_lt after))

end DocSchema

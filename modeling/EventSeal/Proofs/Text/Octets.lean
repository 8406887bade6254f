import EventSeal.Text.Utf8

/-!
# The octets of a character

UTF-8 keeps ASCII apart: a character below U+0080 is one octet of its own
number, and every octet of another character is `80` or more
(`le_of_mem_utf8EncodeChar`). So a scanner that looks for ASCII marks
octet by octet never meets one inside a longer character.
-/

namespace EventSeal.Text

theorem bytes_ofList (cs : List Char) :
    bytes (String.ofList cs) = cs.flatMap String.utf8EncodeChar := by
  simp [bytes, String.toByteArray_ofList, List.utf8Encode]

theorem bytes_eq_flatMap (s : String) :
    bytes s = s.toList.flatMap String.utf8EncodeChar := by
  rw [← bytes_ofList, String.ofList_toList]

theorem bytes_join (ss : List String) : bytes (String.join ss) = ss.flatMap bytes := by
  rw [bytes_eq_flatMap, String.toList_join, List.flatMap_assoc]
  have h : bytes = fun s => s.toList.flatMap String.utf8EncodeChar := funext bytes_eq_flatMap
  rw [h]

theorem utf8EncodeChar_of_lt {c : Char} (h : c.toNat < 0x80) :
    String.utf8EncodeChar c = [UInt8.ofNat c.toNat] := by
  have hv : c.val.toNat ≤ 0x7F := Nat.le_of_lt_succ h
  rw [String.utf8EncodeChar]
  simp only [if_pos hv]
  rfl

/-- A leading or continuation octet: some bits over a base that has the
top bit set. -/
theorem le_ofNat_add {n base : Nat} (hlo : 0x80 ≤ base) (hhi : base + n < 0x100) :
    (0x80 : UInt8) ≤ UInt8.ofNat (n + base) := by
  have hm : (n + base) % 2 ^ 8 = n + base := Nat.mod_eq_of_lt (by omega)
  rw [UInt8.le_iff_toNat_le, UInt8.toNat_ofNat', hm]
  exact Nat.le_trans hlo (Nat.le_add_left base n)

theorem le_of_mem_utf8EncodeChar {c : Char} (h : 0x80 ≤ c.toNat) {b : UInt8}
    (hb : b ∈ String.utf8EncodeChar c) : 0x80 ≤ b := by
  have hv : ¬ c.val.toNat ≤ 0x7F := Nat.not_le_of_gt h
  rw [String.utf8EncodeChar] at hb
  simp only [if_neg hv] at hb
  split at hb
  · simp only [List.mem_cons, List.not_mem_nil, or_false] at hb
    rcases hb with rfl | rfl <;> apply le_ofNat_add <;> omega
  · split at hb
    · simp only [List.mem_cons, List.not_mem_nil, or_false] at hb
      rcases hb with rfl | rfl | rfl <;> apply le_ofNat_add <;> omega
    · simp only [List.mem_cons, List.not_mem_nil, or_false] at hb
      rcases hb with rfl | rfl | rfl | rfl <;> apply le_ofNat_add <;> omega

end EventSeal.Text

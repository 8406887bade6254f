import EventSeal.Proofs.Json.Writing

/-!
# The compact form is one line

No control character below U+0020 stands in the compact form of a value,
whatever its texts hold: those are written as escapes, and the marks, the
digits and the words have none (`isLine_compact`). Other characters that
end a line for some reader, such as U+0085 and U+2028, do stand in it, but
only inside quotes; an object begins and ends with a brace
(`exists_compact_object`).
-/

namespace EventSeal.Json

/-- Without a control character below U+0020. -/
def IsLine (s : String) : Prop :=
  ∀ c ∈ s.toList, 0x20 ≤ c.toNat

theorem IsLine.append {s t : String} (hs : IsLine s) (ht : IsLine t) : IsLine (s ++ t) := by
  intro c hc
  rw [String.toList_append, List.mem_append] at hc
  exact hc.elim (hs c) (ht c)

theorem IsLine.newline_not_mem {s : String} (h : IsLine s) : '\n' ∉ s.toList :=
  fun hmem => absurd (h _ hmem) (by decide)

/-! ## Scalars -/

theorem le_toNat_hexDigit {k : Nat} (h : k < 16) : 0x20 ≤ (Text.hexDigit k).toNat := by
  have hall : ∀ k : Fin 16, 0x20 ≤ (Text.hexDigit k).toNat := by decide
  exact hall ⟨k, h⟩

theorem le_toNat_of_mem_escapedChar {c d : Char} (h : d ∈ escapedChar c) : 0x20 ≤ d.toNat := by
  rcases escapedChar_cases c with ⟨l, hl, heq, -⟩ | ⟨hc, heq⟩ | ⟨-, -, hc, heq⟩
  · rw [heq, List.mem_cons, List.mem_singleton] at h
    rcases h with rfl | rfl
    · decide
    · exact (escapeLetter_bounds hl).1
  · have hhi := le_toNat_hexDigit (show c.toNat / 16 < 16 by omega)
    have hlo := le_toNat_hexDigit (show c.toNat % 16 < 16 by omega)
    simp only [heq, List.mem_cons, List.not_mem_nil, or_false] at h
    rcases h with rfl | rfl | rfl | rfl | rfl | rfl
    · decide
    · decide
    · decide
    · decide
    · exact hhi
    · exact hlo
  · rw [heq, List.mem_singleton] at h
    subst h
    exact Nat.le_of_not_lt hc

theorem isLine_quote (s : String) : IsLine (quote s) := by
  intro c hc
  rw [quote, String.toList_ofList, List.mem_append, List.mem_cons, List.mem_singleton,
    List.mem_flatMap] at hc
  rcases hc with (rfl | ⟨d, -, hd⟩) | rfl
  · decide
  · exact le_toNat_of_mem_escapedChar hd
  · decide

theorem isLine_ofInt (i : Int) : IsLine (Decimal.ofInt i) := by
  have hdigits : ∀ c ∈ Decimal.natChars i.natAbs, 0x20 ≤ c.toNat := by
    intro c hc
    have hdigit := List.all_eq_true.mp (Decimal.all_isDigit_natChars i.natAbs) c hc
    rw [Decimal.isDigit, Bool.and_eq_true, decide_eq_true_eq] at hdigit
    exact Nat.le_trans (by decide : 0x20 ≤ '0'.toNat) hdigit.1
  intro c hc
  rw [Decimal.ofInt, String.toList_ofList, Decimal.intChars] at hc
  split at hc
  · rcases List.mem_cons.mp hc with rfl | hc
    · decide
    · exact hdigits c hc
  · exact hdigits c hc

/-! ## Values -/

/-- For words and marks, which are written out. -/
theorem isLine_of_all {s : String}
    (h : (s.toList.all fun c => decide (0x20 ≤ c.toNat)) = true) : IsLine s := by
  intro c hc
  exact of_decide_eq_true (List.all_eq_true.mp h c hc)

namespace Value

mutual

theorem isLine_compact : ∀ {v : Value}, v.isIntegral = true → IsLine v.compact
  | .null, _ => isLine_of_all rfl
  | .bool true, _ => isLine_of_all rfl
  | .bool false, _ => isLine_of_all rfl
  | .number (.whole n), _ => isLine_ofInt n
  | .number (.real _), h => nomatch h
  | .text s, _ => isLine_quote s
  | .array [], _ => isLine_of_all rfl
  | .array (v :: vs), h => by
      rw [isIntegral, isIntegralItems, Bool.and_eq_true] at h
      rw [compact]
      refine .append (.append (.append (isLine_of_all rfl) ?_) ?_) (isLine_of_all rfl)
      · exact isLine_compact h.1
      · exact isLine_compactItems h.2
  | .object [], _ => isLine_of_all rfl
  | .object ((k, v) :: ms), h => by
      rw [isIntegral, isIntegralMembers, Bool.and_eq_true] at h
      rw [compact]
      refine .append (.append (.append (.append (.append (isLine_of_all rfl) ?_)
        (isLine_of_all rfl)) ?_) ?_) (isLine_of_all rfl)
      · exact isLine_quote k
      · exact isLine_compact h.1
      · exact isLine_compactMembers h.2

theorem isLine_compactItems : ∀ {vs : List Value}, isIntegralItems vs = true →
    IsLine (compactItems vs)
  | [], _ => nofun
  | v :: vs, h => by
      rw [isIntegralItems, Bool.and_eq_true] at h
      rw [compactItems]
      refine .append (.append (isLine_of_all rfl) ?_) ?_
      · exact isLine_compact h.1
      · exact isLine_compactItems h.2

theorem isLine_compactMembers : ∀ {ms : List (String × Value)}, isIntegralMembers ms = true →
    IsLine (compactMembers ms)
  | [], _ => nofun
  | (k, v) :: ms, h => by
      rw [isIntegralMembers, Bool.and_eq_true] at h
      rw [compactMembers]
      refine .append (.append (.append (.append (isLine_of_all rfl) ?_) (isLine_of_all rfl)) ?_) ?_
      · exact isLine_quote k
      · exact isLine_compact h.1
      · exact isLine_compactMembers h.2

end

/-- An object is written between braces. -/
theorem exists_compact_object (ms : List (String × Value)) :
    ∃ cs, (Value.object ms).compact.toList = '\x7b' :: cs ++ ['\x7d'] := by
  rcases ms with _ | ⟨⟨k, v⟩, ms⟩
  · exact ⟨[], by rw [compact]; decide⟩
  · refine ⟨(quote k ++ ":" ++ v.compact ++ compactMembers ms).toList, ?_⟩
    have hopen : Members.opening.toList = ['\x7b'] := by decide
    have hclose : Members.closing.toList = ['\x7d'] := by decide
    simp only [compact, String.toList_append, List.append_assoc, hopen, hclose,
      List.nil_append, List.cons_append]

end Value

end EventSeal.Json

import EventSeal.Json.Number
import EventSeal.Proofs.Json.Spelling
import EventSeal.Proofs.Text.Digits
import Mathlib.Data.List.DropRight

/-!
# Written numbers are numerals

Whatever number is written, and in whichever style, the grammar of JSON has a
numeral for the text (`RealStyle.exists_figure_write`). The one thing to see to
is the first digit, which may be zero only where it stands alone before the
point. The digits that are placed begin with another one (`Leading`): the
shortest decimal of a number that is not zero is not zero either
(`shortest_digits_ne_zero`), for zero does not read back as that number, and
what is dropped of the digits is at their end. Each of the layouts begins with
some of these digits, or else with a zero and a point.
-/

namespace EventSeal

open Json Decimal

/-! ## Digits of the grammar -/

/-- Digits of which the first is not zero. -/
structure Leading (cs : List Char) : Prop where
  digits : ∀ c ∈ cs, isDigit c = true
  ne_nil : cs ≠ []
  head_ne : cs.head? ≠ some '0'

namespace Leading

variable {cs ds : List Char}

theorem append (h : Leading cs) (hds : ∀ c ∈ ds, isDigit c = true) : Leading (cs ++ ds) where
  digits := List.forall_mem_append.mpr ⟨h.digits, hds⟩
  ne_nil := List.append_ne_nil_of_left_ne_nil h.ne_nil ds
  head_ne := by
    rw [List.head?_append_of_ne_nil cs h.ne_nil]
    exact h.head_ne

theorem of_append (h : Leading (cs ++ ds)) (hne : cs ≠ []) : Leading cs where
  digits c hc := h.digits c (List.mem_append_left ds hc)
  ne_nil := hne
  head_ne hhead := h.head_ne ((List.head?_append_of_ne_nil cs hne).trans hhead)

end Leading

theorem isDigit_of_mem_zeros {n : Nat} {c : Char} (h : c ∈ List.replicate n '0') :
    isDigit c = true := by
  rw [List.eq_of_mem_replicate h]
  rfl

theorem leading_natChars {n : Nat} (h : n ≠ 0) : Leading (natChars n) where
  digits := List.all_eq_true.mp (all_isDigit_natChars n)
  ne_nil := natChars_ne_nil n
  head_ne hhead := h (natChars_injective (isPlain_natChars n hhead))

theorem exists_digitChars {cs : List Char} (h : ∀ c ∈ cs, isDigit c = true) :
    ∃ ds, digitChars ds = cs := by
  induction cs with
  | nil => exact ⟨[], rfl⟩
  | cons c cs ih =>
      rw [List.forall_mem_cons] at h
      obtain ⟨ds, rfl⟩ := ih h.2
      obtain ⟨hlt, hchar⟩ := digitChar_digitValue (isDigit_iff.mp h.1)
      exact ⟨⟨digitValue c, hlt⟩ :: ds, congrArg (· :: digitChars ds) hchar⟩

theorem exists_digits {cs : List Char} (hne : cs ≠ []) (h : ∀ c ∈ cs, isDigit c = true) :
    ∃ ds : Digits, digitChars ds.all = cs := by
  obtain ⟨ds, rfl⟩ := exists_digitChars h
  cases ds with
  | nil => exact absurd rfl hne
  | cons d ds => exact ⟨⟨d, ds⟩, rfl⟩

theorem Leading.exists_whole {cs : List Char} (h : Leading cs) :
    ∃ w : Whole, digitChars w.digits = cs := by
  obtain ⟨⟨d, ds⟩, rfl⟩ := exists_digits h.ne_nil h.digits
  have hd : d ≠ 0 := fun hzero => h.head_ne (by rw [hzero]; rfl)
  exact ⟨.positive (d.pred hd) ds, by rw [Whole.digits, Fin.succ_pred]; rfl⟩

/-! ## The first digit -/

namespace Binary64

theorem pow2_pos (k : Int) : 0 < pow2 k :=
  Nat.pow_pos (by decide)

theorem pow10_pos (k : Int) : 0 < pow10 k :=
  Nat.pow_pos (by decide)

variable {x : Binary64}

theorem compareScaled_zero {n : Nat} (hn : 0 < n) (i j : Int) :
    compareScaled 0 i n j = .lt := by
  rw [compareScaled, Nat.zero_mul, Nat.zero_mul, Nat.compare_eq_lt]
  exact Nat.mul_pos (Nat.mul_pos hn (pow2_pos j)) (pow10_pos (-i))

/-- Zero stands for no other number. -/
theorem readsBack_zero (h : x.mantissa ≠ 0) (power : Int) : x.readsBack ⟨0, power⟩ = false := by
  have hlow : 0 < if x.narrowBelow then 4 * x.mantissa - 1 else 4 * x.mantissa - 2 := by
    split <;> omega
  simp [readsBack, compareScaled_zero hlow]

theorem onGrid?_digits_ne_zero (h : x.mantissa ≠ 0) {tie : Tie} {power : Int} {d : Decimal10}
    (hd : x.onGrid? tie power = some d) : d.digits ≠ 0 := by
  rw [onGrid?] at hd
  generalize x.ratio.1 * pow10 (-power) / (x.ratio.2 * pow10 power) = below at hd
  -- the upper neighbour is above zero, and the lower one reads back
  have hdown : x.readsBack ⟨below, power⟩ = true → below ≠ 0 := by
    rintro hback rfl
    exact Bool.false_ne_true ((readsBack_zero h power).symm.trans hback)
  split at hd
  · next hback _ =>
    rw [← Option.some.inj hd]
    exact hdown hback
  · rw [← Option.some.inj hd]
    exact Nat.succ_ne_zero below
  · nomatch hd
  · next hback _ =>
    split at hd
    · rw [← Option.some.inj hd]
      exact hdown hback
    · rw [← Option.some.inj hd]
      exact Nat.succ_ne_zero below
    · split_ifs at hd
      · rw [← Option.some.inj hd]
        exact Nat.succ_ne_zero below
      · rw [← Option.some.inj hd]
        exact hdown hback

theorem shortest_digits_ne_zero (h : x.mantissa ≠ 0) (tie : Tie) :
    (x.shortest tie).digits ≠ 0 := by
  rw [shortest]
  cases hfound : (List.range 17).findSome? fun n : Nat => x.onGrid? tie (x.leadingPower - n) with
  | some d =>
      obtain ⟨n, -, hd⟩ := List.exists_of_findSome?_eq_some hfound
      exact onGrid?_digits_ne_zero h hd
  | none =>
      have hfive : 0 < Nat.pow 5 (-x.exponent).toNat := Nat.pow_pos (by decide)
      exact Nat.ne_of_gt (Nat.mul_pos (Nat.mul_pos (Nat.pos_of_ne_zero h) (pow2_pos _)) hfive)

end Binary64

/-! ## Layouts -/

namespace RealStyle

variable {cs ds : List Char}

theorem leading_stripZeros (h : Leading cs) : Leading (stripZeros cs) := by
  have hne : stripZeros cs ≠ [] := by
    intro hnil
    have hall := List.rdropWhile_eq_nil_iff.mp hnil
    obtain ⟨c, ds, rfl⟩ := List.exists_cons_of_ne_nil h.ne_nil
    exact h.head_ne (congrArg some (beq_iff_eq.mp (hall c List.mem_cons_self)))
  obtain ⟨zeros, hcs⟩ : stripZeros cs <+: cs := List.rdropWhile_prefix (p := (· == '0')) cs
  have hwhole : Leading (stripZeros cs ++ zeros) := by
    rw [hcs]
    exact h
  exact hwhole.of_append hne

/-- The text of a numeral without a sign. -/
def IsUnsigned (cs : List Char) : Prop :=
  ∃ w fraction exponent, (Figure.mk false w fraction exponent).chars = cs

theorem isUnsigned_pointed (pointZero : Bool) (h : Leading ds) (e : Int) :
    IsUnsigned (pointed pointZero ds e) := by
  rw [pointed]
  split
  · obtain ⟨fraction, hfraction⟩ := exists_digits
      (List.append_ne_nil_of_right_ne_nil (List.replicate ((-e).toNat - 1) '0') h.ne_nil)
      (List.forall_mem_append.mpr ⟨fun _ => isDigit_of_mem_zeros, h.digits⟩)
    refine ⟨.zero, some fraction, none, ?_⟩
    rw [List.append_assoc, ← hfraction]
    exact List.append_nil _
  · dsimp only
    split
    · obtain ⟨w, hw⟩ := (h.append fun _ => isDigit_of_mem_zeros).exists_whole
      rw [← hw]
      cases pointZero with
      | true => exact ⟨w, some ⟨0, []⟩, none, List.append_nil _⟩
      | false => exact ⟨w, none, none, List.append_nil _⟩
    · next hlong =>
      have htake : Leading (ds.take (e.toNat + 1)) := by
        rw [← List.take_append_drop (e.toNat + 1) ds] at h
        exact h.of_append (List.ne_nil_of_length_pos (by rw [List.length_take]; omega))
      obtain ⟨w, hw⟩ := htake.exists_whole
      obtain ⟨fraction, hfraction⟩ : ∃ fraction : Digits,
          digitChars fraction.all = ds.drop (e.toNat + 1) := by
        refine exists_digits (List.ne_nil_of_length_pos ?_) fun c hc =>
          h.digits c (List.mem_of_mem_drop hc)
        rw [List.length_drop]
        omega
      refine ⟨w, some fraction, none, ?_⟩
      rw [← hw, ← hfraction, List.append_assoc]
      exact List.append_nil _

theorem isUnsigned_scientific (h : Leading ds) (e : Int) : IsUnsigned (scientific ds e) := by
  obtain ⟨d, rest, rfl⟩ := List.exists_cons_of_ne_nil h.ne_nil
  have hfirst : Leading ([d] ++ rest) := h
  obtain ⟨w, hw⟩ := (hfirst.of_append (List.cons_ne_nil d [])).exists_whole
  obtain ⟨power, hpower⟩ := exists_digits (natChars_ne_nil e.natAbs)
    (List.all_eq_true.mp (all_isDigit_natChars e.natAbs))
  let exponent : Exponent := ⟨false, if e < 0 then .minus else .plus, power⟩
  have hexponent : exponent.chars = ['e', if e < 0 then '-' else '+'] ++ natChars e.natAbs := by
    rw [← hpower]
    by_cases he : e < 0 <;> simp [exponent, he, Exponent.chars, ExponentSign.chars]
  by_cases hrest : rest = []
  · subst hrest
    refine ⟨w, none, some exponent, ?_⟩
    simp [Figure.chars, Figure.signChars, Figure.fractionChars, Figure.exponentChars, hw,
      hexponent, scientific]
  · obtain ⟨fraction, hfraction⟩ := exists_digits hrest fun c hc =>
      h.digits c (List.mem_cons_of_mem d hc)
    refine ⟨w, some fraction, some exponent, ?_⟩
    simp [Figure.chars, Figure.signChars, Figure.fractionChars, Figure.exponentChars, hw,
      hexponent, hfraction, scientific, hrest]

theorem isUnsigned_magnitude (style : RealStyle) (x : Binary64) :
    IsUnsigned (style.magnitude x) := by
  rw [magnitude]
  split
  · cases style.pointZero with
    | true => exact ⟨.zero, some ⟨0, []⟩, none, rfl⟩
    | false => exact ⟨.zero, none, none, rfl⟩
  · next hzero =>
    have hmantissa : x.mantissa ≠ 0 := fun h => hzero (beq_iff_eq.mpr h)
    have hdigits := leading_stripZeros
      (leading_natChars (Binary64.shortest_digits_ne_zero hmantissa style.tie))
    dsimp only
    split
    · exact isUnsigned_pointed _ hdigits _
    · exact isUnsigned_scientific hdigits _

theorem exists_figure_write (style : RealStyle) (x : Binary64) :
    ∃ f : Figure, f.chars = (style.write x).toList := by
  obtain ⟨w, fraction, exponent, hchars⟩ := isUnsigned_magnitude style x
  refine ⟨⟨x.negative, w, fraction, exponent⟩, ?_⟩
  rw [write, String.toList_ofList, ← hchars]
  cases x.negative <;> rfl

end RealStyle

/-! ## Numbers -/

theorem exists_figure_ofInt (i : Int) : ∃ f : Figure, f.chars = (ofInt i).toList := by
  obtain ⟨w, hw⟩ : ∃ w : Whole, digitChars w.digits = natChars i.natAbs := by
    by_cases hi : i.natAbs = 0
    · exact ⟨.zero, by rw [hi]; rfl⟩
    · exact (leading_natChars hi).exists_whole
  refine ⟨⟨decide (i < 0), w, none, none⟩, ?_⟩
  rw [ofInt, String.toList_ofList, intChars]
  by_cases hi : i < 0 <;>
    simp [Figure.chars, Figure.signChars, Figure.fractionChars, Figure.exponentChars, hi, hw]

theorem Json.Number.exists_figure_write (n : Number) : ∃ f : Figure, f.chars = n.write.toList := by
  cases n with
  | whole i => exact exists_figure_ofInt i
  | real x => exact RealStyle.exists_figure_write Number.style x

end EventSeal

import EventSeal.Text.Lowercase

/-!
# What becomes a small ASCII letter

Lower case takes in all of Unicode, but little of it ends up in ASCII. A
character outside ASCII stays outside (`lowercaseChar_of_foreign`), with two
exceptions: the Kelvin sign becomes a `k`, and the capital I with dot above
becomes an `i` with a combining dot behind it.

So for texts of small ASCII letters other than `k` only ASCII matters. The dot
of the second exception is no letter, whatever comes before or after it, and a
text whose lower case is such a text is that text but for ASCII capitals
(`Lowers.eq_iff`).

A capital sigma has two lower case forms, and which one it takes depends on its
neighbours. Neither is a letter of ASCII. The statement holds whichever is
taken: `Lowers` leaves the choice open at every sigma.
-/

namespace EventSeal.Text

/-! ## Runs -/

/-- The capitals of ASCII. -/
def capitals : CaseRun :=
  ⟨0x41, 0x5A, 1, 32⟩

theorem caseRuns_eq_cons : caseRuns = capitals :: caseRuns.tail := rfl

/-- All runs but the first are outside ASCII, and so is what they are moved to,
except for the Kelvin sign. -/
theorem foreign_of_mem_tail : ∀ r ∈ caseRuns.tail, 0x80 ≤ r.first ∧
    (r.first = 0x212A ∧ r.last = 0x212A ∨ 0x80 ≤ r.first + r.shift
      ∧ (r.last + r.shift < 0xD800 ∨ 0xE000 ≤ r.first + r.shift
        ∧ r.last + r.shift < 0x110000)) := by
  decide +kernel

theorem covers_capitals_iff {n : Nat} : capitals.covers n = true ↔ 0x41 ≤ n ∧ n ≤ 0x5A := by
  rw [CaseRun.covers, Bool.and_eq_true, Bool.and_eq_true, decide_eq_true_eq, decide_eq_true_eq,
    beq_iff_eq]
  exact and_iff_left (Nat.mod_one _)

theorem bounds_of_covers {r : CaseRun} {n : Nat} (h : r.covers n = true) :
    r.first ≤ n ∧ n ≤ r.last := by
  simp only [CaseRun.covers, Bool.and_eq_true, decide_eq_true_eq] at h
  exact h.1

/-! ## Characters -/

theorem toLower_of_not_capital {c : Char} (h : ¬ (0x41 ≤ c.toNat ∧ c.toNat ≤ 0x5A)) :
    c.toLower = c :=
  dif_neg fun hcapital => h hcapital

theorem toLower_of_foreign {c : Char} (h : 0x80 ≤ c.toNat) : c.toLower = c :=
  toLower_of_not_capital (by omega)

theorem ofNat_target_capitals : ∀ n : Fin 26,
    Char.ofNat (capitals.target (n + 0x41)) = (Char.ofNat (n + 0x41)).toLower := by
  decide

/-- On ASCII, lower case is what the standard library says. -/
theorem lowercaseChar_of_ascii {c : Char} (h : c.toNat < 0x80) :
    lowercaseChar c = [c.toLower] := by
  have hdot : c ≠ 'İ' := by
    rintro rfl
    exact absurd h (by decide)
  rw [lowercaseChar, if_neg hdot, caseRuns_eq_cons, List.find?_cons]
  by_cases hcapital : 0x41 ≤ c.toNat ∧ c.toNat ≤ 0x5A
  · rw [covers_capitals_iff.mpr hcapital]
    have htarget := ofNat_target_capitals ⟨c.toNat - 0x41, by omega⟩
    rw [show c.toNat - 0x41 + 0x41 = c.toNat by omega, Char.ofNat_toNat] at htarget
    exact congrArg (· :: []) htarget
  · have hcovers : capitals.covers c.toNat = false :=
      Bool.eq_false_iff.mpr fun hcovers => hcapital (covers_capitals_iff.mp hcovers)
    have hnone : caseRuns.tail.find? (·.covers c.toNat) = none := by
      rw [List.find?_eq_none]
      intro r hr hcovers
      have hforeign := (foreign_of_mem_tail r hr).1
      have hbounds := bounds_of_covers hcovers
      omega
    rw [hcovers, hnone, toLower_of_not_capital hcapital]

/-- Outside ASCII is where a character outside ASCII stays. -/
theorem lowercaseChar_of_foreign {c : Char} (h : 0x80 ≤ c.toNat) (hdot : c ≠ 'İ')
    (hkelvin : c ≠ '\u212a') : ∃ d, lowercaseChar c = [d] ∧ 0x80 ≤ d.toNat := by
  rw [lowercaseChar, if_neg hdot]
  cases hfind : caseRuns.find? (·.covers c.toNat) with
  | none => exact ⟨c, rfl, h⟩
  | some r =>
      have hcovers := List.find?_some hfind
      have hbounds := bounds_of_covers hcovers
      have hmem := List.mem_of_find?_eq_some hfind
      rw [caseRuns_eq_cons] at hmem
      rcases List.mem_cons.mp hmem with rfl | htail
      · have hlast : capitals.last = 0x5A := rfl
        omega
      · rcases (foreign_of_mem_tail r htail).2 with ⟨hfirst, hlast⟩ | ⟨hlow, hvalid⟩
        · exact absurd (Char.toNat_inj.mp (by omega : c.toNat = 0x212A)) hkelvin
        · refine ⟨_, rfl, ?_⟩
          have htarget : (r.target c.toNat).isValidChar := by
            simp only [CaseRun.target, Nat.isValidChar]
            omega
          rw [Char.ofNat, dif_pos htarget]
          show 0x80 ≤ (c.toNat + r.shift).toNat
          omega

/-! ## Letters -/

/-- A small letter of ASCII, but not the one that the Kelvin sign becomes. -/
def IsNative (c : Char) : Prop :=
  'a' ≤ c ∧ c ≤ 'z' ∧ c ≠ 'k'

instance : DecidablePred IsNative := fun c =>
  inferInstanceAs (Decidable ('a' ≤ c ∧ c ≤ 'z' ∧ c ≠ 'k'))

theorem not_isNative_of_foreign {c : Char} (h : 0x80 ≤ c.toNat) : ¬ IsNative c := by
  rintro ⟨-, hz, -⟩
  have hle : c.toNat ≤ 0x7A := hz
  omega

/-- Where lower case is not that of ASCII, no such letter is involved. -/
theorem lowercaseChar_cases (c : Char) :
    lowercaseChar c = [c.toLower]
      ∨ ¬ IsNative c.toLower ∧ ∃ d ∈ lowercaseChar c, ¬ IsNative d := by
  by_cases h : c.toNat < 0x80
  · exact Or.inl (lowercaseChar_of_ascii h)
  · have hforeign : 0x80 ≤ c.toNat := by omega
    refine Or.inr ⟨?_, ?_⟩
    · rw [toLower_of_foreign hforeign]
      exact not_isNative_of_foreign hforeign
    · by_cases hdot : c = 'İ'
      · subst hdot
        exact ⟨'\u0307', by decide, by decide⟩
      · by_cases hkelvin : c = '\u212a'
        · subst hkelvin
          exact ⟨'k', by decide +kernel, by decide⟩
        · obtain ⟨d, hd, hle⟩ := lowercaseChar_of_foreign hforeign hdot hkelvin
          exact ⟨d, by rw [hd]; exact List.mem_cons_self, not_isNative_of_foreign hle⟩

/-! ## Texts -/

/-- The second text is the first one in lower case, with any of the capital
sigmas in their final form. -/
inductive Lowers : List Char → List Char → Prop
  | nil : Lowers [] []
  | cons (c : Char) {cs ds : List Char} (h : Lowers cs ds) :
      Lowers (c :: cs) (lowercaseChar c ++ ds)
  | finalSigma {cs ds : List Char} (h : Lowers cs ds) : Lowers ('Σ' :: cs) ('ς' :: ds)

theorem lowers_lowercase (s : String) : Lowers s.toList (lowercase s).toList := by
  rw [lowercase, String.toList_ofList]
  induction s.toList with
  | nil => exact .nil
  | cons c cs ih => exact .cons c ih

/-- The same text but for the case of ASCII letters. -/
def SameButForCase (s t : String) : Prop :=
  s.toList.map Char.toLower = t.toList.map Char.toLower

instance (s t : String) : Decidable (SameButForCase s t) :=
  inferInstanceAs (Decidable (_ = _))

theorem toLower_of_isNative {c : Char} (h : IsNative c) : c.toLower = c := by
  have hle : 0x61 ≤ c.toNat := h.1
  exact toLower_of_not_capital (by omega)

theorem cons_ne_of_not_isNative {c : Char} {cs ts : List Char} (hts : ∀ t ∈ ts, IsNative t)
    (hc : ¬ IsNative c) : c :: cs ≠ ts := by
  rintro rfl
  exact hc (hts c List.mem_cons_self)

theorem Lowers.eq_iff {cs ds ts : List Char} (h : Lowers cs ds) (hts : ∀ t ∈ ts, IsNative t) :
    ds = ts ↔ cs.map Char.toLower = ts := by
  induction h generalizing ts with
  | nil => exact Iff.rfl
  | @cons c cs ds h ih =>
      rw [List.map_cons]
      rcases lowercaseChar_cases c with hlower | ⟨hc, d, hmem, hd⟩
      · rw [hlower, List.singleton_append]
        cases ts with
        | nil => exact iff_of_false (List.cons_ne_nil _ _) (List.cons_ne_nil _ _)
        | cons t ts =>
            rw [List.cons.injEq, List.cons.injEq, ih (List.forall_mem_cons.mp hts).2]
      · refine iff_of_false ?_ (cons_ne_of_not_isNative hts hc)
        rintro rfl
        exact hd (hts d (List.mem_append_left _ hmem))
  | finalSigma h ih =>
      exact iff_of_false (cons_ne_of_not_isNative hts (by decide))
        (cons_ne_of_not_isNative hts (by decide))

/-- A text of native letters is the lower case of what differs from it in ASCII
capitals only. -/
theorem Lowers.eq_iff_sameButForCase {s t : String} {cs : List Char} (h : Lowers s.toList cs)
    (ht : ∀ c ∈ t.toList, IsNative c) : cs = t.toList ↔ SameButForCase s t := by
  have hsmall : t.toList.map Char.toLower = t.toList := by
    rw [List.map_congr_left fun c hc => toLower_of_isNative (ht c hc), List.map_id']
  rw [h.eq_iff ht, SameButForCase, hsmall]

end EventSeal.Text

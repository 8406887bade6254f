import EventSeal.Proofs.Event.Sealing
import EventSeal.Proofs.Text.Octets
import Mathlib.Data.List.Infix
import Mathlib.Data.List.Nodup

/-!
# What the canonical text says of a body

The fields of a body stand in its canonical text with nothing between them,
so the text alone does not say where one ends. It determines the body only
together with something more:

- the number of octets of each text (`eq_of_sameLengths`), because then the
  texts can be cut off one after the other, and what is left is the decimal
  time;
- all fields but one (`eq_of_agrees_elsewhere`), because then what stands
  before and behind that field cancels.

Without that, text can move from one field to the next, and the leading
digits of the time, with its sign, to the field before it. The bodies that
nothing can be moved in are the ones whose texts are all empty and whose
time is a single digit (`exact_reach_of_seal`). Every other body shares its
canonical text, and therefore its seal, with a different one.
-/

namespace EventSeal

namespace Event

theorem Part.nodup_all : all.Nodup := by
  decide

theorem Part.exists_neighbour (p : Part) :
    ∃ q, q ≠ p ∧ ([p, q] <:+: all ∨ [q, p] <:+: all) := by
  cases p with
  | id => exact ⟨project, by decide⟩
  | project => exact ⟨version, by decide⟩
  | version => exact ⟨context, by decide⟩
  | context => exact ⟨entity, by decide⟩
  | entity => exact ⟨event, by decide⟩
  | event => exact ⟨source, by decide⟩
  | source => exact ⟨params, by decide⟩
  | params => exact ⟨accessToken, by decide⟩
  | accessToken => exact ⟨params, by decide⟩

/-- One of the ten fields of a body. -/
inductive Body.Field
  | part (p : Part)
  | createdAt

/-- Two bodies have the same value in a field. -/
def Body.Agrees (a b : Body) : Field → Prop
  | .part p => a.get p = b.get p
  | .createdAt => a.createdAt = b.createdAt

theorem Body.ext_agrees {a b : Body} (h : ∀ f, a.Agrees b f) : a = b :=
  ext_get (fun p => h (.part p)) (h .createdAt)

/-- The texts of two bodies have the same numbers of octets, field by field. -/
def Body.SameLengths (a b : Body) : Prop :=
  ∀ p, (Text.bytes (a.get p)).length = (Text.bytes (b.get p)).length

/-! ## The octets, field by field -/

/-- The octets of some texts of a body. -/
def Body.octets (b : Body) (ps : List Part) : List UInt8 :=
  ps.flatMap fun p => Text.bytes (b.get p)

/-- The octets of the time of a body. -/
def Body.timeOctets (b : Body) : List UInt8 :=
  Text.bytes (Decimal.ofInt b.createdAt.toInt)

namespace Body

variable {a b : Body}

theorem canonicalBytes_eq (b : Body) : b.canonicalBytes = b.octets Part.all ++ b.timeOctets := by
  simp only [canonicalBytes, canonicalText, octets, timeOctets, Part.all, get, Text.bytes_append,
    List.flatMap_cons, List.flatMap_nil, List.append_nil, List.append_assoc]

theorem octets_append (b : Body) (ps qs : List Part) :
    b.octets (ps ++ qs) = b.octets ps ++ b.octets qs :=
  List.flatMap_append

theorem octets_congr {ps : List Part} (h : ∀ p ∈ ps, a.get p = b.get p) :
    a.octets ps = b.octets ps :=
  List.flatMap_congr fun p hp => by rw [h p hp]

theorem timeOctets_ne_nil (b : Body) : b.timeOctets ≠ [] := by
  intro h
  have hempty : Decimal.ofInt b.createdAt.toInt = "" := Text.bytes_injective h
  have hchars : Decimal.intChars b.createdAt.toInt = [] := String.ofList_injective hempty
  rw [Decimal.intChars] at hchars
  split at hchars
  · cases hchars
  · exact Decimal.natChars_ne_nil _ hchars

theorem createdAt_eq_of_timeOctets_eq (h : a.timeOctets = b.timeOctets) :
    a.createdAt = b.createdAt :=
  Int64.toInt_inj.mp (Decimal.ofInt_injective (Text.bytes_injective h))

/-! ## What determines a body -/

/-- The texts are cut off one after the other. -/
theorem get_eq_of_octets_append_eq (hlen : a.SameLengths b) : ∀ {ps : List Part}
    {x y : List UInt8}, a.octets ps ++ x = b.octets ps ++ y →
      (∀ p ∈ ps, a.get p = b.get p) ∧ x = y
  | [], x, y, h => ⟨nofun, h⟩
  | p :: ps, x, y, h => by
      simp only [octets, List.flatMap_cons, List.append_assoc] at h
      obtain ⟨hp, hrest⟩ := List.append_inj h (hlen p)
      obtain ⟨hps, hxy⟩ := get_eq_of_octets_append_eq hlen hrest
      exact ⟨List.forall_mem_cons.mpr ⟨Text.bytes_injective hp, hps⟩, hxy⟩

theorem eq_of_sameLengths (hlen : a.SameLengths b) (h : a.canonicalBytes = b.canonicalBytes) :
    a = b := by
  rw [canonicalBytes_eq, canonicalBytes_eq] at h
  obtain ⟨hparts, htime⟩ := get_eq_of_octets_append_eq hlen h
  exact ext_get (fun p => hparts p p.mem_all) (createdAt_eq_of_timeOctets_eq htime)

/-- Bodies that differ in some fields next to each other: what stands
around those fields cancels. -/
theorem canonicalBytes_eq_iff {mid : List Part} (hmid : mid <:+: Part.all)
    (hout : ∀ p, p ∉ mid → a.get p = b.get p) (htime : a.createdAt = b.createdAt) :
    a.canonicalBytes = b.canonicalBytes ↔ a.octets mid = b.octets mid := by
  obtain ⟨before, after, hall⟩ := hmid
  have hnodup : (before ++ mid ++ after).Nodup := hall ▸ Part.nodup_all
  obtain ⟨hfront, -, hback⟩ := List.nodup_append.mp hnodup
  have hbefore : a.octets before = b.octets before := octets_congr fun p hp =>
    hout p fun hin => (List.nodup_append.mp hfront).2.2 p hp p hin rfl
  have hafter : a.octets after = b.octets after := octets_congr fun p hp =>
    hout p fun hin => hback p (List.mem_append_right _ hin) p hp rfl
  have htail : a.timeOctets = b.timeOctets := by rw [timeOctets, timeOctets, htime]
  simp only [canonicalBytes_eq, ← hall, octets_append, hbefore, hafter, htail,
    List.append_cancel_right_eq, List.append_cancel_left_eq]

theorem get_eq_of_get_eq_elsewhere {p : Part} (hp : ∀ q, q ≠ p → a.get q = b.get q)
    (htime : a.createdAt = b.createdAt) (h : a.canonicalBytes = b.canonicalBytes) :
    a.get p = b.get p := by
  have halone : [p] <:+: Part.all := by
    obtain ⟨before, after, hall⟩ := List.append_of_mem p.mem_all
    exact ⟨before, after, by rw [hall, List.append_assoc, List.singleton_append]⟩
  have hout : ∀ q, q ∉ [p] → a.get q = b.get q := fun q hq => hp q (List.ne_of_not_mem_cons hq)
  have hoctets := (canonicalBytes_eq_iff halone hout htime).mp h
  rw [octets, octets, List.flatMap_singleton, List.flatMap_singleton] at hoctets
  exact Text.bytes_injective hoctets

theorem eq_of_agrees_elsewhere {f : Field} (hf : ∀ g, g ≠ f → a.Agrees b g)
    (h : a.canonicalBytes = b.canonicalBytes) : a = b := by
  cases f with
  | createdAt =>
      have hparts : ∀ p, a.get p = b.get p := fun p => hf (.part p) nofun
      exact eq_of_sameLengths (fun p => by rw [hparts p]) h
  | part p =>
      have hothers : ∀ q, q ≠ p → a.get q = b.get q := by
        intro q hq
        exact hf (.part q) fun heq => hq (Field.part.inj heq)
      have htime : a.createdAt = b.createdAt := hf .createdAt nofun
      have hp := get_eq_of_get_eq_elsewhere hothers htime h
      refine ext_get (fun q => ?_) htime
      by_cases hq : q = p
      · rw [hq, hp]
      · exact hothers q hq

/-! ## Moving text -/

/-- Two fields that are next to each other share their text as they like. -/
theorem canonicalBytes_resplit (a : Body) {p q : Part} (hpq : [p, q] <:+: Part.all)
    {s t : String} (hst : s ++ t = a.get p ++ a.get q) :
    ((a.set p s).set q t).canonicalBytes = a.canonicalBytes := by
  have hne : p ≠ q := List.pairwise_pair.mp (Part.nodup_all.sublist hpq.sublist)
  have hout : ∀ r, r ∉ [p, q] → ((a.set p s).set q t).get r = a.get r := by
    intro r hr
    rw [List.mem_pair, not_or] at hr
    rw [get_set, get_set, if_neg hr.2, if_neg hr.1]
  have htime : ((a.set p s).set q t).createdAt = a.createdAt := by
    rw [createdAt_set, createdAt_set]
  refine (canonicalBytes_eq_iff hpq hout htime).mpr ?_
  simp only [octets, List.flatMap_cons, List.flatMap_nil, List.append_nil, get_set, if_neg hne,
    if_pos, ← Text.bytes_append, hst]

/-- A text that is not empty can be left to a neighbour. -/
theorem exists_ne_of_get_ne_empty {p : Part} (hp : a.get p ≠ "") :
    ∃ b, b ≠ a ∧ b.canonicalBytes = a.canonicalBytes := by
  obtain ⟨q, hqp, hnext | hnext⟩ := p.exists_neighbour
  · refine ⟨(a.set p "").set q (a.get p ++ a.get q), fun heq => ?_, ?_⟩
    · have hempty := congrArg (fun c => c.get p) heq
      simp only [get_set, if_neg (Ne.symm hqp), if_pos] at hempty
      exact hp hempty.symm
    · exact canonicalBytes_resplit a hnext String.empty_append
  · refine ⟨(a.set q (a.get q ++ a.get p)).set p "", fun heq => ?_, ?_⟩
    · have hempty := congrArg (fun c => c.get p) heq
      simp only [get_set, if_pos] at hempty
      exact hp hempty.symm
    · exact canonicalBytes_resplit a hnext String.append_empty

end Body

end Event

/-! ## Moving digits -/

namespace Decimal

/-- The sign and all digits but the last. -/
def leading (i : Int) : List Char :=
  (if i < 0 then ['-'] else []) ++ (if i.natAbs < 10 then [] else natChars (i.natAbs / 10))

theorem intChars_digit {d : Nat} (h : d < 10) : intChars d = [d.digitChar] := by
  rw [intChars, if_neg (by omega), Int.natAbs_natCast, natChars_of_lt h]

/-- The last digit is a decimal integer by itself. -/
theorem ofInt_eq_leading_append (i : Int) :
    ofInt i = String.ofList (leading i) ++ ofInt (i.natAbs % 10 : Nat) := by
  have hdigits : natChars i.natAbs
      = (if i.natAbs < 10 then [] else natChars (i.natAbs / 10)) ++ [(i.natAbs % 10).digitChar] := by
    split
    · next h => rw [natChars_of_lt h, Nat.mod_eq_of_lt h, List.nil_append]
    · next h => exact natChars_of_le (Nat.not_lt.mp h)
  have hchars : intChars i = leading i ++ [(i.natAbs % 10).digitChar] := by
    rw [intChars, leading, hdigits]
    split
    · rw [List.append_assoc, List.singleton_append]
    · rw [List.nil_append]
  rw [ofInt, ofInt, intChars_digit (Nat.mod_lt _ (by decide)), ← String.ofList_append, hchars]

end Decimal

namespace Event.Body

variable {a b : Body}

/-- The sign and the leading digits of the time can be left to the token. -/
theorem exists_ne_of_createdAt (h : a.createdAt.toInt < 0 ∨ 10 ≤ a.createdAt.toInt) :
    ∃ b, b ≠ a ∧ b.canonicalBytes = a.canonicalBytes := by
  have hdigit : a.createdAt.toInt.natAbs % 10 < 10 := Nat.mod_lt _ (by decide)
  have htime : (Int64.ofInt (a.createdAt.toInt.natAbs % 10 : Nat)).toInt
      = (a.createdAt.toInt.natAbs % 10 : Nat) :=
    Int64.toInt_ofInt_of_le (by omega) (by omega)
  refine ⟨{ a with
    accessToken := a.accessToken ++ String.ofList (Decimal.leading a.createdAt.toInt)
    createdAt := Int64.ofInt (a.createdAt.toInt.natAbs % 10 : Nat) }, fun heq => ?_, ?_⟩
  · have hshort := congrArg (fun c => c.createdAt.toInt) heq
    simp only [htime] at hshort
    omega
  · refine congrArg Text.bytes ?_
    simp only [canonicalText, String.append_assoc, htime, ← Decimal.ofInt_eq_leading_append]

/-! ## Bodies in which nothing can be moved -/

theorem length_timeOctets_of_digit (hlo : 0 ≤ a.createdAt.toInt) (hhi : a.createdAt.toInt ≤ 9) :
    a.timeOctets.length = 1 := by
  have hall : ∀ d : Fin 10, (Text.bytes (Decimal.ofInt (d.val : Int))).length = 1 := by decide
  have hd := hall ⟨a.createdAt.toInt.toNat, by omega⟩
  rwa [Int.toNat_of_nonneg hlo] at hd

/-- Of one octet the time needs all, so there is none for the texts. -/
theorem eq_of_digit (hempty : ∀ p, a.get p = "") (hlo : 0 ≤ a.createdAt.toInt)
    (hhi : a.createdAt.toInt ≤ 9) (h : b.canonicalBytes = a.canonicalBytes) : b = a := by
  have ha : a.octets Part.all = [] :=
    List.flatMap_eq_nil_iff.mpr fun p _ => by rw [hempty p, Text.bytes_empty]
  have hlength := congrArg List.length h
  rw [canonicalBytes_eq, canonicalBytes_eq, ha, List.nil_append, List.length_append,
    length_timeOctets_of_digit hlo hhi] at hlength
  have htime := List.length_pos_iff.mpr (timeOctets_ne_nil b)
  have hb : b.octets Part.all = [] := List.eq_nil_of_length_eq_zero (by omega)
  refine eq_of_sameLengths (fun p => ?_) h
  rw [List.flatMap_eq_nil_iff.mp hb p p.mem_all, hempty p, Text.bytes_empty]

/-- The event with the body and that text for its seal. -/
def withSign (b : Body) (sign : String) : Event :=
  { b with sign := sign }

@[simp] theorem toBody_withSign (b : Body) (sign : String) : (b.withSign sign).toBody = b := rfl

theorem verifies_withSign {b : Body} {sign : String} :
    (b.withSign sign).verifies = true ↔ sign = b.signature.text := by
  rw [Event.verifies_iff, toBody_withSign, withSign]

/-- Bodies with one canonical text have one seal. A body shares its text
with another one exactly if some text is not empty or the time is not a
single digit. -/
theorem exact_reach_of_seal (a : Body) :
    ((∃ b : Body, b ≠ a ∧ b.canonicalBytes = a.canonicalBytes) ↔
        (∃ p, a.get p ≠ "") ∨ a.createdAt.toInt < 0 ∨ 10 ≤ a.createdAt.toInt)
      ∧ (∀ b : Body, b.canonicalBytes = a.canonicalBytes →
          (b.withSign a.signature.text).verifies = true)
      ∧ ((∀ b : Body, b.canonicalBytes = a.canonicalBytes → b = a) ↔
          (∀ p, a.get p = "") ∧ 0 ≤ a.createdAt.toInt ∧ a.createdAt.toInt ≤ 9) := by
  have hforged : (∃ p, a.get p ≠ "") ∨ a.createdAt.toInt < 0 ∨ 10 ≤ a.createdAt.toInt →
      ∃ b : Body, b ≠ a ∧ b.canonicalBytes = a.canonicalBytes := by
    rintro (⟨p, hp⟩ | htime)
    · exact exists_ne_of_get_ne_empty hp
    · exact exists_ne_of_createdAt htime
  have hdetermined : (∀ p, a.get p = "") ∧ 0 ≤ a.createdAt.toInt ∧ a.createdAt.toInt ≤ 9 →
      ∀ b : Body, b.canonicalBytes = a.canonicalBytes → b = a := by
    rintro ⟨hempty, hlo, hhi⟩ b hb
    exact eq_of_digit hempty hlo hhi hb
  have hcases : ((∃ p, a.get p ≠ "") ∨ a.createdAt.toInt < 0 ∨ 10 ≤ a.createdAt.toInt)
      ↔ ¬ ((∀ p, a.get p = "") ∧ 0 ≤ a.createdAt.toInt ∧ a.createdAt.toInt ≤ 9) := by
    rw [not_and_or, not_forall]
    exact or_congr_right (by omega)
  refine ⟨⟨?_, hforged⟩, fun b hb => ?_, ?_, hdetermined⟩
  · rintro ⟨b, hne, hb⟩
    exact hcases.mpr fun hdigit => hne (hdetermined hdigit b hb)
  · rw [verifies_withSign, signature, signature, hb]
  · intro hunique
    by_contra hmovable
    obtain ⟨b, hne, hb⟩ := hforged (hcases.mpr hmovable)
    exact hne (hunique b hb)

/-- A body from before the epoch, with nothing but its time. -/
def datedBody : Body :=
  { blank with createdAt := -40 }

/-- The same canonical text, all but the last digit in the token. -/
def tokenBody : Body :=
  { blank with accessToken := "-4" }

theorem tokenBody_verifies_as_datedBody :
    tokenBody ≠ datedBody ∧ tokenBody.canonicalBytes = datedBody.canonicalBytes
      ∧ (tokenBody.withSign datedBody.signature.text).verifies = true
      ∧ (∃ b : Body, b ≠ datedBody ∧ b.canonicalBytes = datedBody.canonicalBytes)
      ∧ ∀ b : Body, b.canonicalBytes = blank.canonicalBytes → b = blank := by
  have hne : tokenBody ≠ datedBody := by decide
  have hbytes : tokenBody.canonicalBytes = datedBody.canonicalBytes := by decide
  have hdated := exact_reach_of_seal datedBody
  have hblank := exact_reach_of_seal blank
  refine ⟨hne, hbytes, hdated.2.1 _ hbytes, hdated.1.mpr (Or.inr (Or.inl ?_)),
    hblank.2.2.mpr ⟨fun p => ?_, ?_, ?_⟩⟩
  · decide
  · cases p <;> rfl
  · decide
  · decide

end Event.Body

end EventSeal

import EventSeal.Text.Blank
import Mathlib.Data.List.DropRight

/-!
# What trimming leaves

A text with blanks around it has one core: what neither begins nor ends with a
blank and has nothing but blanks on either side (`IsCore`). Trimming leaves just
that (`isCore_iff`), so to say what a reader does with a text that it trims, it
is enough to say what it does with the core.
-/

namespace EventSeal.Text

/-- What neither begins nor ends with a blank, with blanks on either side. -/
structure IsCore (core cs : List Char) : Prop where
  around : ∃ before after, cs = before ++ core ++ after
    ∧ (∀ c ∈ before, isBlank c = true) ∧ ∀ c ∈ after, isBlank c = true
  head_solid : ∀ c ∈ core.head?, isBlank c = false
  last_solid : ∀ c ∈ core.getLast?, isBlank c = false

variable {cs core before after : List Char}

/-! ## One side at a time -/

theorem trimStart_append (h : ∀ c ∈ before, isBlank c = true) (cs : List Char) :
    trimStart (before ++ cs) = trimStart cs :=
  List.dropWhile_append_of_pos h

theorem trimEnd_append (cs : List Char) (h : ∀ c ∈ after, isBlank c = true) :
    trimEnd (cs ++ after) = trimEnd cs := by
  rw [trimEnd, List.reverse_append,
    List.dropWhile_append_of_pos fun c hc => h c (List.mem_reverse.mp hc)]
  rfl

theorem trimStart_eq_self (h : ∀ c ∈ cs.head?, isBlank c = false) : trimStart cs = cs := by
  cases cs with
  | nil => rfl
  | cons c cs => exact trimStart_cons_solid (h c rfl)

theorem trimEnd_eq_self (h : ∀ c ∈ cs.getLast?, isBlank c = false) : trimEnd cs = cs := by
  rw [← List.head?_reverse] at h
  exact (congrArg List.reverse (trimStart_eq_self h)).trans (List.reverse_reverse cs)

theorem head_solid_trimStart (cs : List Char) :
    ∀ c ∈ (trimStart cs).head?, isBlank c = false := by
  intro c hc
  have hsolid := List.head?_dropWhile_not isBlank cs
  rw [show (cs.dropWhile isBlank).head? = some c from hc] at hsolid
  exact hsolid

theorem last_solid_trimEnd (cs : List Char) :
    ∀ c ∈ (trimEnd cs).getLast?, isBlank c = false := by
  rw [trimEnd, List.getLast?_reverse]
  exact head_solid_trimStart cs.reverse

/-! ## Both sides -/

/-- What trimming takes off. -/
theorem exists_around_trimChars (cs : List Char) :
    ∃ before after, cs = before ++ trimChars cs ++ after
      ∧ (∀ c ∈ before, isBlank c = true) ∧ ∀ c ∈ after, isBlank c = true := by
  refine ⟨cs.takeWhile isBlank, ((trimStart cs).reverse.takeWhile isBlank).reverse, ?_,
    fun c hc => List.mem_takeWhile_imp hc,
    fun c hc => List.mem_takeWhile_imp (List.mem_reverse.mp hc)⟩
  have hend : trimChars cs ++ ((trimStart cs).reverse.takeWhile isBlank).reverse
      = trimStart cs := by
    rw [trimChars, trimEnd, ← List.reverse_append, List.takeWhile_append_dropWhile,
      List.reverse_reverse]
  rw [List.append_assoc, hend]
  exact (List.takeWhile_append_dropWhile).symm

theorem isCore_trimChars (cs : List Char) : IsCore (trimChars cs) cs where
  around := exists_around_trimChars cs
  head_solid c hc := by
    -- what is taken off the end leaves the first character, if there is one
    obtain ⟨rest, hrest⟩ : trimChars cs <+: trimStart cs :=
      List.rdropWhile_prefix (p := isBlank) (trimStart cs)
    refine head_solid_trimStart cs c ?_
    rw [← hrest, List.head?_append, Option.mem_def.mp hc]
    rfl
  last_solid := last_solid_trimEnd (trimStart cs)

theorem IsCore.trimChars_eq (h : IsCore core cs) : trimChars cs = core := by
  obtain ⟨⟨before, after, rfl, hbefore, hafter⟩, hhead, hlast⟩ := h
  rw [trimChars, List.append_assoc, trimStart_append hbefore]
  cases core with
  | nil =>
      have hnothing : trimStart after = [] := List.dropWhile_eq_nil_iff.mpr hafter
      rw [List.nil_append, hnothing]
      rfl
  | cons c core =>
      rw [List.cons_append, trimStart_cons_solid (hhead c rfl), ← List.cons_append,
        trimEnd_append _ hafter, trimEnd_eq_self hlast]

/-- A text has one core, and trimming finds it. -/
theorem isCore_iff : IsCore core cs ↔ trimChars cs = core := by
  constructor
  · exact IsCore.trimChars_eq
  · rintro rfl
    exact isCore_trimChars cs

/-- What has no blank in it is a core of its own, with blanks around it or not. -/
theorem isCore_of_solid (hbefore : ∀ c ∈ before, isBlank c = true)
    (hcs : ∀ c ∈ cs, isBlank c = false) (hafter : ∀ c ∈ after, isBlank c = true) :
    IsCore cs (before ++ cs ++ after) where
  around := ⟨before, after, rfl, hbefore, hafter⟩
  head_solid c hc := hcs c (List.mem_of_mem_head? hc)
  last_solid c hc := hcs c (List.mem_of_mem_getLast? hc)

end EventSeal.Text

/-!
# Splitting at a character

A text with `n` separators has `n + 1` pieces, so there is always a first
one; `pieces` keeps it apart from the others.
-/

namespace EventSeal.Text

def pieces (sep : Char) : List Char → List Char × List (List Char)
  | [] => ([], [])
  | c :: cs =>
      let p := pieces sep cs
      if c = sep then ([], p.1 :: p.2) else (c :: p.1, p.2)

def splitOn (sep : Char) (cs : List Char) : List (List Char) :=
  (pieces sep cs).1 :: (pieces sep cs).2

@[simp] theorem splitOn_nil (sep : Char) : splitOn sep [] = [[]] := rfl

@[simp] theorem splitOn_cons_sep (sep : Char) (cs : List Char) :
    splitOn sep (sep :: cs) = [] :: splitOn sep cs := by
  simp [splitOn, pieces]

/-- The splitting of the standard library. -/
theorem splitOn_eq (sep : Char) (cs : List Char) : splitOn sep cs = cs.splitOn sep := by
  induction cs with
  | nil => rfl
  | cons c cs ih =>
      rw [List.splitOn_cons_eq_if_modifyHead, ← ih]
      by_cases h : c = sep <;> simp [splitOn, pieces, h]

theorem splitOn_append_sep (sep : Char) (as bs : List Char) :
    splitOn sep (as ++ sep :: bs) = splitOn sep as ++ splitOn sep bs := by
  induction as with
  | nil => simp
  | cons a as ih =>
    simp only [splitOn, List.cons_append, List.cons.injEq] at ih ⊢
    by_cases h : a = sep <;> simp [pieces, h, ih]

theorem splitOn_of_not_mem {sep : Char} {cs : List Char} (h : sep ∉ cs) :
    splitOn sep cs = [cs] := by
  induction cs with
  | nil => rfl
  | cons c cs ih =>
    have hc : ¬ c = sep := fun e => h (e ▸ List.mem_cons_self)
    have := ih fun hm => h (List.mem_cons_of_mem _ hm)
    simp only [splitOn, List.cons.injEq] at this ⊢
    simp [pieces, hc, this]

/-- Pieces that are each ended by a separator, and the empty piece after
the last one. -/
theorem splitOn_flatMap_concat {sep : Char} {ps : List (List Char)} (h : ∀ p ∈ ps, sep ∉ p) :
    splitOn sep (ps.flatMap (· ++ [sep])) = ps ++ [[]] := by
  induction ps with
  | nil => rfl
  | cons p ps ih =>
    have hp := splitOn_of_not_mem (h p List.mem_cons_self)
    have hps := ih fun q hq => h q (List.mem_cons_of_mem _ hq)
    rw [List.flatMap_cons, List.append_assoc, List.singleton_append, splitOn_append_sep, hp, hps]
    rfl

theorem length_splitOn (sep : Char) (cs : List Char) :
    (splitOn sep cs).length = cs.count sep + 1 := by
  induction cs with
  | nil => rfl
  | cons c cs ih =>
    simp only [splitOn, List.length_cons] at ih ⊢
    by_cases h : c = sep <;> simp_all [pieces]

end EventSeal.Text

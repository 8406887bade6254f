import EventSeal.CommandLine.Report

/-!
# The columns of a table

A row of a table is a number, an id, a name and a verdict, with a space behind
each of the first three. The id and the name are cut to the widths of their
columns and then filled up, so each takes exactly its width, whatever text it is
(`length_cell`). The number is filled up as well, but never cut. Every digit
beyond the sixth moves what follows to the right, and nothing else does
(`standsAt_id`, `standsAt_event`, `drop_rowChars`). So the verdicts of a table
stand below each other exactly as far as the numbers have six digits at the most.

Widths and places are counted in characters. A text is cut between two of them,
and it makes no difference how many octets they take.
-/

namespace EventSeal.Report

/-! ## Cutting and filling up -/

section Cells

variable {width : Nat} {cs : List Char}

theorem truncate_of_le (h : cs.length ≤ width) : truncate width cs = cs :=
  if_pos h

theorem truncate_of_lt (h : width < cs.length) :
    truncate width cs = cs.take (width - 3) ++ ['.', '.', '.'] :=
  if_neg (Nat.not_le.mpr h)

/-- A width of less than three has no room for the dots. -/
theorem length_truncate (h : 3 ≤ width) (cs : List Char) :
    (truncate width cs).length = min width cs.length := by
  rcases Nat.lt_or_ge width cs.length with hlong | hshort
  · have hdots : ['.', '.', '.'].length = 3 := rfl
    rw [truncate_of_lt hlong, List.length_append, List.length_take, hdots]
    omega
  · rw [truncate_of_le hshort, Nat.min_eq_right hshort]

theorem truncate_eq_self_iff (h : 3 ≤ width) : truncate width cs = cs ↔ cs.length ≤ width := by
  refine ⟨fun heq => ?_, truncate_of_le⟩
  rw [← heq, length_truncate h]
  exact Nat.min_le_left _ _

theorem length_pad (width : Nat) (cs : List Char) : (pad width cs).length = max width cs.length :=
  List.length_rightpad

/-- What a cell shows of a text. -/
def shown (width : Nat) (s : String) : List Char :=
  truncate width (if s = "" then ['?'] else s.toList)

theorem length_shown_le (h : 3 ≤ width) (s : String) : (shown width s).length ≤ width := by
  rw [shown, length_truncate h]
  exact Nat.min_le_left _ _

theorem length_cell (h : 3 ≤ width) (s : String) : (cell width s).length = width := by
  show (pad width (shown width s)).length = width
  rw [length_pad, Nat.max_eq_left (length_shown_le h s)]

end Cells

/-! ## Places in a row -/

/-- From that place on the row has the text, then spaces to the end of a column
of that width, and one more before the next column. -/
def StandsAt (place width : Nat) (text row : List Char) : Prop :=
  (row.drop place).take (width + 1) = text ++ List.replicate (width + 1 - text.length) ' '

theorem standsAt_of_append {place width : Nat} {text before after : List Char}
    (hplace : before.length = place) (htext : text.length ≤ width) :
    StandsAt place width text (before ++ (pad width text ++ [' ']) ++ after) := by
  have hlength : (pad width text ++ [' ']).length = width + 1 := by
    rw [List.length_append, length_pad, Nat.max_eq_left htext, List.length_singleton]
  have hspaces : pad width text ++ [' ']
      = text ++ List.replicate (width + 1 - text.length) ' ' := by
    rw [pad, List.append_assoc, ← List.replicate_succ', Nat.sub_add_comm htext]
  rw [StandsAt, List.append_assoc, List.drop_left' hplace, List.take_left' hlength, hspaces]

section Rows

variable (r : Row)

/-- The number of a row as it is written, and what is filled up behind it. -/
def Row.number : List Char :=
  pad 6 (Decimal.natChars r.line)

theorem length_number_eq_iff : r.number.length = 6 ↔ r.line < 1000000 := by
  have hdigits : (Decimal.natChars r.line).length ≤ 6 ↔ r.line < 10 ^ 6 :=
    Nat.length_toDigits_le_iff (by decide) (by decide)
  rw [Row.number, length_pad]
  omega

theorem standsAt_number (h : r.number.length = 6) :
    StandsAt 0 6 (Decimal.natChars r.line) (rowChars r) := by
  have hsplit : rowChars r = [] ++ (r.number ++ [' '])
      ++ (cell 24 r.id ++ [' '] ++ cell 48 r.event ++ [' '] ++ r.verdict.name.toList) := by
    simp only [rowChars, Row.number, List.nil_append, List.append_assoc]
  have hdigits : (Decimal.natChars r.line).length ≤ 6 := by
    rw [Row.number, length_pad] at h
    omega
  rw [hsplit]
  exact standsAt_of_append rfl hdigits

theorem standsAt_id : StandsAt (r.number.length + 1) 24 (shown 24 r.id) (rowChars r) := by
  have hsplit : rowChars r = r.number ++ [' '] ++ (cell 24 r.id ++ [' '])
      ++ (cell 48 r.event ++ [' '] ++ r.verdict.name.toList) := by
    simp only [rowChars, Row.number, List.append_assoc]
  rw [hsplit]
  refine standsAt_of_append ?_ (length_shown_le (by decide) r.id)
  rw [List.length_append, List.length_singleton]

theorem standsAt_event : StandsAt (r.number.length + 26) 48 (shown 48 r.event) (rowChars r) := by
  have hid : (cell 24 r.id).length = 24 := length_cell (by decide) r.id
  have hsplit : rowChars r = r.number ++ [' '] ++ cell 24 r.id ++ [' ']
      ++ (cell 48 r.event ++ [' ']) ++ r.verdict.name.toList := by
    simp only [rowChars, Row.number, List.append_assoc]
  rw [hsplit]
  refine standsAt_of_append ?_ (length_shown_le (by decide) r.event)
  simp only [List.length_append, List.length_singleton, hid]

theorem drop_rowChars : (rowChars r).drop (r.number.length + 75) = r.verdict.name.toList := by
  have hid : (cell 24 r.id).length = 24 := length_cell (by decide) r.id
  have hevent : (cell 48 r.event).length = 48 := length_cell (by decide) r.event
  rw [rowChars]
  refine List.drop_left' ?_
  simp only [List.length_append, List.length_singleton, hid, hevent, Row.number]

theorem drop_rowChars_eq_iff :
    (rowChars r).drop 81 = r.verdict.name.toList ↔ r.number.length = 6 := by
  constructor
  · intro h
    have hname : 0 < r.verdict.name.toList.length := by
      cases r.verdict <;> decide
    have hhere := congrArg List.length h
    have hthere := congrArg List.length (drop_rowChars r)
    rw [List.length_drop] at hhere hthere
    omega
  · intro h
    have hverdict := drop_rowChars r
    rwa [h] at hverdict

end Rows

/-! ## Rows below each other -/

/-- Cut to a width that has room for the dots, a text fits, and is itself if it
fitted before and else its beginning with dots behind it. In a row the verdict
stands at place 81 exactly if the number is below a million, and then the number
stands at place 0, the id at 7 and the name at 32. -/
theorem columns_keep_their_places :
    (∀ (s : String) (n : Nat), 3 ≤ n →
        (truncate n s.toList).length ≤ n
          ∧ (truncate n s.toList = s.toList ↔ s.toList.length ≤ n)
          ∧ (n < s.toList.length →
              truncate n s.toList = s.toList.take (n - 3) ++ ['.', '.', '.']))
      ∧ ∀ r : Row,
          ((rowChars r).drop 81 = r.verdict.name.toList ↔ r.line < 1000000)
            ∧ (r.line < 1000000 →
                StandsAt 0 6 (Decimal.natChars r.line) (rowChars r)
                  ∧ StandsAt 7 24 (shown 24 r.id) (rowChars r)
                  ∧ StandsAt 32 48 (shown 48 r.event) (rowChars r)) := by
  refine ⟨fun s n hn => ⟨?_, truncate_eq_self_iff hn, truncate_of_lt⟩, fun r => ⟨?_, fun hr => ?_⟩⟩
  · rw [length_truncate hn]
    exact Nat.min_le_left _ _
  · rw [drop_rowChars_eq_iff, length_number_eq_iff]
  · have hnumber : r.number.length = 6 := (length_number_eq_iff r).mpr hr
    have hid := standsAt_id r
    have hevent := standsAt_event r
    rw [hnumber] at hid hevent
    exact ⟨standsAt_number r hnumber, hid, hevent⟩

/-- The last row whose number has six digits. The id is one character too long,
and its characters take more than one octet. -/
def lastAlignedRow : Row :=
  ⟨999999, "éééééééééééééééééééééé字字字", "", .tampered⟩

theorem columns_of_lastAlignedRow :
    truncate 5 "ééééééé".toList = "éé...".toList
      ∧ StandsAt 7 24 "ééééééééééééééééééééé...".toList (rowChars lastAlignedRow)
      ∧ StandsAt 32 48 ['?'] (rowChars lastAlignedRow)
      ∧ (rowChars lastAlignedRow).drop 81 = "tampered".toList
      ∧ (rowChars { lastAlignedRow with line := 1000000 }).drop 81 ≠ "tampered".toList := by
  have hshownId : shown 24 lastAlignedRow.id = "ééééééééééééééééééééé...".toList := by decide
  have hshownEvent : shown 48 lastAlignedRow.event = ['?'] := by decide
  obtain ⟨hcut, hrows⟩ := columns_keep_their_places
  obtain ⟨hverdict, hcells⟩ := hrows lastAlignedRow
  obtain ⟨-, hid, hevent⟩ := hcells (by decide)
  refine ⟨(hcut "ééééééé" 5 (by decide)).2.2 (by decide), hshownId ▸ hid, hshownEvent ▸ hevent,
    hverdict.mpr (by decide), fun hnext => ?_⟩
  exact absurd ((hrows { lastAlignedRow with line := 1000000 }).1.mp hnext) (by decide)

end EventSeal.Report

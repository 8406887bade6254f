import EventSeal.Proofs.CommandLine.Reports

/-!
# A report as a table

A table has two lines of header and then, for each row, its cells one after
the other and an end of line. The number of the row comes first and the
verdict last. Between them stand the id and the name of the event, cut to a
width and otherwise as they are. So a line feed that an event has in one of
them is an end of line in the table (`lines_table`).

A table therefore shows one verdict on each line if, and only if, no line
feed is shown of any event (`verdictPerLine_iff`). If one is, the row of that
event begins on one line and ends on another, and what stands at the end of
the first and at the beginning of the last the event may choose: a verdict,
for instance, and the number of another line.
-/

namespace EventSeal

open Json

namespace Report

/-! ## Line feeds in a row -/

/-- How many line feeds are shown of the id and the name of an event. -/
def Row.breaks (r : Row) : Nat :=
  (truncate 24 r.id.toList).count '\n' + (truncate 48 r.event.toList).count '\n'

theorem count_newline_pad (width : Nat) (cs : List Char) :
    (pad width cs).count '\n' = cs.count '\n' := by
  rw [pad, List.count_append, List.count_replicate]
  rfl

/-- The question mark for an empty text is not one either. -/
theorem count_newline_cell {width : Nat} (h : 1 ≤ width) (s : String) :
    (cell width s).count '\n' = (truncate width s.toList).count '\n' := by
  rw [cell, count_newline_pad]
  split
  · next hs =>
    subst hs
    rw [truncate, truncate, if_pos (show ['?'].length ≤ width from h),
      if_pos (show "".toList.length ≤ width from Nat.zero_le width)]
    rfl
  · rfl

theorem newline_not_mem_natChars (n : Nat) : '\n' ∉ Decimal.natChars n := by
  intro h
  exact absurd (List.all_eq_true.mp (Decimal.all_isDigit_natChars n) _ h) (by decide)

theorem newline_not_mem_name (v : Verdict) : '\n' ∉ v.name.toList := by
  cases v <;> decide

theorem count_newline_rowChars (r : Row) : (rowChars r).count '\n' = r.breaks := by
  have hline := List.count_eq_zero_of_not_mem (newline_not_mem_natChars r.line)
  have hverdict := List.count_eq_zero_of_not_mem (newline_not_mem_name r.verdict)
  have hspace : [' '].count '\n' = 0 := rfl
  rw [Row.breaks, ← count_newline_cell (by decide) r.id, ← count_newline_cell (by decide) r.event]
  simp only [rowChars, List.count_append, count_newline_pad, hline, hverdict, hspace]
  omega

/-! ## Lines of a table -/

/-- The row of an event takes one line and another one for every line feed
that is shown of it. -/
theorem lines_table (rs : List Row) :
    Text.lines (table rs) = headerChars :: List.replicate 90 '-'
      :: rs.flatMap fun r => (Text.splitOn '\n' (rowChars r)).map Text.withoutReturn := by
  rw [← String.ofList_toList (s := table rs), toList_table, Text.lines_flatMap_concat,
    List.flatMap_cons, List.flatMap_cons, List.flatMap_map]
  rfl

theorem length_lines_table (rs : List Row) :
    (Text.lines (table rs)).length = 2 + rs.length + (rs.map Row.breaks).sum := by
  rw [lines_table, List.length_cons, List.length_cons, List.length_flatMap]
  induction rs with
  | nil => rfl
  | cons r rs ih =>
      rw [List.map_cons, List.sum_cons, List.length_map, Text.length_splitOn,
        count_newline_rowChars, List.map_cons, List.sum_cons, List.length_cons]
      omega

theorem getLast?_rowChars (r : Row) : (rowChars r).getLast? ≠ some '\r' := by
  have hname : ∃ c cs, r.verdict.name.toList = cs ++ [c] ∧ c ≠ '\r' := by
    cases r.verdict
    · exact ⟨'k', ['o'], rfl, by decide⟩
    · exact ⟨'d', "unsigne".toList, rfl, by decide⟩
    · exact ⟨'d', "tampere".toList, rfl, by decide⟩
    · exact ⟨'d', "malforme".toList, rfl, by decide⟩
  obtain ⟨c, cs, hname, hc⟩ := hname
  rw [rowChars, hname, ← List.append_assoc, List.getLast?_concat, ne_eq, Option.some.injEq]
  exact hc

theorem lines_table_of_breaks_eq_zero {rs : List Row} (h : ∀ r ∈ rs, r.breaks = 0) :
    Text.lines (table rs) = headerChars :: List.replicate 90 '-' :: rs.map rowChars := by
  have hrow : ∀ r ∈ rs, (Text.splitOn '\n' (rowChars r)).map Text.withoutReturn = [rowChars r] := by
    intro r hr
    have hnone : '\n' ∉ rowChars r := by
      rw [← List.count_eq_zero, count_newline_rowChars]
      exact h r hr
    rw [Text.splitOn_of_not_mem hnone, List.map_singleton,
      Text.withoutReturn_of_getLast?_ne (getLast?_rowChars r)]
  rw [lines_table, List.flatMap_congr hrow, List.map_eq_flatMap]

/-! ## One verdict on each line -/

/-- After the two lines of header there is a line for every line of the text
that is not blank, in order, with the number and the verdict of that line. -/
def VerdictPerLine (s : String) (out : List (List Char)) : Prop :=
  ∃ body, out = headerChars :: List.replicate 90 '-' :: body
    ∧ List.Forall₂ (fun p l => (rowOfSolidLine p).IsShownOn l) (Text.solidLines s) body

theorem verdictPerLine_iff (s : String) :
    VerdictPerLine s (Text.lines (table (rows s))) ↔ ∀ r ∈ rows s, r.breaks = 0 := by
  constructor
  · rintro ⟨body, hout, hall⟩
    have hlength : (rows s).length = body.length := by
      rw [rows_eq_map, List.length_map, hall.length_eq]
    have hlines := congrArg List.length hout
    rw [length_lines_table, List.length_cons, List.length_cons] at hlines
    have hsum : ((rows s).map Row.breaks).sum = 0 := by omega
    intro r hr
    exact List.sum_eq_zero_iff_forall_eq_nat.mp hsum _ (List.mem_map_of_mem hr)
  · intro h
    refine ⟨(rows s).map rowChars, lines_table_of_breaks_eq_zero h, ?_⟩
    rw [rows_eq_map, List.map_map, List.forall₂_map_right_iff, List.forall₂_same]
    exact fun p _ => isShownOn_rowChars (rowOfSolidLine p)

end Report

namespace CommandLine

open Report

variable {w : World} {input : Option String} {s : String}

theorem output_table (h : w.octets input = .ok (Text.bytes s)) (settings : Settings)
    (strict : Bool) :
    (run w ⟨settings, .verify input strict false⟩).output = table (rows s) := by
  rw [verify_of_octets h]
  rfl

/-- A table has one verdict on each line exactly if no line feed is shown of
any event, and otherwise a line more for every one that is. -/
theorem table_verdict_per_line (h : w.octets input = .ok (Text.bytes s)) (settings : Settings)
    (strict : Bool) :
    (VerdictPerLine s (Text.lines (run w ⟨settings, .verify input strict false⟩).output) ↔
        ∀ r ∈ rows s, '\n' ∉ truncate 24 r.id.toList ∧ '\n' ∉ truncate 48 r.event.toList)
      ∧ (Text.lines (run w ⟨settings, .verify input strict false⟩).output).length
          = 2 + (rows s).length + ((rows s).map Row.breaks).sum := by
  rw [output_table h]
  refine ⟨(verdictPerLine_iff s).trans (forall₂_congr fun r _ => ?_), length_lines_table _⟩
  rw [Row.breaks, Nat.add_eq_zero_iff, List.count_eq_zero, List.count_eq_zero]

/-- No event of the mixed text shows a line feed. -/
theorem table_mixedText :
    mixedWorld.octets (some "events") = .ok (Text.bytes mixedText)
      ∧ VerdictPerLine mixedText (Text.lines (mixedOutcome false).output)
      ∧ (Text.lines (mixedOutcome false).output).length = 5 := by
  have hrows : rows mixedText = mixedRows := rfl
  have hinput : mixedWorld.octets (some "events") = .ok (Text.bytes mixedText) := rfl
  obtain ⟨hiff, hlength⟩ := table_verdict_per_line hinput ⟨.development, "warn", .pretty⟩ true
  refine ⟨hinput, ?_, ?_⟩
  · rw [mixedOutcome, hiff, hrows]
    decide
  · rw [mixedOutcome, hlength, hrows]
    decide

/-- The id of an unsigned event, with a verdict in it and the number of
another line. -/
def forgedText : String :=
  "\x7b\"id\":\"a ok\\n2\"\x7d"

def forgedWorld : World :=
  ⟨Text.bytes forgedText, fun _ => .error .missing, 0⟩

def forgedOutcome : Outcome :=
  run forgedWorld ⟨⟨.development, "warn", .pretty⟩, .verify none false false⟩

theorem not_verdictPerLine_forgedText :
    forgedWorld.octets none = .ok (Text.bytes forgedText)
      ∧ rows forgedText = [⟨1, "a ok\n2", "..->@", .unsigned⟩]
      ∧ (Text.lines forgedOutcome.output)[2]? = some "1      a ok".toList
      ∧ ¬ VerdictPerLine forgedText (Text.lines forgedOutcome.output) := by
  have hrows : rows forgedText = [⟨1, "a ok\n2", "..->@", .unsigned⟩] := rfl
  have houtput : forgedOutcome.output = table (rows forgedText) := output_table rfl _ _
  refine ⟨rfl, hrows, ?_, ?_⟩
  · rw [houtput, lines_table, hrows]
    decide
  · rw [houtput, verdictPerLine_iff, hrows]
    decide

end CommandLine

end EventSeal

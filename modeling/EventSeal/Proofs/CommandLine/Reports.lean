import EventSeal.Proofs.CommandLine.Verdicts
import EventSeal.Proofs.Text.Lines

/-!
# A report, line by line

The rows of a report are made line by line with a running number. So a text
that is put together of two with a line feed between them has the rows of
both, those of the second with higher numbers (`rows_append`), and a line
anywhere in a text has its own row, or none if it is blank, between the rows
of what is before it and of what is after it (`rowsOfLines_append_cons`).
Whether an event can be read from a line is seen in the verdict of its row
and nowhere else.

The command prints these rows in one of two forms and fails, if it has been
asked to, on rows that are not all right (`Reports`). The form does not
bear on that. In JSON every row can be read back, and a table shows of every
row its number and its verdict, and its id and its name as far as their
columns go (`Tabulates`).
-/

namespace EventSeal

open Json

/-! ## Lines that are not blank -/

namespace Text

def isSolid (l : List Char) : Bool :=
  l.any fun c => !isBlank c

/-- The lines that are not blank, with their numbers, which start at one. -/
def solidLines (s : String) : List (List Char × Nat) :=
  ((lines s).zipIdx 1).filter fun p => isSolid p.1

theorem trimChars_eq_nil_iff_isSolid {l : List Char} : trimChars l = [] ↔ isSolid l = false := by
  rw [trimChars_eq_nil_iff, isSolid, List.any_eq_false]
  simp only [Bool.not_eq_true', Bool.not_eq_false]

end Text

namespace Report

/-! ## Numbers of rows -/

def Row.shift (k : Nat) (r : Row) : Row :=
  { r with line := r.line + k }

theorem rowOfText_shift (n k : Nat) (s : String) :
    rowOfText (n + k) s = (rowOfText n s).shift k := by
  rw [rowOfText, rowOfText]
  cases Event.ofText s <;> rfl

theorem rowOfLine?_shift (n k : Nat) (cs : List Char) :
    rowOfLine? (n + k) cs = (rowOfLine? n cs).map (Row.shift k) := by
  rw [rowOfLine?, rowOfLine?]
  split
  · rfl
  · rw [rowOfText_shift]
    rfl

theorem rowsOfLines_shift (k : Nat) (ls : List (List Char)) : ∀ first : Nat,
    rowsOfLines (first + k) ls = (rowsOfLines first ls).map (Row.shift k) := by
  induction ls with
  | nil => intro first; rfl
  | cons cs rest ih =>
      intro first
      rw [rowsOfLines, rowsOfLines, List.map_append, rowOfLine?_shift, Nat.add_right_comm, ih]
      cases rowOfLine? first cs <;> rfl

/-- The rows of two texts, one after the other. -/
theorem rows_append (a b : String) :
    rows (a ++ "\n" ++ b) = rows a ++ (rows b).map (Row.shift (Text.newlines a + 1)) := by
  have hpieces : Text.splitOn '\n' (a ++ "\n" ++ b).toList
      = Text.splitOn '\n' a.toList ++ Text.splitOn '\n' b.toList := by
    rw [String.toList_append, String.toList_append, List.append_assoc]
    exact Text.splitOn_append_sep '\n' a.toList b.toList
  rw [rows, hpieces, rowsOfLines_append, Text.length_splitOn, rowsOfLines_shift]
  rfl

/-- The row of a line that is not blank, which is given with its number. -/
def rowOfSolidLine (p : List Char × Nat) : Row :=
  rowOfText p.2 (Text.trim (String.ofList p.1))

/-- A blank line has no row. -/
theorem toList_rowOfLine? (n : Nat) (l : List Char) :
    (rowOfLine? n l).toList = if Text.isSolid l then [rowOfSolidLine (l, n)] else [] := by
  rw [rowOfLine?, rowOfSolidLine, Text.trim, String.toList_ofList]
  cases hsolid : Text.isSolid l with
  | false =>
      rw [if_pos (Text.trimChars_eq_nil_iff_isSolid.mpr hsolid)]
      rfl
  | true =>
      have hne : Text.trimChars l ≠ [] := by
        intro hnil
        have hblank := Text.trimChars_eq_nil_iff_isSolid.mp hnil
        exact Bool.false_ne_true (hblank.symm.trans hsolid)
      rw [if_neg hne]
      rfl

theorem line_of_mem_rowOfLine? {n : Nat} {l : List Char} {r : Row}
    (h : r ∈ (rowOfLine? n l).toList) : r.line = n := by
  rw [toList_rowOfLine?] at h
  split at h
  · rw [List.mem_singleton.mp h, rowOfSolidLine, line_rowOfText]
  · nomatch h

theorem line_of_mem_rowsOfLines {ls : List (List Char)} {r : Row} : ∀ {first : Nat},
    r ∈ rowsOfLines first ls → first ≤ r.line ∧ r.line < first + ls.length := by
  induction ls with
  | nil => nofun
  | cons l ls ih =>
      intro first h
      rw [List.length_cons]
      rcases List.mem_append.mp h with h | h
      · rw [line_of_mem_rowOfLine? h]
        omega
      · obtain ⟨hlo, hhi⟩ := ih h
        omega

/-! ## Lines -/

theorem rowsOfLines_linesOfPieces (ps : List (List Char)) : ∀ first : Nat,
    rowsOfLines first (Text.linesOfPieces ps) = rowsOfLines first ps := by
  induction ps with
  | nil => intro first; rfl
  | cons p ps ih =>
      intro first
      cases ps with
      | nil =>
          rw [Text.linesOfPieces]
          split
          · next hp =>
            rw [hp]
            rfl
          · rfl
      | cons q ps =>
          rw [Text.linesOfPieces, rowsOfLines, rowsOfLines, ih, rowOfLine?, rowOfLine?,
            Text.trimChars_withoutReturn]

theorem rows_eq_rowsOfLines (s : String) : rows s = rowsOfLines 1 (Text.lines s) :=
  (rowsOfLines_linesOfPieces _ 1).symm

theorem rowsOfLines_eq_map (ls : List (List Char)) : ∀ first : Nat,
    rowsOfLines first ls
      = ((ls.zipIdx first).filter fun p => Text.isSolid p.1).map rowOfSolidLine := by
  induction ls with
  | nil => intro first; rfl
  | cons l ls ih =>
      intro first
      rw [rowsOfLines, toList_rowOfLine?, ih, List.zipIdx_cons, List.filter_cons]
      cases Text.isSolid l <;> rfl

/-- Every line that is not blank has a row, and nothing else has one. -/
theorem rows_eq_map (s : String) : rows s = (Text.solidLines s).map rowOfSolidLine := by
  rw [rows_eq_rowsOfLines, rowsOfLines_eq_map]
  rfl

theorem rowsOfLines_append_cons (before after : List (List Char)) (l : List Char) (first : Nat) :
    rowsOfLines first (before ++ l :: after)
      = rowsOfLines first before ++ (rowOfLine? (first + before.length) l).toList
        ++ rowsOfLines (first + before.length + 1) after := by
  rw [rowsOfLines_append, rowsOfLines, List.append_assoc]

/-- The row of a line is the only one with the number of the line. -/
theorem filter_rowsOfLines_append_cons (before after : List (List Char)) (l : List Char)
    (first : Nat) :
    (rowsOfLines first (before ++ l :: after)).filter (·.line = first + before.length)
      = (rowOfLine? (first + before.length) l).toList := by
  have hbefore : (rowsOfLines first before).filter (·.line = first + before.length) = [] := by
    rw [List.filter_eq_nil_iff]
    intro r hr
    have := (line_of_mem_rowsOfLines hr).2
    simp only [decide_eq_true_eq]
    omega
  have hafter : (rowsOfLines (first + before.length + 1) after).filter
      (·.line = first + before.length) = [] := by
    rw [List.filter_eq_nil_iff]
    intro r hr
    have := (line_of_mem_rowsOfLines hr).1
    simp only [decide_eq_true_eq]
    omega
  have hown : (rowOfLine? (first + before.length) l).toList.filter
      (·.line = first + before.length) = (rowOfLine? (first + before.length) l).toList := by
    rw [List.filter_eq_self]
    intro r hr
    exact decide_eq_true (line_of_mem_rowOfLine? hr)
  rw [rowsOfLines_append_cons, List.filter_append, List.filter_append, hbefore, hown, hafter,
    List.nil_append, List.append_nil]

/-! ## Failing -/

theorem failures_pos_iff {rs : List Row} : 0 < failures rs ↔ ∃ r ∈ rs, r.verdict ≠ .ok := by
  rw [failures, List.countP_pos_iff]
  simp only [bne_iff_ne]

end Report

namespace CommandLine

open Report

/-- What comes of a verification that has found the rows `rs`. -/
structure Reports (rs : List Row) (strict json : Bool) (o : Outcome) : Prop where
  output : o.output = if json then Report.json rs else Report.table rs
  exitCode : o.exitCode = if strict = true ∧ ∃ r ∈ rs, r.verdict ≠ .ok then 1 else 0
  message : o.failure.map Failure.message
    = if strict = true ∧ ∃ r ∈ rs, r.verdict ≠ .ok then
        some (Decimal.ofNat (rs.countP (·.verdict != .ok)) ++ " of " ++ Decimal.ofNat rs.length
          ++ " events failed verification")
      else none

theorem reports_verifyText (strict json : Bool) (s : String) :
    Reports (rows s) strict json (verifyText strict json s) := by
  have hfailure : (verifyText strict json s).failure
      = if strict = true ∧ ∃ r ∈ rows s, r.verdict ≠ .ok then
          some (.failedVerification (failures (rows s)) (rows s).length)
        else none := by
    rw [verifyText]
    simp only [failures_pos_iff]
  refine ⟨rfl, ?_, ?_⟩
  · rw [Outcome.exitCode, hfailure]
    split <;> rfl
  · rw [hfailure]
    split <;> rfl

/-- Rows go with lines. Two texts with a line feed between them are reported
one after the other; the row of a line, and whether it has one, depends on
that line and on its number alone. The command shows these rows, in either
form, and fails on request if one of them is not all right. What it shows is
read back in JSON and stands in its place in a table. -/
theorem verify_line_by_line :
    (∀ a b : String,
        rows (a ++ "\n" ++ b) = rows a ++ (rows b).map (Row.shift (Text.newlines a + 1)))
      ∧ (∀ s : String, rows s = (Text.solidLines s).map rowOfSolidLine)
      ∧ (∀ (s : String) (before after : List (List Char)) (l : List Char),
          Text.lines s = before ++ l :: after →
            ∃ own : List Row,
              own = (if Text.isSolid l then [rowOfSolidLine (l, before.length + 1)] else [])
              ∧ rows s = rowsOfLines 1 before ++ own ++ rowsOfLines (before.length + 2) after
              ∧ (rows s).filter (·.line = before.length + 1) = own)
      ∧ ∀ (w : World) (settings : Settings) (input : Option String) (s : String),
          w.octets input = .ok (Text.bytes s) →
            (∀ strict json : Bool,
                Reports (rows s) strict json (run w ⟨settings, .verify input strict json⟩))
            ∧ ((Text.lines s).length < 2 ^ 64 → ∀ strict : Bool,
                Value.ofBytes (Text.bytes (run w ⟨settings, .verify input strict true⟩).output)
                  = .ok (.array ((rows s).map rowValue)))
            ∧ ∀ strict : Bool,
                Tabulates (rows s) (run w ⟨settings, .verify input strict false⟩).output := by
  refine ⟨rows_append, rows_eq_map, ?_, ?_⟩
  · intro s before after l hlines
    have hown := filter_rowsOfLines_append_cons before after l 1
    have hrows := rowsOfLines_append_cons before after l 1
    rw [← hlines, ← rows_eq_rowsOfLines, Nat.add_comm 1] at hown hrows
    exact ⟨_, toList_rowOfLine? (before.length + 1) l, hrows, hown⟩
  · intro w settings input s hw
    refine ⟨fun strict json => ?_, fun hlength strict => ?_, fun strict => ?_⟩
    · rw [verify_of_octets hw]
      exact reports_verifyText strict json s
    · rw [verify_of_octets hw]
      refine ofBytes_json fun r hr => ?_
      rw [rows_eq_rowsOfLines] at hr
      have hbounds := line_of_mem_rowsOfLines hr
      omega
    · rw [verify_of_octets hw]
      exact tabulates_table (rows s)

/-- A blank line, an event without a seal, a line that is none, an empty
line and another event, which has blanks around it and no end of line. -/
def mixedText : String :=
  "\u00a0\r\n\x7b\x7d\r\n[\n\n \x7b\"id\":\"a\"\x7d\t"

def mixedRows : List Row :=
  [⟨2, "", "..->@", .unsigned⟩, ⟨3, "", "", .malformed⟩, ⟨5, "a", "..->@", .unsigned⟩]

def mixedWorld : World :=
  ⟨[], fun _ => .ok (Text.bytes mixedText), 0⟩

/-- What comes of verifying it strictly. -/
def mixedOutcome (json : Bool) : Outcome :=
  run mixedWorld ⟨⟨.development, "warn", .pretty⟩, .verify (some "events") true json⟩

theorem verify_mixedText :
    Text.lines mixedText
        = [['\u00a0'], ['\x7b', '\x7d']] ++ ['['] :: [[], " \x7b\"id\":\"a\"\x7d\t".toList]
      ∧ mixedWorld.octets (some "events") = .ok (Text.bytes mixedText)
      ∧ rows mixedText = mixedRows
      ∧ (rows mixedText).filter (·.line = 3) = [⟨3, "", "", .malformed⟩]
      ∧ rows (mixedText ++ "\n" ++ mixedText) = mixedRows ++ mixedRows.map (Row.shift 5)
      ∧ (mixedOutcome false).exitCode = 1
      ∧ (mixedOutcome false).failure.map Failure.message
          = some "3 of 3 events failed verification"
      ∧ Value.ofBytes (Text.bytes (mixedOutcome true).output)
          = .ok (.array (mixedRows.map rowValue))
      ∧ Tabulates mixedRows (mixedOutcome false).output := by
  have hrows : rows mixedText = mixedRows := rfl
  have hlines : Text.lines mixedText
      = [['\u00a0'], ['\x7b', '\x7d']] ++ ['['] :: [[], " \x7b\"id\":\"a\"\x7d\t".toList] := rfl
  obtain ⟨happend, -, hline, hcommand⟩ := verify_line_by_line
  obtain ⟨own, hown, -, hfilter⟩ := hline mixedText _ _ _ hlines
  obtain ⟨hreports, hjson, htable⟩ := hcommand mixedWorld ⟨.development, "warn", .pretty⟩
    (some "events") mixedText rfl
  refine ⟨hlines, rfl, hrows, (hfilter.trans hown).trans rfl, ?_, ?_, ?_, ?_, ?_⟩
  · rw [happend, hrows]
    rfl
  · rw [mixedOutcome, (hreports true false).exitCode, hrows]
    decide
  · rw [mixedOutcome, (hreports true false).message, hrows]
    decide
  · rw [mixedOutcome, hjson (by decide), hrows]
  · exact hrows ▸ htable true

end CommandLine

end EventSeal

import EventSeal.CommandLine.Run
import EventSeal.Proofs.CommandLine.Columns
import EventSeal.Proofs.Record.Sorting
import Mathlib.Data.List.Forall2

/-!
# What is printed, read again

A report is printed in one of two forms and the description of an event in
one. In JSON what was printed is read as the value that was meant, because
its numbers are integers, its objects are sorted and few of them are inside
each other (`Readable`). Every report of rows whose numbers fit a word is
such a value (`ofBytes_json`), and so is every description
(`ofBytes_inspectOutput`), whatever the texts of the event are.

A table cannot be read in that way: the id and the name of an event stand in
it as they are. What can be said of it is where things stand (`Tabulates`).
After two lines of header each row has its number in front and its verdict at
the end, and the id and the name, cut to their widths, in columns between.
-/

namespace EventSeal

open Json

/-! ## Values that are read as they were -/

namespace Json.Value

/-- No reals, and all as a reader leaves it that has room for so many open
containers. -/
structure Readable (room : Nat) (v : Value) : Prop where
  isIntegral : v.isIntegral = true
  fits : Tree.Fits room v

section

variable {room : Nat}

theorem readable_null : Readable room .null :=
  ⟨rfl, trivial, Nat.zero_le room⟩

theorem readable_text (s : String) : Readable room (.text s) :=
  ⟨rfl, trivial, Nat.zero_le room⟩

theorem readable_whole {n : Int} (h : IsWord n) : Readable room (.number (.whole n)) :=
  ⟨decide_eq_true h, trivial, Nat.zero_le room⟩

theorem readable_array {vs : List Value} (h : ∀ v ∈ vs, Readable room v) :
    Readable (room + 1) (.array vs) := by
  refine ⟨?_, isOrderedItems_iff.mpr fun v hv => (h v hv).fits.1, ?_⟩
  · rw [Value.isIntegral, isIntegralItems_iff]
    exact fun v hv => (h v hv).isIntegral
  · rw [nesting]
    exact Nat.succ_le_succ (nestingItems_le_iff.mpr fun v hv => (h v hv).fits.2)

/-- The members are entered one after the other, in any order. -/
theorem readable_object_ofList {ms : List (String × Value)} (h : ∀ p ∈ ms, Readable room p.2) :
    Readable (room + 1) (.object (Members.ofList ms)) := by
  have hall : ∀ p ∈ Members.ofList ms, Readable room p.2 := fun p hp =>
    h p (Members.mem_of_mem_ofList hp)
  refine ⟨?_, Tree.fits_object (Members.isSorted_ofList ms) fun p hp => (hall p hp).fits⟩
  rw [Value.isIntegral, isIntegralMembers_iff]
  exact fun p hp => (hall p hp).isIntegral

theorem Readable.ofBytes_pretty {v : Value} (h : Readable room v)
    (hroom : room ≤ Tree.nestingLimit) : Value.ofBytes (Text.bytes (v.pretty ++ "\n")) = .ok v := by
  rw [Text.bytes_append]
  exact Value.ofBytes_pretty h.isIntegral h.fits.1 (Nat.le_trans h.fits.2 hroom) [.lineFeed]

end

end Json.Value

namespace Report

open Value

/-! ## Reports in JSON -/

theorem readable_rowValue {r : Row} (h : r.line < 2 ^ 64) : Readable 1 (rowValue r) := by
  have hword : IsWord r.line := by
    rw [IsWord]
    omega
  refine readable_object_ofList fun p hp => ?_
  simp only [List.mem_cons, List.not_mem_nil, or_false] at hp
  rcases hp with rfl | rfl | rfl | rfl
  · exact readable_whole hword
  · exact readable_text r.id
  · exact readable_text r.event
  · exact readable_text r.verdict.name

/-- In JSON a report says what its rows are. -/
theorem ofBytes_json {rs : List Row} (h : ∀ r ∈ rs, r.line < 2 ^ 64) :
    Value.ofBytes (Text.bytes (json rs)) = .ok (.array (rs.map rowValue)) := by
  have hrows : ∀ v ∈ rs.map rowValue, Readable 1 v :=
    List.forall_mem_map.mpr fun r hr => readable_rowValue (h r hr)
  exact (readable_array hrows).ofBytes_pretty (by decide)

/-- The members of a row, as they are sorted. -/
theorem rowValue_eq (r : Row) :
    rowValue r = .object [("event", .text r.event), ("id", .text r.id),
      ("line", .number (.whole r.line)), ("verdict", .text r.verdict.name)] := by
  have hid : "id" < "line" := by decide
  have hevent : "event" < "id" := by decide
  have hverdict : ¬ "verdict" < "event" ∧ ¬ "verdict" < "id" ∧ ¬ "verdict" < "line" := by decide
  simp only [rowValue, Members.ofList, List.foldl_cons, List.foldl_nil, Members.put,
    String.reduceEq, reduceIte, hid, hevent, hverdict]

/-- The verdict on a single line, in JSON. -/
theorem exists_members_json_singleton {r : Row} (h : r.line < 2 ^ 64) :
    ∃ told : Members, Value.ofBytes (Text.bytes (json [r])) = .ok (.array [.object told])
      ∧ .object told = rowValue r
      ∧ told.get? "verdict" = some (.text r.verdict.name) := by
  refine ⟨_, ?_, (rowValue_eq r).symm, rfl⟩
  rw [ofBytes_json (List.forall_mem_singleton.mpr h), List.map_singleton, rowValue_eq]

/-! ## Reports as tables -/

theorem toList_table (rs : List Row) :
    (table rs).toList
      = (headerChars :: List.replicate 90 '-' :: rs.map rowChars).flatMap (· ++ ['\n']) := by
  simp [table, line, String.toList_append, String.toList_join, List.flatMap_map]

/-- A line begins with the number of a row and ends with its verdict. -/
def Row.IsShownOn (r : Row) (l : List Char) : Prop :=
  Decimal.natChars r.line ++ [' '] <+: l ∧ ' ' :: r.verdict.name.toList <:+ l

theorem isShownOn_rowChars (r : Row) : r.IsShownOn (rowChars r) := by
  refine ⟨?_, _, (List.append_assoc _ [' '] _).symm⟩
  have hpad : pad 6 (Decimal.natChars r.line) ++ [' ']
      = Decimal.natChars r.line ++ [' ']
        ++ List.replicate (6 - (Decimal.natChars r.line).length) ' ' := by
    rw [pad, List.append_assoc, List.append_assoc, ← List.replicate_succ']
    rfl
  rw [rowChars, hpad, List.append_assoc, List.append_assoc, List.append_assoc, List.append_assoc,
    List.append_assoc]
  exact List.prefix_append _ _

/-- The verdict on a single line, at the end of a table. -/
theorem exists_line_table_singleton (r : Row) :
    ∃ l : List Char, (table [r]).toList
        = [headerChars, List.replicate 90 '-', l].flatMap (· ++ ['\n'])
      ∧ ' ' :: r.verdict.name.toList <:+ l :=
  ⟨rowChars r, toList_table [r], (isShownOn_rowChars r).2⟩

/-- What a table shows of a row: its number and its verdict at the ends, and in
their columns the id and the name as far as there is room. -/
structure Row.IsTabulatedAs (r : Row) (l : List Char) : Prop where
  ends : r.IsShownOn l
  id : StandsAt (r.number.length + 1) 24 (shown 24 r.id) l
  event : StandsAt (r.number.length + 26) 48 (shown 48 r.event) l

/-- A text is a table of rows: two lines of header and then the rows in
order, each with an end of line. -/
def Tabulates (rs : List Row) (s : String) : Prop :=
  ∃ body, s.toList = (headerChars :: List.replicate 90 '-' :: body).flatMap (· ++ ['\n'])
    ∧ List.Forall₂ Row.IsTabulatedAs rs body

theorem tabulates_table (rs : List Row) : Tabulates rs (table rs) := by
  refine ⟨rs.map rowChars, toList_table rs, ?_⟩
  rw [List.forall₂_map_right_iff, List.forall₂_same]
  exact fun r _ => ⟨isShownOn_rowChars r, standsAt_id r, standsAt_event r⟩

end Report

namespace CommandLine

open Value

/-! ## Descriptions -/

theorem readable_utcValue {room : Nat} (millis : Int64) : Readable room (utcValue millis) := by
  rw [utcValue]
  split
  · exact readable_text _
  · exact readable_null

theorem readable_labels (ls : List Label) (c : Coordinates) :
    Readable 1 (.object (labelMembers ls c)) := by
  refine readable_object_ofList fun p hp => ?_
  obtain ⟨l, -, rfl⟩ := List.mem_map.mp hp
  exact readable_text (l.text c)

theorem readable_summary (m : Mode) (e : Event) : Readable 2 (summary m e) := by
  refine readable_object_ofList fun p hp => ?_
  simp only [List.mem_cons, List.not_mem_nil, or_false] at hp
  rcases hp with rfl | rfl | rfl | rfl | rfl | rfl | rfl | rfl
  · exact readable_text e.id
  · exact readable_text m.name
  · exact readable_whole (Number.isWord_toInt e.createdAt)
  · exact readable_utcValue e.createdAt
  · exact readable_text (shownToken m e)
  · exact readable_text e.sign
  · exact readable_text (Verdict.ofEvent e).name
  · exact readable_labels _ e.coordinates

theorem ofBytes_inspectOutput (m : Mode) (e : Event) :
    Value.ofBytes (Text.bytes (inspectOutput m e)) = .ok (summary m e) :=
  (readable_summary m e).ofBytes_pretty (by decide)

/-- The verdict is shown under its name. -/
theorem exists_members_summary (m : Mode) (e : Event) :
    ∃ ms : Members, summary m e = .object ms
      ∧ ms.get? "verdict" = some (.text (Verdict.ofEvent e).name) := by
  refine ⟨_, rfl, ?_⟩
  simp [Members.ofList, Members.get?_put]

end CommandLine

end EventSeal

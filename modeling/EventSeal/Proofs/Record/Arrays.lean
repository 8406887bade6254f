import EventSeal.Proofs.Json.Ends
import EventSeal.Proofs.Record.Framing
import EventSeal.Proofs.Record.Shapes

/-!
# Arrays that are records

A record may be written as an array, and then its fields stand in order
without their names. Such an array is read as the object is that gives the
same values the names of the first fields (`readItems_eq_readMembers`): the
fields are set one after the other either way, and no name comes twice. What
there is no field for is refused (`readItems_eq_ok_iff`).

So the text of an event need not be an object. It is an object or an array,
and each is told from the other by its first mark
(`Event.objects_and_arrays_are_accepted`).
-/

namespace EventSeal

open Json

namespace Layout

variable {R : Type} {l : Layout R} {room : Nat}

/-! ## Items as members -/

/-- The items under the names of the columns in whose place they stand. -/
def entitled (cols : List (Column R)) (ts : List Tree) : List (String × Tree) :=
  (cols.map (·.name)).zip ts

/-- The induction is on the columns that are left. Of the names seen before,
only that they are none of those matters. -/
theorem readItems_eq_readMembers (h : l.Lawful) :
    ∀ {cols : List (Column R)} {ts : List Tree} {seen : List String} {r : R},
      (∀ c ∈ cols, c ∈ l.columns) → (cols.map (·.name)).Nodup →
      (∀ c ∈ cols, c.name ∉ seen) → ts.length ≤ cols.length →
        readItems room r cols ts
          = readMembers l.columns room seen r (Tree.named (entitled cols ts))
  | cols, [], seen, r, _, _, _, _ => by
      rw [entitled, List.zip_nil_right]
      cases cols <;> rfl
  | [], t :: ts, _, _, _, _, _, hlength => absurd hlength (Nat.not_succ_le_zero _)
  | c :: cols, t :: ts, seen, r, hcols, hnodup, hseen, hlength => by
      rw [List.forall_mem_cons] at hcols hseen
      rw [List.map_cons, List.nodup_cons] at hnodup
      have hcolumn : column? l.columns c.name = some c := column?_of_mem h.nodup_names hcols.1
      have hlater : ∀ d ∈ cols, d.name ∉ c.name :: seen := by
        intro d hd
        rw [List.mem_cons, not_or]
        exact ⟨fun heq => hnodup.1 (heq ▸ List.mem_map_of_mem hd), hseen.2 d hd⟩
      rw [entitled, List.map_cons, List.zip_cons_cons, readMembers_known hcolumn t room hseen.1,
        readItems]
      refine congrArg _ (funext fun x => ?_)
      exact readItems_eq_readMembers h hcols.2 hnodup.2 hlater (Nat.le_of_succ_le_succ hlength)

/-- The items have a column each, and can be read as what it holds. -/
theorem exists_readItems_iff : ∀ {cols : List (Column R)} {ts : List Tree} {r : R},
    (∃ r', readItems room r cols ts = .ok r') ↔
      ts.length ≤ cols.length ∧ ∀ p ∈ cols.zip ts, ∃ x, p.1.kind.read room p.2 = .ok x
  | cols, [], r => by
      rw [List.zip_nil_right]
      exact iff_of_true ⟨r, by cases cols <;> rfl⟩ ⟨Nat.zero_le _, List.forall_mem_nil _⟩
  | [], t :: ts, r => by
      refine iff_of_false ?_ fun h => Nat.not_succ_le_zero _ h.1
      rintro ⟨r', h⟩
      cases h
  | c :: cols, t :: ts, r => by
      rw [List.zip_cons_cons, List.forall_mem_cons, List.length_cons, List.length_cons,
        Nat.add_le_add_iff_right]
      cases hread : c.kind.read room t with
      | error f =>
          refine iff_of_false ?_ ?_
          · rintro ⟨r', h⟩
            rw [readItems, hread] at h
            cases h
          · rintro ⟨-, ⟨x, hx⟩, -⟩
            cases hx
      | ok x =>
          rw [readItems, hread, ok_bind, exists_readItems_iff]
          exact and_congr_right fun _ => (and_iff_right ⟨x, rfl⟩).symm

theorem fence?_of_read {t : Tree} {r : R} (h : l.read room t = .ok r) :
    t.fence? = some (0x7B, 0x7D) ∨ t.fence? = some (0x5B, 0x5D) := by
  cases t with
  | object ms cut => exact Or.inl rfl
  | array ts cut => exact Or.inr rfl
  | _ => nomatch h

end Layout

/-! ## Spelled arrays -/

/-- The text of an array, with all that is written of it. -/
structure ArraySpelling where
  before : Space
  opening : Space
  items : List (Space × Spelling × Space)
  after : Space

namespace ArraySpelling

def text (a : ArraySpelling) : String :=
  String.ofList (a.before.chars ++ (Spelling.array a.opening a.items).chars ++ a.after.chars)

/-- The items, without the white space around them. -/
def values (a : ArraySpelling) : List Spelling :=
  a.items.map fun i => i.2.1

theorem ofBytes_text (a : ArraySpelling) :
    Document.ofBytes (Text.bytes a.text) = ⟨.array (a.values.map Spelling.tree) none, false⟩ := by
  have hitems : ∀ items : List (Space × Spelling × Space),
      Spelling.itemTrees items = (items.map fun i => i.2.1).map Spelling.tree := by
    intro items
    induction items with
    | nil => rfl
    | cons i items ih => rw [Spelling.itemTrees, ih]; rfl
  have hdocument := Document.ofBytes_spelling a.before (.array a.opening a.items) a.after
  rw [Spelling.tree, hitems] at hdocument
  rw [text, Text.bytes_ofList]
  exact hdocument

end ArraySpelling

/-- The object gives the values of the array the names of the columns. -/
def Layout.Entitles {R : Type} (l : Layout R) (o : ObjectSpelling) (a : ArraySpelling) : Prop :=
  a.values.length ≤ l.columns.length
    ∧ o.members.map (fun m => (m.1.text, m.2.2.1)) = (l.columns.map (·.name)).zip a.values

namespace Layout

variable {R : Type} {l : Layout R} {o : ObjectSpelling} {a : ArraySpelling}

theorem ofBytes_array (l : Layout R) (a : ArraySpelling) :
    l.ofBytes (Text.bytes a.text)
      = readItems innerLimit l.blank l.columns (a.values.map Spelling.tree) := by
  rw [ofBytes, Document.read, a.ofBytes_text]
  show (readItems innerLimit l.blank l.columns (a.values.map Spelling.tree) >>= pure) >>= pure = _
  rw [bind_pure, bind_pure]

theorem ofBytes_object (l : Layout R) (o : ObjectSpelling) :
    l.ofBytes (Text.bytes o.text)
      = readMembers l.columns innerLimit [] l.blank (Tree.named o.fields) := by
  rw [ofBytes, Document.read, o.ofBytes_text]
  show (readMembers l.columns innerLimit [] l.blank (Tree.named o.fields) >>= pure) >>= pure = _
  rw [bind_pure, bind_pure]

theorem Lawful.ofBytes_array_eq (h : l.Lawful) (hoa : l.Entitles o a) :
    l.ofBytes (Text.bytes a.text) = l.ofBytes (Text.bytes o.text) := by
  obtain ⟨hlength, hmembers⟩ := hoa
  have hfields : o.fields = entitled l.columns (a.values.map Spelling.tree) := by
    have hmap := congrArg (List.map (Prod.map id Spelling.tree)) hmembers
    rw [List.map_map, ← List.zip_map_right] at hmap
    exact hmap
  rw [ofBytes_array, ofBytes_object, hfields]
  refine readItems_eq_readMembers h (fun _ hc => hc) h.nodup_names (fun _ _ => List.not_mem_nil) ?_
  rw [List.length_map]
  exact hlength

theorem exists_ofBytes_array_iff :
    (∃ r, l.ofBytes (Text.bytes a.text) = .ok r) ↔
      a.values.length ≤ l.columns.length
        ∧ ∀ p ∈ l.columns.zip a.values, ∃ x, p.1.kind.Denotes p.2 x := by
  rw [ofBytes_array, exists_readItems_iff, List.length_map, List.zip_map_right,
    List.forall_mem_map]
  refine and_congr_right fun _ => forall₂_congr fun p _ => exists_congr fun x => ?_
  exact Kind.read_tree_eq_ok_iff

theorem enclosed_of_ofBytes {bs : List UInt8} {r : R} (h : l.ofBytes bs = .ok r) :
    Enclosed 0x7B 0x7D bs ∨ Enclosed 0x5B 0x5D bs := by
  obtain ⟨hread, htrailing⟩ := Document.read_eq_ok_iff.mp h
  have hdocument : Document.ofBytes bs = ⟨(Document.ofBytes bs).root, false⟩ := by
    rw [← htrailing]
  have hwhole := isWhole_of_read hread
  rcases fence?_of_read hread with hfence | hfence
  · exact Or.inl (Document.enclosed_of_fence? hdocument hwhole hfence)
  · exact Or.inr (Document.enclosed_of_fence? hdocument hwhole hfence)

end Layout

/-! ## Events -/

namespace Event

/-- A text that is accepted is an object exactly if it is no array, and each is
known by its marks. An array is accepted exactly if it holds no more values than
there are fields, each of the type of the field in whose place it stands; and it
is read as the object with the same values under the names of the fields. -/
theorem objects_and_arrays_are_accepted (bs : List UInt8) :
    (∀ e : Event, ofBytes bs = .ok e → (Enclosed 0x7B 0x7D bs ↔ ¬ Enclosed 0x5B 0x5D bs))
      ∧ ∀ a : ArraySpelling, Text.bytes a.text = bs →
          ((∃ e, ofBytes bs = .ok e) ↔ a.values.length ≤ 11
              ∧ ∀ p ∈ layout.columns.zip a.values, ∃ x, p.1.kind.Denotes p.2 x)
            ∧ ∀ o : ObjectSpelling, layout.Entitles o a → ofBytes bs = ofText o.text := by
  refine ⟨fun e he => ?_, fun a ha => ⟨?_, fun o hoa => ?_⟩⟩
  · rcases Layout.enclosed_of_ofBytes he with hbraces | hbrackets
    · exact iff_of_true hbraces fun hbrackets => hbrackets.not_braces hbraces
    · exact iff_of_false hbrackets.not_braces (not_not_intro hbrackets)
  · rw [← ha]
    exact Layout.exists_ofBytes_array_iff
  · rw [← ha]
    exact lawful_layout.ofBytes_array_eq hoa

def idArray : ArraySpelling where
  before := [.space]
  opening := []
  items := [([], .quotation unknownQuotation, [.space])]
  after := [.lineFeed]

def idObject : ObjectSpelling where
  before := []
  opening := []
  members := [(plainKey idQuotation, [], .quotation unknownQuotation, [])]
  after := []

theorem idArray_is_accepted :
    idArray.text = " [\"x\" ]\n"
      ∧ idObject.text = "\x7b\"id\":\"x\"\x7d"
      ∧ ofText idArray.text = ofText idObject.text
      ∧ ofText idArray.text = .ok (blank.setPart .id "x")
      ∧ ¬ Enclosed 0x7B 0x7D (Text.bytes idArray.text) := by
  have hread : ofText idArray.text = .ok (blank.setPart .id "x") := rfl
  have hbrackets : Enclosed 0x5B 0x5D (Text.bytes idArray.text) :=
    ⟨[0x20], [0x22, 0x78, 0x22, 0x20], [0x0A], rfl, by decide, by decide⟩
  obtain ⟨hmarks, harray⟩ := objects_and_arrays_are_accepted (Text.bytes idArray.text)
  refine ⟨rfl, rfl, ?_, hread, fun hbraces => ?_⟩
  · exact (harray idArray rfl).2 idObject ⟨by decide, rfl⟩
  · exact (hmarks _ hread).mp hbraces hbrackets

/-- The empty array is read as an event, and is no object. -/
theorem blank_of_emptyArray :
    ofBytes (Text.bytes "[]") = .ok blank ∧ ¬ Enclosed 0x7B 0x7D (Text.bytes "[]") := by
  have hbrackets : Enclosed 0x5B 0x5D (Text.bytes "[]") := ⟨[], [], [], rfl, nofun, nofun⟩
  exact ⟨rfl, hbrackets.not_braces⟩

end Event

end EventSeal

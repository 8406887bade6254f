import EventSeal.Labels
import EventSeal.Proofs.Text.Separators

/-!
# Which codes share a label

Labels name events and tables, and different codes can have the same one. For
tables the rule is exact (`tableName_eq_iff`): two pairs share a table if one
context goes on past the underscore of the other pair.

The unique name has five parts with `.`, `.`, `->` and `@` between them, and is
taken apart from the left. As long as no part holds the mark that ends it, each
part ends at the first of its marks, so the name determines all five
(`eq_or_marked_of_uniqueName_eq`). An entity may end in a hyphen: the hyphen of
the mark comes after that one and still is the first with a `>` behind it. What
the last part holds makes no difference. The address is taken apart in the same
way and has three parts.

None of these conditions can be left out: a mark inside a part can be read as
the end of that part, which gives other coordinates with the same label
(`exists_double_of_markedInName`).
-/

namespace EventSeal

open Text (Holds Overruns ne_append_append)

theorem tableName_eq_iff {c e c' e' : String} :
    tableName c e = tableName c' e' ↔
      (c = c' ∧ e = e') ∨ Overruns "_" c e c' e' ∨ Overruns "_" c' e' c e :=
  Text.join_eq_iff (by decide)

theorem table_shared_iff {c e c' e' : String} :
    tableName c e = tableName c' e' ∧ (c, e) ≠ (c', e') ↔
      Overruns "_" c e c' e' ∨ Overruns "_" c' e' c e := by
  rw [tableName_eq_iff, Ne, Prod.mk.injEq]
  constructor
  · rintro ⟨hsame | hover, hne⟩
    · exact absurd hsame hne
    · exact hover
  · intro hover
    refine ⟨Or.inr hover, fun hsame => ?_⟩
    rcases hover with hover | hover
    · exact hover.ne (by decide) hsame.1
    · exact hover.ne (by decide) hsame.1.symm

namespace Coordinates

/-- A part of the unique name holds the mark that ends it. -/
def MarkedInName (c : Coordinates) : Prop :=
  Holds c.project "." ∨ Holds c.context "." ∨ Holds c.entity "->" ∨ Holds c.event "@"

/-- A part of the address holds the mark that ends it. -/
def MarkedInUrl (c : Coordinates) : Prop :=
  Holds c.project "/" ∨ Holds c.context "/"

variable {a b c : Coordinates}

/-! ## Unique names -/

theorem uniqueName_eq (c : Coordinates) :
    c.uniqueName = c.project ++ "." ++ (c.context ++ "." ++ (c.entity ++ "->"
      ++ (c.event ++ "@" ++ c.version))) := by
  simp only [uniqueName, fullName, entityName, String.append_assoc]

theorem eq_or_marked_of_uniqueName_eq (h : a.uniqueName = b.uniqueName) :
    a = b ∨ a.MarkedInName ∨ b.MarkedInName := by
  rw [uniqueName_eq, uniqueName_eq] at h
  simp only [MarkedInName]
  rcases Text.eq_or_holds_of_join_eq (by decide) h with ⟨hproject, h⟩ | hmark
  · rcases Text.eq_or_holds_of_join_eq (by decide) h with ⟨hcontext, h⟩ | hmark
    · rcases Text.eq_or_holds_of_join_eq (by decide) h with ⟨hentity, h⟩ | hmark
      · rcases Text.eq_or_holds_of_join_eq (by decide) h with ⟨hevent, hversion⟩ | hmark
        · obtain ⟨⟩ := a
          obtain ⟨⟩ := b
          rw [mk.injEq]
          exact Or.inl ⟨hproject, hcontext, hentity, hevent, hversion⟩
        · tauto
      · tauto
    · tauto
  · tauto

theorem exists_double_of_markedInName (h : c.MarkedInName) :
    ∃ d, d ≠ c ∧ d.uniqueName = c.uniqueName := by
  rcases h with ⟨u, v, hpart⟩ | ⟨u, v, hpart⟩ | ⟨u, v, hpart⟩ | ⟨u, v, hpart⟩
  · refine ⟨{ c with project := u, context := v ++ "." ++ c.context }, ?_, ?_⟩
    · intro heq
      exact ne_append_append (by decide) u v ((congrArg project heq).trans hpart)
    · simp only [uniqueName_eq, hpart, String.append_assoc]
  · refine ⟨{ c with context := u, entity := v ++ "." ++ c.entity }, ?_, ?_⟩
    · intro heq
      exact ne_append_append (by decide) u v ((congrArg context heq).trans hpart)
    · simp only [uniqueName_eq, hpart, String.append_assoc]
  · refine ⟨{ c with entity := u, event := v ++ "->" ++ c.event }, ?_, ?_⟩
    · intro heq
      exact ne_append_append (by decide) u v ((congrArg entity heq).trans hpart)
    · simp only [uniqueName_eq, hpart, String.append_assoc]
  · refine ⟨{ c with event := u, version := v ++ "@" ++ c.version }, ?_, ?_⟩
    · intro heq
      exact ne_append_append (by decide) u v ((congrArg event heq).trans hpart)
    · simp only [uniqueName_eq, hpart, String.append_assoc]

/-! ## Addresses -/

theorem entityUrl_eq (c : Coordinates) :
    c.entityUrl = "/" ++ (c.project ++ "/" ++ (c.context ++ "/" ++ c.entity)) := by
  simp only [entityUrl, String.append_assoc]

theorem eq_or_marked_of_entityUrl_eq (h : a.entityUrl = b.entityUrl) :
    (a.project = b.project ∧ a.context = b.context ∧ a.entity = b.entity)
      ∨ a.MarkedInUrl ∨ b.MarkedInUrl := by
  rw [entityUrl_eq, entityUrl_eq, String.append_right_inj] at h
  simp only [MarkedInUrl]
  rcases Text.eq_or_holds_of_join_eq (by decide) h with ⟨hproject, h⟩ | hmark
  · rcases Text.eq_or_holds_of_join_eq (by decide) h with ⟨hcontext, hentity⟩ | hmark
    · exact Or.inl ⟨hproject, hcontext, hentity⟩
    · tauto
  · tauto

theorem exists_double_of_markedInUrl (h : c.MarkedInUrl) :
    ∃ d : Coordinates, ¬ (d.project = c.project ∧ d.context = c.context ∧ d.entity = c.entity)
      ∧ d.entityUrl = c.entityUrl := by
  rcases h with ⟨u, v, hpart⟩ | ⟨u, v, hpart⟩
  · refine ⟨{ c with project := u, context := v ++ "/" ++ c.context }, ?_, ?_⟩
    · rintro ⟨heq, -⟩
      exact ne_append_append (by decide) u v (heq.trans hpart)
    · simp only [entityUrl_eq, hpart, String.append_assoc]
  · refine ⟨{ c with context := u, entity := v ++ "/" ++ c.entity }, ?_, ?_⟩
    · rintro ⟨-, heq, -⟩
      exact ne_append_append (by decide) u v (heq.trans hpart)
    · simp only [entityUrl_eq, hpart, String.append_assoc]

end Coordinates

/-- Labels coincide only where a code holds a separator, and wherever one does
there are other codes with the same label. -/
theorem labels_collide_at_separators :
    (∀ c₁ e₁ c₂ e₂ : String,
        tableName c₁ e₁ = tableName c₂ e₂ ∧ (c₁, e₁) ≠ (c₂, e₂) ↔
          (∃ m, c₂ = c₁ ++ "_" ++ m ∧ e₁ = m ++ "_" ++ e₂)
            ∨ ∃ m, c₁ = c₂ ++ "_" ++ m ∧ e₂ = m ++ "_" ++ e₁)
      ∧ (∀ a b : Coordinates, a.uniqueName = b.uniqueName →
          a = b ∨ a.MarkedInName ∨ b.MarkedInName)
      ∧ (∀ a b : Coordinates, a.entityUrl = b.entityUrl →
          (a.project = b.project ∧ a.context = b.context ∧ a.entity = b.entity)
            ∨ a.MarkedInUrl ∨ b.MarkedInUrl)
      ∧ (∀ c : Coordinates, c.MarkedInName → ∃ d, d ≠ c ∧ d.uniqueName = c.uniqueName)
      ∧ ∀ c : Coordinates, c.MarkedInUrl →
          ∃ d : Coordinates, ¬ (d.project = c.project ∧ d.context = c.context ∧ d.entity = c.entity)
            ∧ d.entityUrl = c.entityUrl :=
  ⟨fun _ _ _ _ => table_shared_iff, fun _ _ => Coordinates.eq_or_marked_of_uniqueName_eq,
    fun _ _ => Coordinates.eq_or_marked_of_entityUrl_eq,
    fun _ => Coordinates.exists_double_of_markedInName,
    fun _ => Coordinates.exists_double_of_markedInUrl⟩

/-- An entity that ends in a hyphen, and an event with an arrow. -/
def hyphenCoordinates : Coordinates :=
  ⟨"sys", "user", "avatar-", "draft->save", "1"⟩

/-- The same name with the arrow in the entity. -/
def arrowCoordinates : Coordinates :=
  ⟨"sys", "user", "avatar-->draft", "save", "1"⟩

def slashCoordinates : Coordinates :=
  ⟨"sys/user", "a", "b", "", ""⟩

theorem labels_of_crossedCodes :
    tableName "user" "avatar_log" = tableName "user_avatar" "log"
      ∧ hyphenCoordinates.uniqueName = arrowCoordinates.uniqueName
      ∧ (hyphenCoordinates.MarkedInName ∨ arrowCoordinates.MarkedInName)
      ∧ ∃ d : Coordinates, ¬ (d.project = "sys/user" ∧ d.context = "a" ∧ d.entity = "b")
          ∧ d.entityUrl = slashCoordinates.entityUrl
          ∧ (d.MarkedInUrl ∨ slashCoordinates.MarkedInUrl) := by
  obtain ⟨htables, hnames, hurls, -, hdoubles⟩ := labels_collide_at_separators
  have hname : hyphenCoordinates.uniqueName = arrowCoordinates.uniqueName := by decide
  obtain ⟨d, hne, hurl⟩ := hdoubles slashCoordinates (Or.inl ⟨"sys", "user", rfl⟩)
  refine ⟨?_, hname, ?_, d, hne, hurl, ?_⟩
  · exact ((htables "user" "avatar_log" "user_avatar" "log").mpr (Or.inl ⟨"avatar", rfl, rfl⟩)).1
  · exact (hnames _ _ hname).resolve_left (by decide)
  · exact (hurls _ _ hurl).resolve_left hne

end EventSeal

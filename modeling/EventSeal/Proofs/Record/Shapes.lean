import EventSeal.Proofs.Json.Figures
import EventSeal.Proofs.Json.Spelled
import EventSeal.Proofs.Json.Wholeness
import EventSeal.Proofs.Record.Fields
import EventSeal.Proofs.Record.WireForms

/-!
# Which objects are records

Of an object, a reader of records looks at the members whose keys are
names of fields. It accepts the object exactly if no name occurs twice and
under each name that occurs there is a value of the type of the field
(`readMembers_eq_ok_iff`), and the record is then settled field by field.
Nothing else of the text matters: not the order of the members, not what
other members there are and what they hold, and nothing that a writer is
free to choose (`Shaped`).

The induction is on the members. Each either leaves the record as it is or
sets one field, and all it changes for the members after it is that the
name of that field has been seen.
-/

namespace EventSeal

open Json

/-! ## Members by name -/

namespace Json

/-- What stands under a key, in order. -/
def under (key : String) (ms : List (String × Tree)) : List Tree :=
  (ms.filter fun p => p.1 == key).map Prod.snd

theorem under_cons_self (key : String) (t : Tree) (ms : List (String × Tree)) :
    under key ((key, t) :: ms) = t :: under key ms := by
  simp [under]

theorem under_cons_of_ne {key k : String} (h : k ≠ key) (t : Tree) (ms : List (String × Tree)) :
    under key ((k, t) :: ms) = under key ms := by
  simp [under, h]

/-- The members of a tree whose keys all denote texts. -/
def Tree.named (ms : List (String × Tree)) : List (Option String × Tree) :=
  ms.map fun p => (some p.1, p.2)

end Json

namespace Layout

variable {R : Type} {l : Layout R}

theorem readMembers_unknown {cols : List (Column R)} {k : String} (h : column? cols k = none)
    {t : Tree} (ht : t.isWhole = true) (room : Nat) (seen : List String) (r : R)
    (ms : List (String × Tree)) :
    readMembers cols room seen r (Tree.named ((k, t) :: ms))
      = readMembers cols room seen r (Tree.named ms) := by
  rw [Tree.named, List.map_cons, readMembers, Tree.keyText, ok_bind, h]
  dsimp only
  rw [Tree.skip_eq_ok_iff.mpr ht]
  rfl

theorem readMembers_known {cols : List (Column R)} {k : String} {d : Column R}
    (h : column? cols k = some d) (t : Tree) (room : Nat) {seen : List String} (hseen : k ∉ seen)
    (r : R) (ms : List (String × Tree)) :
    readMembers cols room seen r (Tree.named ((k, t) :: ms))
      = d.kind.read room t >>= fun x =>
          readMembers cols room (k :: seen) (d.set x r) (Tree.named ms) := by
  rw [Tree.named, List.map_cons, readMembers, Tree.keyText, ok_bind, h]
  exact if_neg hseen

theorem readMembers_repeated {cols : List (Column R)} {k : String} {d : Column R}
    (h : column? cols k = some d) (t : Tree) (room : Nat) {seen : List String} (hseen : k ∈ seen)
    (r : R) (ms : List (String × Tree)) :
    readMembers cols room seen r (Tree.named ((k, t) :: ms)) = .error .mistyped := by
  rw [Tree.named, List.map_cons, readMembers, Tree.keyText, ok_bind, h]
  exact if_pos hseen

/-- What a field holds in the end, `y`, if it held `x` and the trees `ts`
stand under its name: what it held, if there are none, and what the tree
reads as, if there is one and the name is new. -/
def Settles (room : Nat) (seen : List String) (c : Column R) (ts : List Tree)
    (x y : c.kind.Content) : Prop :=
  (ts = [] ∧ y = x) ∨ ∃ t, ts = [t] ∧ c.name ∉ seen ∧ c.kind.read room t = .ok y

section

variable {room : Nat} {seen : List String} {c : Column R} {t : Tree} {ts : List Tree}
  {x y : c.kind.Content}

/-- The first of the trees under a name has to be the only one. -/
theorem settles_cons_iff :
    Settles room seen c (t :: ts) x y ↔ ts = [] ∧ c.name ∉ seen ∧ c.kind.read room t = .ok y := by
  constructor
  · rintro (⟨hnil, -⟩ | ⟨t', hcons, hseen, hread⟩)
    · nomatch hnil
    · obtain ⟨rfl, rfl⟩ := List.cons.inj hcons
      exact ⟨rfl, hseen, hread⟩
  · rintro ⟨rfl, hseen, hread⟩
    exact Or.inr ⟨t, rfl, hseen, hread⟩

/-- Once its name is seen, a field is what it is. -/
theorem settles_seen_iff : Settles room (c.name :: seen) c ts x y ↔ ts = [] ∧ y = x := by
  refine ⟨?_, Or.inl⟩
  rintro (h | ⟨-, -, hseen, -⟩)
  · exact h
  · exact absurd List.mem_cons_self hseen

theorem settles_cons_seen_iff {k : String} (hk : c.name ≠ k) :
    Settles room (k :: seen) c ts x y ↔ Settles room seen c ts x y := by
  simp [Settles, hk]

end

theorem Separable.readMembers_eq_ok_iff (h : l.Separable) {room : Nat} {r' : R} :
    ∀ {ms : List (String × Tree)} {seen : List String} {r : R},
      (∀ p ∈ ms, p.2.isWhole = true) →
      (readMembers l.columns room seen r (Tree.named ms) = .ok r' ↔
        ∀ c ∈ l.columns, Settles room seen c (under c.name ms) (c.get r) (c.get r'))
  | [], seen, r, _ => by
      constructor
      · intro hr c _
        obtain rfl := Except.ok.inj hr
        exact Or.inl ⟨rfl, rfl⟩
      · intro hall
        refine congrArg Except.ok (h.ext_get fun c hc => ?_)
        rcases hall c hc with ⟨-, heq⟩ | ⟨t, hnil, -⟩
        · exact heq.symm
        · nomatch hnil
  | (k, t) :: ms, seen, r, hwhole => by
      obtain ⟨ht, hms⟩ := List.forall_mem_cons.mp hwhole
      cases hcolumn : column? l.columns k with
      | none =>
          rw [readMembers_unknown hcolumn ht, h.readMembers_eq_ok_iff hms]
          refine forall₂_congr fun c hc => ?_
          rw [under_cons_of_ne (ne_of_column?_eq_none hcolumn c hc).symm]
      | some d =>
          obtain ⟨hd, rfl⟩ := column?_eq_some hcolumn
          by_cases hseen : d.name ∈ seen
          · rw [readMembers_repeated hcolumn t room hseen]
            refine iff_of_false nofun fun hall => ?_
            have hsettles := hall d hd
            rw [under_cons_self, settles_cons_iff] at hsettles
            exact hsettles.2.1 hseen
          rw [readMembers_known hcolumn t room hseen]
          cases hread : d.kind.read room t with
          | error f =>
              refine iff_of_false nofun fun hall => ?_
              have hsettles := hall d hd
              rw [under_cons_self, settles_cons_iff, hread] at hsettles
              nomatch hsettles.2.2
          | ok x =>
              rw [ok_bind, h.readMembers_eq_ok_iff hms]
              refine forall₂_congr fun c hc => ?_
              -- the field that was just set must not be named again; any other is as before
              by_cases hname : c.name = d.name
              · obtain rfl := h.eq_of_name_eq hc hd hname
                rw [settles_seen_iff, under_cons_self, settles_cons_iff, hread, h.get_set c hc]
                refine and_congr_right fun _ => ⟨fun heq => ⟨hseen, ?_⟩, fun heq => ?_⟩
                · rw [heq]
                · exact (Except.ok.inj heq.2).symm
              · rw [settles_cons_seen_iff hname, under_cons_of_ne (Ne.symm hname),
                  h.get_set_of_ne d hd c hc (Ne.symm hname)]

end Layout

/-! ## Spelled objects -/

/-- The text of an object, with all that is written of it. -/
structure ObjectSpelling where
  before : Space
  opening : Space
  members : List (Key × Space × Spelling × Space)
  after : Space

namespace ObjectSpelling

def text (o : ObjectSpelling) : String :=
  String.ofList
    (o.before.chars ++ (Spelling.object o.opening o.members).chars ++ o.after.chars)

/-- The values under a key, in order. -/
def values (o : ObjectSpelling) (key : String) : List Spelling :=
  (o.members.filter fun m => m.1.text == key).map fun m => m.2.2.1

/-- The keys and values, without how they are written. -/
def fields (o : ObjectSpelling) : List (String × Tree) :=
  o.members.map fun m => (m.1.text, m.2.2.1.tree)

theorem ofBytes_text (o : ObjectSpelling) :
    Document.ofBytes (Text.bytes o.text) = ⟨.object (Tree.named o.fields) none, false⟩ := by
  have hmembers : ∀ members : List (Key × Space × Spelling × Space),
      Spelling.memberTrees members
        = Tree.named (members.map fun m => (m.1.text, m.2.2.1.tree)) := by
    intro members
    induction members with
    | nil => rfl
    | cons m members ih => rw [Spelling.memberTrees, ih]; rfl
  have hdocument := Document.ofBytes_spelling o.before (.object o.opening o.members) o.after
  rw [Spelling.tree, hmembers] at hdocument
  rw [text, Text.bytes_ofList]
  exact hdocument

theorem isWhole_fields (o : ObjectSpelling) : ∀ p ∈ o.fields, p.2.isWhole = true := by
  intro p hp
  obtain ⟨m, -, rfl⟩ := List.mem_map.mp hp
  exact Spelling.isWhole_tree _

theorem under_fields (o : ObjectSpelling) (key : String) :
    under key o.fields = (o.values key).map Spelling.tree := by
  rw [under, fields, values, List.filter_map, List.map_map, List.map_map]
  rfl

end ObjectSpelling

/-! ## Values of fields -/

namespace Kind

/-- The value is of the type of the field, and it is `x`. -/
def Denotes : (k : Kind) → Spelling → k.Content → Prop
  | .text, s, x => ∃ ps, s = .quotation ps ∧ ps.text = x
  | .integer, s, x => ∃ f, s = .figure f ∧ f.IsInteger ∧ f.integer = x.toInt
  | .flag, s, x => s = .bool x
  | .rules, s, x => Rules.read Layout.innerLimit s.tree = .ok x

theorem read_tree_eq_ok_iff {k : Kind} {s : Spelling} {x : k.Content} :
    k.read Layout.innerLimit s.tree = .ok x ↔ k.Denotes s x := by
  cases k with
  | text =>
      refine Tree.text_eq_ok_iff.trans ⟨fun h => ?_, ?_⟩
      · cases s with
        | quotation ps => exact ⟨ps, rfl, Option.some.inj (Tree.string.inj h)⟩
        | _ => nomatch h
      · rintro ⟨ps, rfl, rfl⟩
        rfl
  | integer =>
      refine Tree.int64_eq_ok_iff.trans ⟨?_, ?_⟩
      · rintro ⟨n, hn, hi⟩
        cases s with
        | figure f =>
            obtain rfl := Tree.number.inj hn
            exact ⟨f, rfl, Figure.int64?_eq_some_iff.mp hi⟩
        | _ => nomatch hn
      · rintro ⟨f, rfl, hf⟩
        exact ⟨_, rfl, Figure.int64?_eq_some_iff.mpr hf⟩
  | flag =>
      refine Tree.flag_eq_ok_iff.trans ⟨fun h => ?_, ?_⟩
      · cases s with
        | bool b => exact congrArg Spelling.bool (Tree.bool.inj h)
        | _ => nomatch h
      · rintro rfl
        rfl
  | rules => exact Iff.rfl

/-- What a field holds that is absent. -/
def zero : (k : Kind) → k.Content
  | .text => ""
  | .integer => 0
  | .flag => false
  | .rules => .blank

theorem coerce_none (k : Kind) : k.coerce none = k.zero := by
  cases k <;> rfl

end Kind

/-! ## Objects that are records -/

namespace Layout

variable {R : Type} {l : Layout R} {o o' : ObjectSpelling} {r : R}

theorem Separable.ofBytes_text_eq_ok_iff (h : l.Separable) :
    l.ofBytes (Text.bytes o.text) = .ok r ↔
      ∀ c ∈ l.columns,
        Settles innerLimit [] c (under c.name o.fields) c.kind.zero (c.get r) := by
  rw [ofBytes, Document.read_eq_ok_iff, o.ofBytes_text, and_iff_left rfl]
  show (readMembers l.columns innerLimit [] l.blank (Tree.named o.fields) >>= fun r => .ok r)
    = .ok r ↔ _
  rw [bind_eq_ok_iff]
  simp only [Except.ok.injEq, exists_eq_right]
  rw [h.readMembers_eq_ok_iff o.isWhole_fields]
  refine forall₂_congr fun c hc => ?_
  rw [h.get_blank c hc, Kind.coerce_none]

theorem settles_values_iff {c : Column R} {x : c.kind.Content} :
    Settles innerLimit [] c (under c.name o.fields) c.kind.zero x ↔
      (o.values c.name = [] ∧ x = c.kind.zero)
        ∨ ∃ s, o.values c.name = [s] ∧ c.kind.Denotes s x := by
  rw [o.under_fields, Settles, List.map_eq_nil_iff]
  refine or_congr_right ⟨?_, ?_⟩
  · rintro ⟨t, hvalues, -, hread⟩
    obtain ⟨s, hs, rfl⟩ := List.map_eq_singleton_iff.mp hvalues
    exact ⟨s, hs, Kind.read_tree_eq_ok_iff.mp hread⟩
  · rintro ⟨s, hs, hx⟩
    rw [hs]
    exact ⟨s.tree, rfl, List.not_mem_nil, Kind.read_tree_eq_ok_iff.mpr hx⟩

theorem settles_perm {room : Nat} {seen : List String} {c : Column R} {ts ts' : List Tree}
    (h : ts.Perm ts') {x y : c.kind.Content} :
    Settles room seen c ts x y ↔ Settles room seen c ts' x y := by
  have hnil : ts = [] ↔ ts' = [] :=
    ⟨fun he => (he ▸ h).symm.eq_nil, fun he => (he ▸ h).eq_nil⟩
  have hone : ∀ t, ts = [t] ↔ ts' = [t] := fun t =>
    ⟨fun he => List.perm_singleton.mp (he ▸ h).symm, fun he => List.perm_singleton.mp (he ▸ h)⟩
  simp only [Settles, hnil, hone]

/-- The members whose keys are names of fields, whatever their order. -/
def known (l : Layout R) (o : ObjectSpelling) : List (String × Tree) :=
  o.fields.filter fun p => (column? l.columns p.1).isSome

theorem under_known (h : l.Lawful) {c : Column R} (hc : c ∈ l.columns) :
    under c.name (l.known o) = under c.name o.fields := by
  rw [under, known, List.filter_filter, under]
  refine congrArg (List.map Prod.snd) (List.filter_congr fun p _ => ?_)
  by_cases hp : p.1 = c.name
  · rw [hp, column?_of_mem h.nodup_names hc, beq_self_eq_true]
    rfl
  · rw [beq_eq_false_iff_ne.mpr hp, Bool.false_and]

/-- One value for every field that is named, and a record of them. -/
theorem Separable.exists_of_values (h : l.Separable)
    (hvalues : ∀ c ∈ l.columns, (o.values c.name).length ≤ 1
      ∧ ∀ s ∈ o.values c.name, ∃ x, c.kind.Denotes s x) :
    ∃ r, l.ofBytes (Text.bytes o.text) = .ok r := by
  have hcontent : ∀ c : Column R, ∃ x : c.kind.Content, c ∈ l.columns →
      Settles innerLimit [] c (under c.name o.fields) c.kind.zero x := by
    intro c
    by_cases hc : c ∈ l.columns
    · obtain ⟨hlength, hdenotes⟩ := hvalues c hc
      rcases hlist : o.values c.name with _ | ⟨s, _ | ⟨s', rest⟩⟩
      · exact ⟨c.kind.zero, fun _ => settles_values_iff.mpr (Or.inl ⟨hlist, rfl⟩)⟩
      · obtain ⟨x, hx⟩ := hdenotes s (hlist ▸ List.mem_singleton_self s)
        exact ⟨x, fun _ => settles_values_iff.mpr (Or.inr ⟨s, hlist, hx⟩)⟩
      · rw [hlist, List.length_cons, List.length_cons] at hlength
        omega
    · exact ⟨c.kind.zero, fun hmem => absurd hmem hc⟩
  choose x hx using hcontent
  refine ⟨l.columns.foldl (fun a c => c.set (x c) a) l.blank, ?_⟩
  refine h.ofBytes_text_eq_ok_iff.mpr fun c hc => ?_
  rw [h.get_foldl x (fun _ hc => hc) h.nodup_names hc]
  exact hx c hc

end Layout

theorem toOption_eq_some_iff {ε α : Type} {x : Except ε α} {a : α} :
    x.toOption = some a ↔ x = .ok a := by
  cases x <;> simp [Except.toOption]

/-- An object is read as a record exactly if every name of a field has at
most one value and that is of the type of the field. The fields then hold
those values, and zero where there is none. What is read, if anything, is
the same for all objects that have the same values under the names of
fields, whatever order they are in, what is between them and how all of it
is written. -/
structure Shaped {R : Type} (l : Layout R) (read : String → Except Fault R) : Prop where
  kind_ne_rules : ∀ c ∈ l.columns, c.kind ≠ .rules
  accepts_iff : ∀ o : ObjectSpelling, (∃ r, read o.text = .ok r) ↔
    ∀ c ∈ l.columns, (o.values c.name).length ≤ 1
      ∧ ∀ s ∈ o.values c.name, ∃ x, c.kind.Denotes s x
  holds : ∀ (o : ObjectSpelling) (r : R), read o.text = .ok r → ∀ c ∈ l.columns,
    (o.values c.name = [] → c.get r = c.kind.zero)
      ∧ ∀ s ∈ o.values c.name, c.kind.Denotes s (c.get r)
  eq_of_known : ∀ o o' : ObjectSpelling, (l.known o).Perm (l.known o') →
    (read o.text).toOption = (read o'.text).toOption

theorem Layout.Separable.shaped {R : Type} {l : Layout R} (h : l.Separable)
    (hrules : ∀ c ∈ l.columns, c.kind ≠ .rules) :
    Shaped l fun s => l.ofBytes (Text.bytes s) where
  kind_ne_rules := hrules
  accepts_iff o := by
    refine ⟨?_, h.exists_of_values⟩
    rintro ⟨r, hr⟩ c hc
    rcases settles_values_iff.mp (h.ofBytes_text_eq_ok_iff.mp hr c hc) with
      ⟨hnone, -⟩ | ⟨s, hone, hs⟩
    · rw [hnone]
      exact ⟨Nat.zero_le 1, nofun⟩
    · rw [hone]
      exact ⟨Nat.le_refl 1, fun s' hs' => ⟨_, List.mem_singleton.mp hs' ▸ hs⟩⟩
  holds o r hr c hc := by
    rcases settles_values_iff.mp (h.ofBytes_text_eq_ok_iff.mp hr c hc) with
      ⟨hnone, hzero⟩ | ⟨s, hone, hs⟩
    · rw [hnone]
      exact ⟨fun _ => hzero, nofun⟩
    · rw [hone]
      exact ⟨nofun, fun s' hs' => List.mem_singleton.mp hs' ▸ hs⟩
  eq_of_known o o' hperm := by
    refine Option.ext fun r => ?_
    rw [toOption_eq_some_iff, toOption_eq_some_iff, h.ofBytes_text_eq_ok_iff,
      h.ofBytes_text_eq_ok_iff]
    refine forall₂_congr fun c hc => settles_perm ?_
    rw [← under_known h.toLawful hc, ← under_known h.toLawful hc]
    exact (hperm.filter _).map _

theorem shaped_ofText :
    Shaped Event.layout Event.ofText ∧ Shaped Version.layout Version.ofText :=
  ⟨Event.separable_layout.shaped Event.kind_ne_rules_of_mem_layout,
    Version.separable_layout.shaped Version.kind_ne_rules_of_mem_layout⟩

/-! A version spelled twice, and once with a field too many. -/

def plainKey (ps : Quotation) : Key :=
  ⟨[], ps, []⟩

def idQuotation : Quotation :=
  [.plain 'i' (by decide), .plain 'd' (by decide)]

def onlineQuotation : Quotation :=
  [.plain 'o' (by decide), .plain 'n' (by decide), .plain 'l' (by decide),
    .plain 'i' (by decide), .plain 'n' (by decide), .plain 'e' (by decide)]

def unknownQuotation : Quotation :=
  [.plain 'x' (by decide)]

/-- The `i` as a code, an unknown key twice, and white space. -/
def looseVersion : ObjectSpelling where
  before := [.lineFeed]
  opening := [.space]
  members := [
    (plainKey unknownQuotation, [.tab], .array [] [([], .object [.space] [], [])], []),
    (⟨[.space], [.code ⟨⟨0, false⟩, ⟨0, false⟩, ⟨6, false⟩, ⟨9, false⟩⟩ (by decide),
        .plain 'd' (by decide)], [.space]⟩,
      [], .figure ⟨true, .positive 4 [], none, none⟩, [.carriageReturn]),
    (plainKey unknownQuotation, [], .figure ⟨false, .positive 0 [],
      none, some ⟨true, .plus, ⟨.last 9, [.last 9, .last 9, .last 9]⟩⟩⟩, []),
    (plainKey onlineQuotation, [.space], .bool true, [])]
  after := [.lineFeed]

def tightVersion : ObjectSpelling where
  before := []
  opening := []
  members := [
    (plainKey onlineQuotation, [], .bool true, []),
    (plainKey idQuotation, [], .figure ⟨true, .positive 4 [], none, none⟩, [])]
  after := []

def doubledVersion : ObjectSpelling where
  before := []
  opening := []
  members := [(plainKey idQuotation, [], .figure ⟨false, .zero, none, none⟩, []),
    (plainKey idQuotation, [], .figure ⟨false, .zero, none, none⟩, [])]
  after := []

theorem shaped_looseVersion :
    looseVersion.text
        = "\n\x7b \"x\":\t[\x7b \x7d], \"\\u0069d\" :-5\r,\"x\":1E+9999,\"online\": true\x7d\n"
      ∧ Version.ofText looseVersion.text = .ok { Version.blank with id := -5, online := true }
      ∧ (Version.ofText looseVersion.text).toOption = (Version.ofText tightVersion.text).toOption
      ∧ ¬ ∃ v, Version.ofText doubledVersion.text = .ok v := by
  refine ⟨rfl, rfl, ?_, fun haccepts => ?_⟩
  · have hloose : Version.layout.known looseVersion
        = [("id", .number ⟨true, 5, 0, false, 0, true⟩), ("online", .bool true)] := rfl
    have htight : Version.layout.known tightVersion
        = [("online", .bool true), ("id", .number ⟨true, 5, 0, false, 0, true⟩)] := rfl
    refine shaped_ofText.2.eq_of_known _ _ ?_
    rw [hloose, htight]
    exact .swap _ _ []
  · have hid := (shaped_ofText.2.accepts_iff doubledVersion).mp haccepts _ List.mem_cons_self
    exact absurd hid.1 (by decide)

end EventSeal

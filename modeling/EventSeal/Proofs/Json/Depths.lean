import EventSeal.Proofs.Json.Nesting
import EventSeal.Proofs.Json.Reals
import EventSeal.Proofs.Json.Spelled

/-!
# Values too deep to be read

The written form of a value is one of the ways to spell it, whatever its
numbers are and in whatever order its members stand (`exists_spelling`). So it
has the tree of a spelling, and that nests as deep as the value does. What a
reader accepts has no more containers open at one time than there is room for
(`nesting_le_of_value`), and therefore the text of a deeper value is not read,
as this value or any other (`Value.ofText_compact_ne_ok`).

The depth has to be followed on the tree and not on the value that is read of
it. Where a key stands twice the value keeps the last member only, and the
deepest place may have been in the other.
-/

namespace EventSeal.Json

/-! ## Depth of trees -/

namespace Tree

mutual

/-- How many containers are open at the deepest place. -/
def nesting : Tree → Nat
  | .array items _ => nestingItems items + 1
  | .object members _ => nestingMembers members + 1
  | .null | .bool _ | .number _ | .string _ | .gap _ => 0

def nestingItems : List Tree → Nat
  | [] => 0
  | t :: ts => max t.nesting (nestingItems ts)

def nestingMembers : List (Option String × Tree) → Nat
  | [] => 0
  | (_, t) :: ms => max t.nesting (nestingMembers ms)

end

mutual

theorem nesting_le_of_value : ∀ {room : Nat} {t : Tree} {v : Value},
    t.value room = .ok v → t.nesting ≤ room
  | room, .null, _, _ => Nat.zero_le room
  | room, .bool _, _, _ => Nat.zero_le room
  | room, .number _, _, _ => Nat.zero_le room
  | room, .string _, _, _ => Nat.zero_le room
  | room, .gap _, _, _ => Nat.zero_le room
  | 0, .array _ _, _, h => nomatch h
  | room + 1, .array items cut, v, h => by
      rw [value, bind_eq_ok_iff] at h
      obtain ⟨vs, hvs, -⟩ := h
      exact Nat.succ_le_succ (nestingItems_le_of_valueItems hvs)
  | 0, .object _ _, _, h => nomatch h
  | room + 1, .object members cut, v, h => by
      rw [value, bind_eq_ok_iff] at h
      obtain ⟨ms, hms, -⟩ := h
      exact Nat.succ_le_succ (nestingMembers_le_of_valueMembers hms)

theorem nestingItems_le_of_valueItems : ∀ {room : Nat} {ts : List Tree} {vs : List Value},
    valueItems room ts = .ok vs → nestingItems ts ≤ room
  | room, [], _, _ => Nat.zero_le room
  | room, t :: ts, vs, h => by
      rw [valueItems, bind_eq_ok_iff] at h
      obtain ⟨v, hv, h⟩ := h
      obtain ⟨ws, hws, -⟩ := bind_eq_ok_iff.mp h
      exact max_le (nesting_le_of_value hv) (nestingItems_le_of_valueItems hws)

theorem nestingMembers_le_of_valueMembers : ∀ {room : Nat} {ms : List (Option String × Tree)}
    {m m' : Members}, valueMembers room m ms = .ok m' → nestingMembers ms ≤ room
  | room, [], _, _, _ => Nat.zero_le room
  | room, (key, t) :: ms, m, m', h => by
      rw [valueMembers, bind_eq_ok_iff] at h
      obtain ⟨k, -, h⟩ := h
      obtain ⟨v, hv, h⟩ := bind_eq_ok_iff.mp h
      exact max_le (nesting_le_of_value hv) (nestingMembers_le_of_valueMembers h)

end

end Tree

/-! ## Written strings -/

theorem exists_piece (c : Char) : ∃ p : Piece, p.chars = escapedChar c := by
  rw [escapedChar]
  split_ifs with hquote hback _ _ _ _ _ hcontrol
  · exact ⟨.letter .quotation, rfl⟩
  · exact ⟨.letter .backslash, rfl⟩
  · exact ⟨.letter .backspace, rfl⟩
  · exact ⟨.letter .formFeed, rfl⟩
  · exact ⟨.letter .lineFeed, rfl⟩
  · exact ⟨.letter .carriageReturn, rfl⟩
  · exact ⟨.letter .tab, rfl⟩
  · -- a control character has two zeros in front, and is no half of a pair
    let n : Code := ⟨⟨0, false⟩, ⟨0, false⟩, ⟨⟨c.toNat / 16, by omega⟩, false⟩,
      ⟨⟨c.toNat % 16, by omega⟩, false⟩⟩
    have hn : n.value = 16 * (c.toNat / 16) + c.toNat % 16 := by simp [n, Code.value]
    refine ⟨.code n ⟨fun h => ?_, fun h => ?_⟩, rfl⟩
    · have := h.1
      omega
    · have := h.1
      omega
  · exact ⟨.plain c ⟨hquote, hback, Nat.not_lt.mp hcontrol⟩, rfl⟩

theorem exists_quotation (s : String) : ∃ ps : Quotation, ps.chars = (quote s).toList := by
  have hpieces : ∀ cs : List Char,
      ∃ ps : Quotation, ps.flatMap Piece.chars = cs.flatMap escapedChar := by
    intro cs
    induction cs with
    | nil => exact ⟨[], rfl⟩
    | cons c cs ih =>
        obtain ⟨p, hp⟩ := exists_piece c
        obtain ⟨ps, hps⟩ := ih
        exact ⟨p :: ps, by rw [List.flatMap_cons, List.flatMap_cons, hp, hps]⟩
  obtain ⟨ps, hps⟩ := hpieces s.toList
  exact ⟨ps, by rw [Quotation.chars, hps, quote, String.toList_ofList]⟩

/-! ## Written values -/

namespace Value

open Spelling

mutual

theorem exists_spelling : ∀ v : Value,
    ∃ s : Spelling, s.chars = v.compact.toList ∧ s.tree.nesting = v.nesting
  | .null => ⟨.null, rfl, rfl⟩
  | .bool true => ⟨.bool true, rfl, rfl⟩
  | .bool false => ⟨.bool false, rfl, rfl⟩
  | .number n => by
      obtain ⟨f, hf⟩ := n.exists_figure_write
      exact ⟨.figure f, hf, rfl⟩
  | .text s => by
      obtain ⟨ps, hps⟩ := exists_quotation s
      exact ⟨.quotation ps, hps, rfl⟩
  | .array [] => ⟨.array [] [], rfl, rfl⟩
  | .array (v :: vs) => by
      obtain ⟨s, hs, hnesting⟩ := exists_spelling v
      obtain ⟨items, hitems, hrest⟩ := exists_items vs
      refine ⟨.array [] (([], s, []) :: items), ?_, ?_⟩
      · simp [chars, compact, Space.chars, hs, hitems]
      · rw [Spelling.tree, itemTrees, Tree.nesting, Tree.nestingItems, hnesting, hrest]
        rfl
  | .object [] => ⟨.object [] [], rfl, rfl⟩
  | .object ((k, v) :: ms) => by
      obtain ⟨ps, hps⟩ := exists_quotation k
      obtain ⟨s, hs, hnesting⟩ := exists_spelling v
      obtain ⟨members, hmembers, hrest⟩ := exists_members ms
      refine ⟨.object [] ((⟨[], ps, []⟩, [], s, []) :: members), ?_, ?_⟩
      · simp [chars, compact, Space.chars, Key.chars, Members.opening, Members.closing, hps, hs,
          hmembers]
      · rw [Spelling.tree, memberTrees, Tree.nesting, Tree.nestingMembers, hnesting, hrest]
        rfl

theorem exists_items : ∀ vs : List Value, ∃ items : List (Space × Spelling × Space),
    itemsChars items = (compactItems vs).toList
      ∧ Tree.nestingItems (itemTrees items) = nestingItems vs
  | [] => ⟨[], rfl, rfl⟩
  | v :: vs => by
      obtain ⟨s, hs, hnesting⟩ := exists_spelling v
      obtain ⟨items, hitems, hrest⟩ := exists_items vs
      refine ⟨([], s, []) :: items, ?_, ?_⟩
      · simp [itemsChars, compactItems, Space.chars, hs, hitems]
      · rw [itemTrees, Tree.nestingItems, hnesting, hrest]
        rfl

theorem exists_members : ∀ ms : List (String × Value),
    ∃ members : List (Key × Space × Spelling × Space),
      membersChars members = (compactMembers ms).toList
        ∧ Tree.nestingMembers (memberTrees members) = nestingMembers ms
  | [] => ⟨[], rfl, rfl⟩
  | (k, v) :: ms => by
      obtain ⟨ps, hps⟩ := exists_quotation k
      obtain ⟨s, hs, hnesting⟩ := exists_spelling v
      obtain ⟨members, hmembers, hrest⟩ := exists_members ms
      refine ⟨(⟨[], ps, []⟩, [], s, []) :: members, ?_, ?_⟩
      · simp [membersChars, compactMembers, Space.chars, Key.chars, hps, hs, hmembers]
      · rw [memberTrees, Tree.nestingMembers, hnesting, hrest]
        rfl

end

/-- Only what nests no deeper than the limit is read of a written value. -/
theorem ofText_compact_ne_ok {v : Value} (h : Tree.nestingLimit < v.nesting) (w : Value) :
    Value.ofText v.compact ≠ .ok w := by
  intro hw
  obtain ⟨s, hs, hnesting⟩ := exists_spelling v
  have hdocument := Document.ofBytes_spelling [] s []
  have hchars : Space.chars [] ++ s.chars ++ Space.chars [] = v.compact.toList := by
    rw [hs]
    simp [Space.chars]
  have hbytes : Text.bytes v.compact = octets v.compact.toList := by
    rw [← String.ofList_toList (s := v.compact), Text.bytes_ofList, String.toList_ofList]
    rfl
  rw [hchars, ← hbytes] at hdocument
  obtain ⟨hread, -⟩ := Document.read_eq_ok_iff.mp hw
  rw [hdocument] at hread
  have hle := Tree.nesting_le_of_value hread
  rw [hnesting] at hle
  exact Nat.not_le_of_lt h hle

end Value

end EventSeal.Json

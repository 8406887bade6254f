import EventSeal.Json.Lexeme
import EventSeal.Json.Printer
import EventSeal.Proofs.Text.Octets

/-!
# Quoted strings read back

Whatever a text holds, its quoted form is scanned as one string lexeme
that denotes the text (`scanPart_quote`). The statement to carry through
the characters is about a string under way: the octets so far are the
payload, no escape and no surrogate is pending. One written character,
escaped or not, puts exactly its own UTF-8 octets on the payload
(`scanPart_escapedChar`), so at the closing quote the payload is the text
(`scanPart_quoted`, for any way of writing the characters).
-/

namespace EventSeal.Json

/-- What stands after the backslash of a short escape. -/
def escapeLetters : List Char :=
  ['"', '\\', 'b', 'f', 'n', 'r', 't']

/-- Such a letter is visible ASCII, and not the `u` of the other escapes. -/
theorem escapeLetter_bounds {l : Char} (h : l ∈ escapeLetters) :
    0x20 ≤ l.toNat ∧ l.toNat < 0x80 ∧ UInt8.ofNat l.toNat ≠ 0x75 := by
  have hall : (escapeLetters.all fun l =>
      decide (0x20 ≤ l.toNat ∧ l.toNat < 0x80 ∧ UInt8.ofNat l.toNat ≠ 0x75)) = true := rfl
  exact of_decide_eq_true (List.all_eq_true.mp hall l h)

/-- How a character is written: as a letter after a backslash, by its
number, or as it is. -/
theorem escapedChar_cases (c : Char) :
    (∃ l ∈ escapeLetters, escapedChar c = ['\\', l]
        ∧ c.toNat < 0x80 ∧ Quote.escaped? (UInt8.ofNat l.toNat) = some (UInt8.ofNat c.toNat))
      ∨ (c.toNat < 0x20 ∧ escapedChar c = ['\\', 'u', '0', '0',
          Text.hexDigit (c.toNat / 16), Text.hexDigit (c.toNat % 16)])
      ∨ (c ≠ '"' ∧ c ≠ '\\' ∧ ¬ c.toNat < 0x20 ∧ escapedChar c = [c]) := by
  by_cases hquote : c = '"'
  · exact Or.inl ⟨'"', by decide, by subst hquote; exact ⟨rfl, by decide, rfl⟩⟩
  by_cases hback : c = '\\'
  · exact Or.inl ⟨'\\', by decide, by subst hback; exact ⟨rfl, by decide, rfl⟩⟩
  by_cases hb : c = '\x08'
  · exact Or.inl ⟨'b', by decide, by subst hb; exact ⟨rfl, by decide, rfl⟩⟩
  by_cases hf : c = '\x0c'
  · exact Or.inl ⟨'f', by decide, by subst hf; exact ⟨rfl, by decide, rfl⟩⟩
  by_cases hn : c = '\n'
  · exact Or.inl ⟨'n', by decide, by subst hn; exact ⟨rfl, by decide, rfl⟩⟩
  by_cases hr : c = '\r'
  · exact Or.inl ⟨'r', by decide, by subst hr; exact ⟨rfl, by decide, rfl⟩⟩
  by_cases ht : c = '\t'
  · exact Or.inl ⟨'t', by decide, by subst ht; exact ⟨rfl, by decide, rfl⟩⟩
  by_cases hctrl : c.toNat < 0x20
  · refine Or.inr (Or.inl ⟨hctrl, ?_⟩)
    simp only [escapedChar, hquote, hback, hb, hf, hn, hr, ht, hctrl, if_true, if_false]
  · refine Or.inr (Or.inr ⟨hquote, hback, hctrl, ?_⟩)
    simp only [escapedChar, hquote, hback, hb, hf, hn, hr, ht, hctrl, if_false]

namespace Quote

/-- A string under way with nothing pending. The payload is given in
writing order. -/
def settled (octets : List UInt8) : Quote :=
  ⟨.plain, octets.reverse, none, false⟩

theorem pushOctet_settled (octets : List UInt8) (b : UInt8) :
    (settled octets).pushOctet b = settled (octets ++ [b]) := by
  simp [settled, pushOctet, settle]

theorem text?_settled (octets : List UInt8) :
    (settled octets).text? = Text.ofBytes? octets := by
  simp [settled, text?, settle]

/-! ## One octet -/

/-- An octet that stands for itself: no quote, no backslash, no control. -/
def isRaw (b : UInt8) : Bool :=
  b != 0x22 && b != 0x5C && 0x20 ≤ b

theorem step_settled_raw {b : UInt8} (h : isRaw b = true) (octets : List UInt8) :
    (settled octets).step b = .more (settled (octets ++ [b])) := by
  simp only [isRaw, Bool.and_eq_true, bne_iff_ne, decide_eq_true_eq] at h
  obtain ⟨⟨hq, hb⟩, hc⟩ := h
  have hc' : ¬ b < 0x20 := UInt8.not_lt.mpr hc
  rw [← pushOctet_settled]
  simp [step, settled, hq, hb, hc']

theorem isRaw_of_mem_utf8EncodeChar {c : Char} (hq : c ≠ '"') (hb : c ≠ '\\')
    (hc : ¬ c.toNat < 0x20) : ∀ b ∈ String.utf8EncodeChar c, isRaw b = true := by
  intro b hmem
  simp only [isRaw, Bool.and_eq_true, bne_iff_ne, decide_eq_true_eq]
  by_cases hascii : c.toNat < 0x80
  · rw [Text.utf8EncodeChar_of_lt hascii, List.mem_singleton] at hmem
    have hn : b.toNat = c.toNat := by
      rw [hmem, UInt8.toNat_ofNat']
      exact Nat.mod_eq_of_lt (by omega)
    refine ⟨⟨fun e => hq ?_, fun e => hb ?_⟩, ?_⟩
    · exact Char.toNat_inj.mp (by rw [← hn, e]; rfl)
    · exact Char.toNat_inj.mp (by rw [← hn, e]; rfl)
    · rw [UInt8.le_iff_toNat_le, hn]
      exact Nat.le_of_not_lt hc
  · have hle := Text.le_of_mem_utf8EncodeChar (Nat.le_of_not_lt hascii) hmem
    rw [UInt8.le_iff_toNat_le] at hle
    have h80 : (0x80 : UInt8).toNat = 0x80 := rfl
    refine ⟨⟨?_, ?_⟩, ?_⟩
    · rintro rfl
      exact absurd hle (by decide)
    · rintro rfl
      exact absurd hle (by decide)
    · rw [UInt8.le_iff_toNat_le]
      exact Nat.le_trans (by decide) hle

/-! ## One code -/

/-- A code that is no surrogate stands for its character. -/
theorem pushCode_settled {n : Nat} (hlead : isLeading n = false) (htrail : isTrailing n = false)
    (octets : List UInt8) :
    (settled octets).pushCode n
      = settled (octets ++ String.utf8EncodeChar (Char.ofNat n)) := by
  simp [pushCode, settled, hlead, htrail, pushChar]

end Quote

namespace Lexeme

open Quote

/-- While a string goes on, nothing is settled. -/
theorem scanPart_more {q q' : Quote} {b : UInt8} (h : q.step b = .more q') (bs : List UInt8) :
    scanPart (.string q) (b :: bs) = scanPart (.string q') bs := by
  simp only [scanPart, State.step, h]
  rfl

theorem scanPart_raw {bs : List UInt8} (h : ∀ b ∈ bs, isRaw b = true) (octets : List UInt8) :
    scanPart (.string (settled octets)) bs = ([], .string (settled (octets ++ bs))) := by
  induction bs generalizing octets with
  | nil => simp [scanPart]
  | cons b bs ih =>
      have hb := step_settled_raw (h b List.mem_cons_self) octets
      have hbs := ih (fun x hx => h x (List.mem_cons_of_mem _ hx)) (octets ++ [b])
      rw [scanPart_more hb, hbs, List.append_assoc, List.singleton_append]

/-! ## One character -/

/-- After a backslash and a letter. -/
theorem scanPart_letter {l e : UInt8} (hu : l ≠ 0x75) (h : escaped? l = some e)
    (octets : List UInt8) :
    scanPart (.string (settled octets)) [0x5C, l]
      = ([], .string (settled (octets ++ [e]))) := by
  have hesc : (settled octets).step 0x5C = .more { settled octets with phase := .escape } := rfl
  have hpush : Quote.step { settled octets with phase := .escape } l
      = .more (settled (octets ++ [e])) := by
    rw [← pushOctet_settled]
    simp [Quote.step, hu, h, settled, pushOctet, settle]
  rw [scanPart_more hesc, scanPart_more hpush, scanPart]

/-- The octet of a hexadecimal digit. -/
def hexOctet (k : Nat) : UInt8 :=
  UInt8.ofNat (Text.hexDigit k).toNat

theorem utf8EncodeChar_hexDigit {k : Nat} (h : k < 16) :
    String.utf8EncodeChar (Text.hexDigit k) = [hexOctet k] := by
  have hlt : ∀ k : Fin 16, (Text.hexDigit k).toNat < 0x80 := by decide
  exact Text.utf8EncodeChar_of_lt (hlt ⟨k, h⟩)

theorem code?_hexOctets {n : Nat} (h : n < 0x20) :
    code? [0x30, 0x30, hexOctet (n / 16), hexOctet (n % 16)] = some n := by
  have hall : ∀ n : Fin 0x20,
      code? [0x30, 0x30, hexOctet (n / 16), hexOctet (n % 16)] = some n.val := by decide
  exact hall ⟨n, h⟩

/-- After an escape by number, whatever is pending. -/
theorem scanPart_unicode {q : Quote} (hq : q.phase = .plain) {a b c d : UInt8} {n : Nat}
    (h : code? [a, b, c, d] = some n) :
    scanPart (.string q) [0x5C, 0x75, a, b, c, d] = ([], .string (q.pushCode n)) := by
  let code (ds : List UInt8) : Quote := { q with phase := .code ds }
  have hesc : q.step 0x5C = .more { q with phase := .escape } := by
    simp [Quote.step, hq]
  have hu : Quote.step { q with phase := .escape } 0x75 = .more (code []) := rfl
  have hdigit : ∀ ds b, ds.length < 3 → (code ds).step b = .more (code (ds ++ [b])) := by
    intro ds b hds
    simp [code, Quote.step, hds]
  have hlast : (code [a, b, c]).step d = .more (q.pushCode n) := by
    have hpush : (code [a, b, c]).pushCode n = q.pushCode n := by
      simp [code, pushCode, pushChar]
    simp only [code, Quote.step] at hpush ⊢
    simp [h, hpush]
  have hthree : ∀ bs, scanPart (.string (code [])) (a :: b :: c :: bs)
      = scanPart (.string (code [a, b, c])) bs := by
    intro bs
    rw [scanPart_more (hdigit [] a (by simp)), List.nil_append,
      scanPart_more (hdigit [a] b (by simp)), scanPart_more (hdigit _ c (by simp))]
    rfl
  rw [scanPart_more hesc, scanPart_more hu, hthree]
  exact (scanPart_more hlast []).trans rfl

/-- However a character is written, what it leaves is its octets. -/
theorem scanPart_escapedChar (c : Char) (octets : List UInt8) :
    scanPart (.string (settled octets)) ((escapedChar c).flatMap String.utf8EncodeChar)
      = ([], .string (settled (octets ++ String.utf8EncodeChar c))) := by
  rcases escapedChar_cases c with ⟨l, hl, heq, hc, hesc⟩ | ⟨hc, heq⟩ | ⟨hq, hb, hc, heq⟩
  · obtain ⟨-, hascii, hletter⟩ := escapeLetter_bounds hl
    have hscan := scanPart_letter hletter hesc octets
    rw [heq, List.flatMap_cons, List.flatMap_singleton, Text.utf8EncodeChar_of_lt hascii,
      Text.utf8EncodeChar_of_lt hc]
    exact hscan
  · have hhi : c.toNat / 16 < 16 := by omega
    have hlo : c.toNat % 16 < 16 := by omega
    have hlead : isLeading c.toNat = false := by simp [isLeading]; omega
    have htrail : isTrailing c.toNat = false := by simp [isTrailing]; omega
    have hcode := scanPart_unicode (q := settled octets) rfl (code?_hexOctets hc)
    rw [pushCode_settled hlead htrail, Char.ofNat_toNat] at hcode
    simp only [heq, List.flatMap_cons, List.flatMap_nil, utf8EncodeChar_hexDigit hhi,
      utf8EncodeChar_hexDigit hlo]
    exact hcode
  · rw [heq, List.flatMap_singleton]
    exact scanPart_raw (isRaw_of_mem_utf8EncodeChar hq hb hc) octets

/-! ## The whole string -/

/-- Quotation marks around parts each of which leaves the octets of its
character. It is one lexeme, complete as soon as it is written. -/
theorem scanPart_quoted {α : Type} {written : α → List Char} {char : α → Char}
    (h : ∀ a octets,
      scanPart (.string (settled octets)) ((written a).flatMap String.utf8EncodeChar)
        = ([], .string (settled (octets ++ String.utf8EncodeChar (char a))))) (as : List α) :
    scanPart .idle (('"' :: as.flatMap written ++ ['"']).flatMap String.utf8EncodeChar)
      = ([.string (some (String.ofList (as.map char)))], .idle) := by
  have hparts : ∀ octets,
      scanPart (.string (settled octets)) ((as.flatMap written).flatMap String.utf8EncodeChar)
        = ([], .string (settled (octets ++ (as.map char).flatMap String.utf8EncodeChar))) := by
    induction as with
    | nil => simp [scanPart]
    | cons a as ih =>
        intro octets
        have has := ih (octets ++ String.utf8EncodeChar (char a))
        rw [List.append_assoc] at has
        rw [List.flatMap_cons, List.flatMap_append, List.map_cons, List.flatMap_cons]
        exact scanPart_trans (h a octets) has
  have hopen : scanPart .idle [0x22] = ([], .string (settled [])) := rfl
  have htext := hparts []
  rw [List.nil_append] at htext
  have hclose : ∀ s, scanPart (.string (settled (Text.bytes s))) [0x22]
      = ([.string (some s)], .idle) := by
    intro s
    have hclosed : (settled (Text.bytes s)).step 0x22 = .closed (some s) := by
      show Next.closed (settled (Text.bytes s)).text? = _
      rw [text?_settled, Text.ofBytes?_bytes]
    simp only [scanPart, State.step, hclosed]
    rfl
  have hend := hclose (String.ofList (as.map char))
  rw [Text.bytes_ofList] at hend
  rw [List.flatMap_append, List.flatMap_cons]
  exact scanPart_trans (scanPart_trans hopen htext) hend

theorem scanPart_quote (s : String) :
    scanPart .idle (Text.bytes (quote s)) = ([.string (some s)], .idle) := by
  have hquoted := scanPart_quoted scanPart_escapedChar s.toList
  rw [List.map_id' s.toList, String.ofList_toList] at hquoted
  rw [quote, Text.bytes_ofList]
  exact hquoted

end Lexeme

end EventSeal.Json

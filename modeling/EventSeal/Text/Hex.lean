/-!
# Lower case hexadecimal

Every octet as two characters, the high half first.
-/

namespace EventSeal.Text

def hexDigit (n : Nat) : Char :=
  if n < 10 then Char.ofNat (48 + n) else Char.ofNat (87 + n)

def hexChars (bs : List UInt8) : List Char :=
  bs.flatMap fun b => [hexDigit (b.toNat / 16), hexDigit (b.toNat % 16)]

def hex (bs : List UInt8) : String :=
  String.ofList (hexChars bs)

def isHexDigit (c : Char) : Bool :=
  ('0' ≤ c && c ≤ '9') || ('a' ≤ c && c ≤ 'f')

@[simp] theorem hexChars_nil : hexChars [] = [] := rfl

theorem hexChars_cons (b : UInt8) (bs : List UInt8) :
    hexChars (b :: bs) = hexDigit (b.toNat / 16) :: hexDigit (b.toNat % 16) :: hexChars bs :=
  rfl

@[simp] theorem length_hexChars (bs : List UInt8) : (hexChars bs).length = 2 * bs.length := by
  induction bs with
  | nil => rfl
  | cons b bs ih => simp [hexChars_cons, ih]; omega

theorem isHexDigit_hexDigit {n : Nat} (h : n < 16) : isHexDigit (hexDigit n) = true := by
  have : ∀ n : Fin 16, isHexDigit (hexDigit n) = true := by decide
  exact this ⟨n, h⟩

theorem all_isHexDigit_hexChars (bs : List UInt8) : (hexChars bs).all isHexDigit = true := by
  induction bs with
  | nil => rfl
  | cons b bs ih =>
    have := b.toNat_lt
    simp [hexChars_cons, ih, isHexDigit_hexDigit (show b.toNat / 16 < 16 by omega),
      isHexDigit_hexDigit (show b.toNat % 16 < 16 by omega)]

theorem hexDigit_injective {m n : Nat} (hm : m < 16) (hn : n < 16)
    (h : hexDigit m = hexDigit n) : m = n := by
  have hall : ∀ m n : Fin 16, hexDigit m = hexDigit n → m.val = n.val := by decide
  exact hall ⟨m, hm⟩ ⟨n, hn⟩ h

theorem hexChars_injective : ∀ {as bs : List UInt8}, hexChars as = hexChars bs → as = bs
  | [], [], _ => rfl
  | [], _ :: _, h => nomatch h
  | _ :: _, [], h => nomatch h
  | a :: as, b :: bs, h => by
      rw [hexChars_cons, hexChars_cons, List.cons.injEq, List.cons.injEq] at h
      obtain ⟨hhi, hlo, hrest⟩ := h
      have ha := a.toNat_lt
      have hb := b.toNat_lt
      have hhi := hexDigit_injective (by omega) (by omega) hhi
      have hlo := hexDigit_injective (by omega) (by omega) hlo
      have hab : a = b := UInt8.toNat_inj.mp (by omega)
      rw [hab, hexChars_injective hrest]

theorem hex_injective {as bs : List UInt8} (h : hex as = hex bs) : as = bs :=
  hexChars_injective (String.ofList_injective h)

end EventSeal.Text

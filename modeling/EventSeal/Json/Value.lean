import EventSeal.Json.Number

/-!
# JSON values

The members of an object are a list sorted by key, every key once. Keys
are compared by code points, which is also the order of their octets in
UTF-8. Entering a member under a key that is there replaces the value, so
of repeated keys the last one counts.
-/

namespace EventSeal.Json

inductive Value
  | null
  | bool (b : Bool)
  | number (n : Number)
  | text (s : String)
  | array (items : List Value)
  | object (members : List (String × Value))

/-- The members of an object. -/
abbrev Members := List (String × Value)

/-! ## Members -/

namespace Members

def get? : Members → String → Option Value
  | [], _ => none
  | (k, v) :: rest, key => if key = k then some v else get? rest key

def put (key : String) (v : Value) : Members → Members
  | [] => [(key, v)]
  | (k, w) :: rest =>
      if key = k then (k, v) :: rest
      else if key < k then (key, v) :: (k, w) :: rest
      else (k, w) :: put key v rest

/-- Enters the members one after the other. -/
def ofList (ms : List (String × Value)) : Members :=
  ms.foldl (fun m p => put p.1 p.2 m) []

@[simp] theorem get?_nil (key : String) : get? [] key = none := rfl

theorem get?_cons (k key : String) (v : Value) (rest : Members) :
    get? ((k, v) :: rest) key = if key = k then some v else get? rest key := rfl

theorem get?_put (m : Members) (key k : String) (v : Value) :
    get? (put key v m) k = if k = key then some v else get? m k := by
  induction m with
  | nil => rw [put, get?_cons]
  | cons p rest ih =>
    obtain ⟨j, w⟩ := p
    rw [put]
    split
    · subst_vars
      simp only [get?_cons]
      split <;> rfl
    · split
      · simp only [get?_cons]
      · simp only [get?_cons, ih]
        split <;> split <;> simp_all

end Members

namespace Value

/-! ## Nesting -/

mutual

/-- How many containers are open at the deepest place. -/
def nesting : Value → Nat
  | .array items => nestingItems items + 1
  | .object members => nestingMembers members + 1
  | .null | .bool _ | .number _ | .text _ => 0

def nestingItems : List Value → Nat
  | [] => 0
  | v :: vs => max v.nesting (nestingItems vs)

def nestingMembers : List (String × Value) → Nat
  | [] => 0
  | (_, v) :: ms => max v.nesting (nestingMembers ms)

end

/-! ## Equality -/

mutual

def decEq : (v w : Value) → Decidable (v = w)
  | .null, .null => isTrue rfl
  | .bool a, .bool b =>
      if h : a = b then isTrue (h ▸ rfl) else isFalse fun e => h (Value.bool.inj e)
  | .number a, .number b =>
      if h : a = b then isTrue (h ▸ rfl) else isFalse fun e => h (Value.number.inj e)
  | .text a, .text b =>
      if h : a = b then isTrue (h ▸ rfl) else isFalse fun e => h (Value.text.inj e)
  | .array a, .array b =>
      match decEqItems a b with
      | isTrue h => isTrue (h ▸ rfl)
      | isFalse h => isFalse fun e => h (Value.array.inj e)
  | .object a, .object b =>
      match decEqMembers a b with
      | isTrue h => isTrue (h ▸ rfl)
      | isFalse h => isFalse fun e => h (Value.object.inj e)
  | .null, .bool _ | .null, .number _ | .null, .text _ | .null, .array _ | .null, .object _
  | .bool _, .null | .bool _, .number _ | .bool _, .text _ | .bool _, .array _
  | .bool _, .object _
  | .number _, .null | .number _, .bool _ | .number _, .text _ | .number _, .array _
  | .number _, .object _
  | .text _, .null | .text _, .bool _ | .text _, .number _ | .text _, .array _
  | .text _, .object _
  | .array _, .null | .array _, .bool _ | .array _, .number _ | .array _, .text _
  | .array _, .object _
  | .object _, .null | .object _, .bool _ | .object _, .number _ | .object _, .text _
  | .object _, .array _ => isFalse Value.noConfusion

def decEqItems : (vs ws : List Value) → Decidable (vs = ws)
  | [], [] => isTrue rfl
  | [], _ :: _ => isFalse nofun
  | _ :: _, [] => isFalse nofun
  | v :: vs, w :: ws =>
      match decEq v w, decEqItems vs ws with
      | isTrue h, isTrue hs => isTrue (h ▸ hs ▸ rfl)
      | isFalse h, _ => isFalse fun e => h (List.cons.inj e).1
      | _, isFalse hs => isFalse fun e => hs (List.cons.inj e).2

def decEqMembers : (ms ns : List (String × Value)) → Decidable (ms = ns)
  | [], [] => isTrue rfl
  | [], _ :: _ => isFalse nofun
  | _ :: _, [] => isFalse nofun
  | (k, v) :: ms, (j, w) :: ns =>
      if hk : k = j then
        match decEq v w, decEqMembers ms ns with
        | isTrue h, isTrue hs => isTrue (hk ▸ h ▸ hs ▸ rfl)
        | isFalse h, _ => isFalse fun e => h (Prod.mk.inj (List.cons.inj e).1).2
        | _, isFalse hs => isFalse fun e => hs (List.cons.inj e).2
      else isFalse fun e => hk (Prod.mk.inj (List.cons.inj e).1).1

end

instance : DecidableEq Value := decEq

end Value

end EventSeal.Json

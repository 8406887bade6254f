import EventSeal.Proofs.Json.Occurrences
import EventSeal.Proofs.Json.Stumps

/-!
# Reading what a cut leaves

A reader that accepts a tree is given a stump of it. It may still accept
it, where all that is left is a scalar, and otherwise stops because the
text ended; only where the text is cut within a numeral may it also find
what is left of that malformed. It never meets a value of the wrong type.

Readers of containers differ in what they do with the parts and in what
they keep of them. They have in common that they go through the parts in
order, each from where the one before it got to, and look at the end last
(`GoesThrough`). Of such a reader it is enough to know what one part does:
the parts before the cut are accepted as before, and the one at the cut is
a stump itself (`GoesThrough.allows_part`).
-/

namespace EventSeal.Json

/-- The faults that a cut can bring up. -/
def Lexeme.Cut.Allows (c : Lexeme.Cut) (f : Fault) : Prop :=
  f = .ended ∨ (c = .inNumber ∧ f = .malformed)

variable {α β γ σ : Type} {c : Lexeme.Cut}

/-! ## Where a reader stops -/

/-- Where a reader stops: at a fault, or at the end of what there is. -/
def stop : Except Fault α → Fault
  | .ok _ => .ended
  | .error f => f

/-- Whether a reader accepts, without what it gives. -/
def outcome : Except Fault α → Except Fault Unit
  | .ok _ => .ok ()
  | .error f => .error f

@[simp] theorem stop_outcome (x : Except Fault α) : stop (outcome x) = stop x := by
  cases x <;> rfl

theorem outcome_bind_pure (x : Except Fault α) (f : α → β) :
    outcome (x >>= fun a => pure (f a)) = outcome x := by
  cases x <;> rfl

theorem bind_of_outcome_eq {x : Except Fault α} {y : Except Fault β} (h : outcome x = outcome y)
    (z : Except Fault σ) : (x >>= fun _ => z) = y >>= fun _ => z := by
  cases x <;> cases y <;> simp_all [outcome]

/-! ## Containers -/

/-- A reader of containers, given their parts and where they break off. It
takes the parts in order with `step`, from `s` on, and then looks at the
end. -/
def GoesThrough (read : List β → Option Gap → Except Fault α) (step : σ → β → Except Fault σ)
    (s : σ) (fault : Gap → Fault) : Prop :=
  ∀ parts cut, outcome (read parts cut) = parts.foldlM step s >>= fun _ => closing fault cut

/-- The usual way: what is made of the parts does not matter. -/
theorem GoesThrough.of_outcome {read : List β → Except Fault α} {step : σ → β → Except Fault σ}
    {s : σ} (h : ∀ parts, outcome (read parts) = outcome (parts.foldlM step s))
    (fault : Gap → Fault) (f : α → γ) :
    GoesThrough (fun parts cut => do let a ← read parts; closing fault cut; return f a)
      step s fault := by
  intro parts cut
  rw [← bind_of_outcome_eq (h parts)]
  dsimp only
  cases read parts <;> cases cut <;> rfl

section

variable {read : List β → Option Gap → Except Fault α} {step : σ → β → Except Fault σ} {s : σ}
  {fault : Gap → Fault} {before after : List β} {x x' : β} {a : α}

theorem GoesThrough.foldlM_of_ok (h : GoesThrough read step s fault) {parts : List β}
    {cut : Option Gap} (hok : read parts cut = .ok a) :
    ∃ r, parts.foldlM step s = .ok r ∧ cut = none := by
  have houtcome := h parts cut
  rw [hok] at houtcome
  obtain ⟨r, hr, hend⟩ := bind_eq_ok_iff.mp houtcome.symm
  cases cut with
  | none => exact ⟨r, hr, rfl⟩
  | some g => nomatch hend

/-- What breaks off is not accepted. -/
theorem GoesThrough.error_of_cut (h : GoesThrough read step s fault) {parts : List β} {g : Gap}
    (hallows : c.Allows (stop (read parts (some g)))) :
    ∃ f, read parts (some g) = .error f ∧ c.Allows f := by
  cases hread : read parts (some g) with
  | ok a =>
      obtain ⟨-, -, hcut⟩ := h.foldlM_of_ok hread
      nomatch hcut
  | error f =>
      rw [hread] at hallows
      exact ⟨f, rfl, hallows⟩

theorem foldlM_of_append {r : σ} (h : (before ++ after).foldlM step s = .ok r) :
    ∃ r', before.foldlM step s = .ok r' ∧ after.foldlM step r' = .ok r := by
  rw [List.foldlM_append] at h
  exact bind_eq_ok_iff.mp h

/-- A part of what was accepted was accepted, wherever the reader was. -/
theorem GoesThrough.exists_step (h : GoesThrough read step s fault)
    (hok : read (before ++ x :: after) none = .ok a) : ∃ r r', step r x = .ok r' := by
  obtain ⟨_, hfold, -⟩ := h.foldlM_of_ok hok
  obtain ⟨r, -, hrest⟩ := foldlM_of_append hfold
  rw [List.foldlM_cons] at hrest
  obtain ⟨r', hx, -⟩ := bind_eq_ok_iff.mp hrest
  exact ⟨r, r', hx⟩

/-- Where the container breaks off between parts. -/
theorem GoesThrough.stop_between (h : GoesThrough read step s fault)
    (hok : read (before ++ after) none = .ok a) (g : Gap) :
    stop (read before (some g)) = fault g := by
  obtain ⟨_, hfold, -⟩ := h.foldlM_of_ok hok
  obtain ⟨r, hbefore, -⟩ := foldlM_of_append hfold
  rw [← stop_outcome, h before (some g), hbefore]
  rfl

/-- Where the last part is a stump. -/
theorem GoesThrough.allows_part (h : GoesThrough read step s fault) (hfault : fault .ended = .ended)
    (hok : read (before ++ x :: after) none = .ok a)
    (hpart : ∀ r r', step r x = .ok r' → c.Allows (stop (step r x'))) :
    c.Allows (stop (read (before ++ [x']) (some .ended))) := by
  obtain ⟨_, hfold, -⟩ := h.foldlM_of_ok hok
  obtain ⟨r, hbefore, hrest⟩ := foldlM_of_append hfold
  rw [List.foldlM_cons] at hrest
  obtain ⟨r', hx, -⟩ := bind_eq_ok_iff.mp hrest
  have hstop : stop (read (before ++ [x']) (some .ended)) = stop (step r x') := by
    rw [← stop_outcome, h, List.foldlM_append, hbefore, ok_bind, List.foldlM_cons]
    cases step r x' with
    | ok r'' => exact hfault
    | error f => rfl
  rw [hstop]
  exact hpart r r' hx

end

/-- What a numeral begins with is within the range that the numeral is in.
It is not minus zero, since no digit follows that. -/
theorem Numeral.Begins.exists_int64? {m n : Numeral} (h : m.Begins n)
    (hpos : n.plain = true → 0 < m.digits) {i : Int64} (hn : n.int64? = some i) :
    ∃ j, m.int64? = some j := by
  obtain ⟨hinteger, hvalue⟩ := int64?_eq_some_iff.mp hn
  have hplain : n.plain = true := ((Bool.and_eq_true _ _).mp hinteger).1
  obtain ⟨hm, hsign, hdigits⟩ := h hplain
  have hmpos := hpos hplain
  have hminteger : m.isInteger = true := by
    rw [isInteger, hm, beq_false_of_ne (Nat.ne_of_gt hmpos)]
    simp
  have hrange : -9223372036854775808 ≤ m.integer ∧ m.integer ≤ 9223372036854775807 := by
    have hlo := i.le_toInt
    have hhi := i.toInt_lt
    rw [← hvalue, integer] at hlo hhi
    rw [integer, hsign]
    split_ifs at hlo hhi ⊢ <;> omega
  refine ⟨Int64.ofInt m.integer, int64?_eq_some_iff.mpr ⟨hminteger, ?_⟩⟩
  exact (Int64.toInt_ofInt_of_le hrange.1 (Int.lt_add_one_of_le hrange.2)).symm

namespace Tree

/-! ## Skipping -/

theorem skipItems_eq_foldlM (ts : List Tree) :
    skipItems ts = ts.foldlM (fun _ t => t.skip) () := by
  induction ts with
  | nil => rfl
  | cons t ts ih =>
      rw [skipItems, ih]
      rfl

theorem skipMembers_eq_foldlM (ms : List (Option String × Tree)) :
    skipMembers ms = ms.foldlM (fun _ p => p.2.skip) () := by
  induction ms with
  | nil => rfl
  | cons p ms ih =>
      rw [skipMembers, ih]
      rfl

theorem goesThrough_skip_array :
    GoesThrough (fun ts cut => skip (.array ts cut)) (fun _ t => t.skip) () Gap.skippedFault := by
  intro ts cut
  show outcome (skipItems ts >>= fun _ => closing Gap.skippedFault cut) = _
  rw [skipItems_eq_foldlM]
  cases ts.foldlM (fun _ t => t.skip) () <;> cases cut <;> rfl

theorem goesThrough_skip_object :
    GoesThrough (fun ms cut => skip (.object ms cut)) (fun _ p => p.2.skip) ()
      Gap.skippedFault := by
  intro ms cut
  show outcome (skipMembers ms >>= fun _ => closing Gap.skippedFault cut) = _
  rw [skipMembers_eq_foldlM]
  cases ms.foldlM (fun _ p => p.2.skip) () <;> cases cut <;> rfl

theorem allows_skip {t t' : Tree} (h : Stump c t t') (hok : t.skip = .ok ()) :
    c.Allows (stop t'.skip) := by
  induction h with
  | absent t => exact Or.inl rfl
  | null => exact Or.inl rfl
  | bool b => exact Or.inl rfl
  | string h => exact Or.inl rfl
  | unfinished hc n => exact Or.inr ⟨hc, rfl⟩
  | number hc h hpos => exact Or.inl rfl
  | array before after => exact Or.inl (goesThrough_skip_array.stop_between hok _)
  | item before after h ih =>
      exact goesThrough_skip_array.allows_part rfl hok fun _ _ ht => ih ht
  | object before after => exact Or.inl (goesThrough_skip_object.stop_between hok _)
  | key before after h t => exact Or.inl (goesThrough_skip_object.stop_between hok _)
  | member before after k h ih =>
      exact goesThrough_skip_object.allows_part rfl hok fun _ _ ht => ih ht

/-! ## Values -/

theorem outcome_valueItems (room : Nat) (ts : List Tree) :
    outcome (valueItems room ts)
      = outcome (ts.foldlM (fun _ t => outcome (t.value room)) ()) := by
  induction ts with
  | nil => rfl
  | cons t ts ih =>
      rw [valueItems, List.foldlM_cons]
      cases t.value room with
      | ok v =>
          rw [ok_bind, outcome_bind_pure]
          exact ih
      | error f => rfl

theorem goesThrough_value_array (room : Nat) :
    GoesThrough (fun ts cut => value (room + 1) (.array ts cut))
      (fun _ t => outcome (t.value room)) () Gap.fault :=
  .of_outcome (outcome_valueItems room) Gap.fault Value.array

/-- A member of a value: a key that is looked at, and any value. -/
def valueMember (room : Nat) (p : Option String × Tree) : Except Fault Value := do
  let _ ← keyText p.1
  p.2.value room

theorem outcome_valueMembers (room : Nat) (m : Members) (ms : List (Option String × Tree)) :
    outcome (valueMembers room m ms)
      = outcome (ms.foldlM (fun _ p => outcome (valueMember room p)) ()) := by
  induction ms generalizing m with
  | nil => rfl
  | cons p ms ih =>
      obtain ⟨key, t⟩ := p
      rw [valueMembers, List.foldlM_cons, valueMember]
      cases keyText key with
      | ok k =>
          rw [ok_bind, ok_bind]
          cases t.value room with
          | ok v => exact ih _
          | error f => rfl
      | error f => rfl

theorem goesThrough_value_object (room : Nat) :
    GoesThrough (fun ms cut => value (room + 1) (.object ms cut))
      (fun _ p => outcome (valueMember room p)) () Gap.fault :=
  .of_outcome (outcome_valueMembers room []) Gap.fault Value.object

theorem ok_of_outcome {x : Except Fault α} {u : Unit} (h : outcome x = .ok u) :
    ∃ a, x = .ok a := by
  cases x with
  | ok a => exact ⟨a, rfl⟩
  | error f => nomatch h

/-- A key in which the text is cut was no fault before. -/
theorem fault_inString {k : Option String} {key : String} {unpaired : Bool}
    (h : unpaired = true → k = none) (hk : keyText k = .ok key) :
    (Gap.inString unpaired).fault = .ended := by
  cases unpaired with
  | false => rfl
  | true =>
      rw [h rfl] at hk
      nomatch hk

theorem allows_value {t t' : Tree} (h : Stump c t t') :
    ∀ {room : Nat} {v : Value}, t.value room = .ok v → c.Allows (stop (t'.value room)) := by
  induction h with
  | absent t => exact fun _ => Or.inl rfl
  | null => exact fun _ => Or.inl rfl
  | bool b => exact fun _ => Or.inl rfl
  | @string text unpaired h =>
      intro room v hok
      cases text with
      | none => cases hok
      | some s => exact Or.inl (fault_inString h (show keyText (some s) = .ok s from rfl))
  | unfinished hc n => exact fun _ => Or.inl rfl
  | @number hc m n h hpos =>
      intro room v hok
      rw [value]
      cases m.number? with
      | some x => exact Or.inl rfl
      | none => exact Or.inr ⟨hc, rfl⟩
  | array before after =>
      intro room v hok
      cases room with
      | zero => cases hok
      | succ room => exact Or.inl ((goesThrough_value_array room).stop_between hok _)
  | item before after h ih =>
      intro room v hok
      cases room with
      | zero => cases hok
      | succ room =>
          refine (goesThrough_value_array room).allows_part rfl hok fun _ _ ht => ?_
          obtain ⟨w, hw⟩ := ok_of_outcome ht
          rw [stop_outcome]
          exact ih hw
  | object before after =>
      intro room v hok
      cases room with
      | zero => cases hok
      | succ room => exact Or.inl ((goesThrough_value_object room).stop_between hok _)
  | key before after h t =>
      intro room v hok
      cases room with
      | zero => cases hok
      | succ room =>
          obtain ⟨_, _, hmember⟩ := (goesThrough_value_object room).exists_step hok
          obtain ⟨w, hw⟩ := ok_of_outcome hmember
          obtain ⟨key, hkey, -⟩ := bind_eq_ok_iff.mp hw
          rw [(goesThrough_value_object room).stop_between hok]
          exact Or.inl (fault_inString h hkey)
  | member before after k h ih =>
      intro room v hok
      cases room with
      | zero => cases hok
      | succ room =>
          refine (goesThrough_value_object room).allows_part rfl hok fun _ _ ht => ?_
          obtain ⟨w, hw⟩ := ok_of_outcome ht
          obtain ⟨key, hkey, hw⟩ := bind_eq_ok_iff.mp hw
          rw [stop_outcome, valueMember, hkey]
          exact ih hw

/-! ## Scalars -/

theorem allows_text {t t' : Tree} (h : Stump c t t') {s : String} (hok : t.text = .ok s) :
    c.Allows (stop t'.text) := by
  obtain rfl := text_eq_ok_iff.mp hok
  cases h with
  | absent => exact Or.inl rfl
  | string h => exact Or.inl (fault_inString h (show keyText (some s) = .ok s from rfl))

theorem allows_flag {t t' : Tree} (h : Stump c t t') {b : Bool} (hok : t.flag = .ok b) :
    c.Allows (stop t'.flag) := by
  obtain rfl := flag_eq_ok_iff.mp hok
  cases h with
  | absent => exact Or.inl rfl
  | bool => exact Or.inl rfl

theorem allows_int64 {t t' : Tree} (h : Stump c t t') {i : Int64} (hok : t.int64 = .ok i) :
    c.Allows (stop t'.int64) := by
  obtain ⟨n, rfl, hn⟩ := int64_eq_ok_iff.mp hok
  cases h with
  | absent => exact Or.inl rfl
  | unfinished => exact Or.inl rfl
  | number hc h hpos =>
      obtain ⟨j, hj⟩ := h.exists_int64? hpos hn
      rw [int64, hj]
      exact Or.inl rfl

end Tree

end EventSeal.Json

import Scriptlet.Proofs.Number.Order
import Scriptlet.Proofs.Value.Effects
import Scriptlet.Value.Operator

/-!
# Which operands an operator takes

An operator takes its operands by their kinds, whatever values they are, but
for one thing: no comparison takes two numbers that are in no order. In all
other cases the operators for equality tell whether two values are equal.
-/

set_option autoImplicit false

namespace Scriptlet

def ValueKind.isNumber : ValueKind → Bool
  | .int | .float => true
  | _ => false

/-- Whether an operator is there for operands of two kinds. -/
def BinaryOp.accepts (op : BinaryOp) (k l : ValueKind) : Bool :=
  match op with
  | .and | .or | .eq | .ne => true
  | .lt | .gt | .le | .ge => (k.isNumber && l.isNumber) || (k = .text && l = .text)
  | .add => (k.isNumber && l.isNumber) || (k = .text && l = .text) || k = .list
  | .mul =>
    (k.isNumber && l.isNumber) || (k = .text && l = .int) || (k = .list && l = .list)
  | .sub | .div => (k.isNumber && l.isNumber) || (k = .list && l = .int)
  | .intDiv | .mod | .pow => k.isNumber && l.isNumber

namespace Value

def isNaN : Value → Bool
  | number n => n.isNaN
  | _ => false

/-- Two numbers that are in no order. -/
def Unordered (v w : Value) : Prop := v.isNumber ∧ w.isNumber ∧ (v.isNaN ∨ w.isNaN)

end Value

namespace Operator

/-- A result tells that the kinds of the operands are wrong if the operator does not accept them,
and not otherwise. -/
structure Decides (op : BinaryOp) (v w : Value) (r : Except Fault Computed) : Prop where
  refused : op.accepts v.kind w.kind = false → r = .error (mismatch op v w)
  accepted : op.accepts v.kind w.kind = true →
    ∀ operation k l, r ≠ .error (.operandTypes operation k l)

variable {op : BinaryOp} {m n : Number} {s t : String} {h : Heap} {v w : Value} {c : Computed}
  {fault : Fault}

theorem Decides.ok (ha : op.accepts v.kind w.kind = true) : Decides op v w (.ok c) :=
  ⟨fun hr => Bool.noConfusion (ha.symm.trans hr), fun _ _ _ _ h => by cases h⟩

theorem Decides.mismatch (ha : op.accepts v.kind w.kind = false) :
    Decides op v w (.error (mismatch op v w)) :=
  ⟨fun _ => rfl, fun hr => Bool.noConfusion (ha.symm.trans hr)⟩

theorem Decides.error (ha : op.accepts v.kind w.kind = true)
    (hf : ∀ operation k l, fault ≠ .operandTypes operation k l) :
    Decides op v w (.error fault) :=
  ⟨fun hr => Bool.noConfusion (ha.symm.trans hr), fun _ operation k l h =>
    hf operation k l (Except.error.inj h)⟩

theorem compareTexts_eq (s t : String) : (compareTexts s t == .eq) = decide (s = t) := by
  rw [Bool.eq_iff_iff, compareTexts]
  split
  · next h => simp [ne_of_lt h]
  · split <;> simp_all

/-! ## The kinds of the operands -/

theorem holds?_some (h : op.compares = true) (o : Ordering) : ∃ b, op.holds? o = some b := by
  cases op with
  | eq | ne | lt | gt | le | ge => exact ⟨_, rfl⟩
  | _ => cases h

theorem numbers_ordered (h : op.compares = true) {o : Ordering} (ho : m.order? n = some o)
    {b : Bool} (hb : op.holds? o = some b) : numbers op m n = .ok (.value (.truth b)) := by
  simp [numbers, Number.compute?_compares h, ho, hb, Outcome.value]

theorem numbers_unordered (h : op.compares = true) (ho : m.order? n = none) :
    numbers op m n = .error (mismatch op (.number m) (.number n)) := by
  simp [numbers, Number.compute?_compares h, ho]

theorem accepts_numbers (op : BinaryOp) (m n : Number) :
    op.accepts (Value.number m).kind (Value.number n).kind = true := by
  cases m <;> cases n <;> cases op <;> rfl

theorem numbers_decides (hand : op ≠ .and) (hor : op ≠ .or)
    (hordered : op.compares = true → m.order? n ≠ none) :
    Decides op (.number m) (.number n) (numbers op m n) := by
  have ha := accepts_numbers op m n
  cases hop : op.compares with
  | false =>
    obtain ⟨o, ho⟩ := Number.compute?_some hop hand hor m n
    simp only [numbers, ho]
    exact .ok ha
  | true =>
    obtain ⟨o, ho⟩ := Option.ne_none_iff_exists'.mp (hordered hop)
    obtain ⟨b, hb⟩ := holds?_some hop o
    rw [numbers_ordered hop ho hb]
    exact .ok ha

theorem texts_decides (hand : op ≠ .and) (hor : op ≠ .or) :
    Decides op (.text s) (.text t) (texts op s t) := by
  cases op with
  | and => exact absurd rfl hand
  | or => exact absurd rfl hor
  | add | eq | ne | lt | gt | le | ge => exact .ok rfl
  | sub | mul | div | intDiv | mod | pow => exact .mismatch rfl

theorem lists_decides {id : ListId} (hand : op ≠ .and) (hor : op ≠ .or) :
    Decides op (.list id) w (lists h op id w) := by
  cases op with
  | and => exact absurd rfl hand
  | or => exact absurd rfl hor
  | add | eq | ne => exact .ok rfl
  | lt | gt | le | ge | intDiv | mod | pow => exact .mismatch rfl
  | mul =>
    cases w with
    | list other => exact .ok rfl
    | number n => cases n <;> exact .mismatch rfl
    | _ => exact .mismatch rfl
  | sub | div =>
    cases w with
    | number n =>
      cases n with
      | int i =>
        simp only [lists]
        split
        · exact .ok rfl
        · exact .error rfl (by simp [resolveIndex_error ‹_›])
      | float x => exact .mismatch rfl
    | _ => exact .mismatch rfl

theorem not_unordered_numbers (ho : ¬ (Value.number m).Unordered (.number n)) :
    m.order? n ≠ none := by
  intro h
  exact ho ⟨rfl, rfl, Number.order?_eq_none.mp h⟩

/-- An operator takes all operands of the kinds that it accepts, and no others. -/
theorem binary_decides (hand : op ≠ .and) (hor : op ≠ .or)
    (hordered : op.compares = true → ¬ v.Unordered w) :
    Decides op v w (binary h op v w) := by
  cases v with
  | list id => exact lists_decides hand hor
  | number m =>
    cases w with
    | number n => exact numbers_decides hand hor fun hop => not_unordered_numbers (hordered hop)
    | _ =>
      cases op with
      | and => exact absurd rfl hand
      | or => exact absurd rfl hor
      | eq | ne => exact .ok (by cases m <;> rfl)
      | _ => exact .mismatch (by cases m <;> rfl)
  | text s =>
    cases w with
    | text t => exact texts_decides hand hor
    | number n =>
      cases op with
      | and => exact absurd rfl hand
      | or => exact absurd rfl hor
      | eq | ne => exact .ok rfl
      | mul =>
        cases n with
        | int k =>
          simp only [binary, repeatText]
          split
          · exact .ok rfl
          · exact .error rfl (by simp)
        | float x => exact .mismatch rfl
      | _ => exact .mismatch (by cases n <;> rfl)
    | _ =>
      cases op with
      | and => exact absurd rfl hand
      | or => exact absurd rfl hor
      | eq | ne => exact .ok rfl
      | _ => exact .mismatch rfl
  | _ =>
    cases op with
    | and => exact absurd rfl hand
    | or => exact absurd rfl hor
    | eq | ne => exact .ok rfl
    | _ => exact .mismatch rfl

/-- Only operands that the operator accepts are looked at for a zero. -/
theorem divisorFault?_none (ha : op.accepts v.kind w.kind = false) : divisorFault? op v w = none := by
  refine if_neg fun hzero => ?_
  cases v with
  | number m =>
    cases w with
    | number n => exact Bool.noConfusion ((accepts_numbers op m n).symm.trans ha)
    | _ => simp [Value.isZero] at hzero
  | _ => simp [Value.isNumber] at hzero

/-! ## Comparisons -/

theorem equal_numbers (h : Heap) (m n : Number) :
    (Value.number m).equal h (.number n) = m.equal n := by
  simp [Value.equal, Value.equalFor]

theorem equal_texts (h : Heap) (s t : String) :
    (Value.text s).equal h (.text t) = decide (s = t) := by
  simp [Value.equal, Value.equalFor]

theorem binary_unordered (hop : op.compares = true) (ho : v.Unordered w) :
    binary h op v w = .error (mismatch op v w) := by
  obtain ⟨hv, hw, hnan⟩ := ho
  cases v with
  | number m =>
    cases w with
    | number n => exact numbers_unordered hop (Number.order?_eq_none.mpr hnan)
    | _ => cases hw
  | _ => cases hv

/-- Two values that are not in no order are equal or not, and the operators tell which. -/
theorem binary_equality (hordered : ¬ v.Unordered w) :
    binary h .eq v w = .ok (.value (.truth (v.equal h w))) ∧
      binary h .ne v w = .ok (.value (.truth !(v.equal h w))) := by
  cases v with
  | list id => exact ⟨rfl, rfl⟩
  | number m =>
    cases w with
    | number n =>
      obtain ⟨o, ho⟩ := Option.ne_none_iff_exists'.mp (not_unordered_numbers hordered)
      have hequal : (Value.number m).equal h (.number n) = (o == .eq) := by
        rw [equal_numbers, Number.equal_eq_order?, ho]
        rfl
      rw [hequal]
      exact ⟨numbers_ordered rfl ho rfl, numbers_ordered rfl ho rfl⟩
    | _ => exact ⟨rfl, rfl⟩
  | text s =>
    cases w with
    | text t =>
      have hequal : (Value.text s).equal h (.text t) = (compareTexts s t == .eq) := by
        rw [equal_texts, compareTexts_eq]
      rw [hequal]
      exact ⟨rfl, rfl⟩
    | _ => exact ⟨rfl, rfl⟩
  | _ => exact ⟨rfl, rfl⟩

end Operator

end Scriptlet

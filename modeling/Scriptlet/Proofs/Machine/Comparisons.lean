import Scriptlet.Proofs.Machine.Evaluation
import Scriptlet.Proofs.Machine.Origins
import Scriptlet.Proofs.Value.Operands

/-!
# Comparing values in a program

What becomes of an operator whose operands have given their values. Equality
is told for all values but two numbers that are in no order, and those are in
the way of every comparison. Otherwise the kinds of the operands alone tell
whether the operator is there for them. The two operators that may leave their
right operand alone are there for all values.
-/

set_option autoImplicit false

namespace Scriptlet

namespace Machine

variable {settings : Settings} {m e e' : Machine} {left right node : Node} {scope : ScopeId}
  {span place : Span} {v a b : Value} {op : BinaryOp}

/-- Whether `AND` and `OR` leave their right operand alone. -/
def leavesRight (op : BinaryOp) (truthy : Bool) : Bool := if op = .and then !truthy else truthy

/-- The operands of `AND` and `OR`, of which the second may be left alone, give the value of one of
them. -/
inductive Alternatives (settings : Settings) (op : BinaryOp) (left right : Node) (span : Span)
    (scope : ScopeId) (m : Machine) : Value → Prop where
  | left {a : Value} {e : Machine}
      (hleft : Gives settings left scope
        { m with stack := .leftOperand op right scope span :: m.stack } a e)
      (hleaves : leavesRight op (a.isTruthy e.store.heap) = true) :
      Alternatives settings op left right span scope m a
  | right {a b : Value} {e e' : Machine}
      (hleft : Gives settings left scope
        { m with stack := .leftOperand op right scope span :: m.stack } a e)
      (hleaves : leavesRight op (a.isTruthy e.store.heap) = false)
      (hright : Gives settings right scope { e with stack := .holding a :: m.stack } b e') :
      Alternatives settings op left right span scope m b

/-! ## Failing -/

theorem applyBinary_operandTypes {rightSpan : Span} {d : Diagnostic} {operation : Operation}
    {k : ValueKind} {l : Option ValueKind}
    (h : Operator.Decides op a b (Operator.binary m.store.heap op a b))
    (hm : (m.applyBinary op a b rightSpan span).control = .failed d)
    (hd : d.cause = .runtime (.operandTypes operation k l)) : op.accepts a.kind b.kind = false := by
  by_contra haccepts
  have haccepts := Bool.eq_true_of_not_eq_false haccepts
  unfold applyBinary at hm
  split at hm
  · next hfault =>
    obtain rfl := Control.failed.inj hm
    obtain rfl := Cause.runtime.inj hd
    rcases (Operator.divisorFault?_eq hfault).2 with h | h <;> cases h
  · split at hm
    · next herror =>
      obtain rfl := Control.failed.inj hm
      obtain rfl := Cause.runtime.inj hd
      exact h.accepted haccepts _ _ _ herror
    · cases hm

/-! ## Giving one of two values -/

theorem Alternatives.gives (hop : op = .and ∨ op = .or)
    (h : Alternatives settings op left right span scope m v) :
    ∃ e, Gives settings (.mk (.binary op left right) span) scope m v e := by
  have hresume (m : Machine) (a : Value) :
      resume settings m (.leftOperand op right scope span) (.value a) =
        if leavesRight op (a.isTruthy m.store.heap) then m.give a
        else m.enter (.holding a) right scope := by
    rcases hop with rfl | rfl
    · simp only [resume, resumeValue, leavesRight]
      cases a.isTruthy m.store.heap <;> rfl
    · simp only [resume, resumeValue, leavesRight]
      cases a.isTruthy m.store.heap <;> rfl
  cases h with
  | @left _ e hleft hleaves =>
    refine ⟨give { e with control := .flow .continue, stack := m.stack } v,
      .within rfl hleft ?_, rfl⟩
    rw [step_value hleft.value hleft.finished, hresume, if_pos hleaves]
    exact .here (.of_flow rfl rfl)
  | @right a _ e e' hleft hleaves hright =>
    refine ⟨give (dropAll { e' with control := .flow .continue, stack := m.stack } [a]) v,
      .within rfl hleft ?_, rfl⟩
    rw [step_value hleft.value hleft.finished, hresume, if_neg (by simp [hleaves])]
    refine hright.reaches.andThen rfl ?_
    rw [step_value hright.value hright.finished]
    exact .here (.of_flow rfl rfl)

/-! ## A double that is not a number -/

/-- The difference of two numbers that are both too large. -/
def largeLessLarge : Node :=
  let large : Node := .mk (.binary .mul (.mk (.float 1e308) default) (.mk (.float 10.0) default))
    default
  .mk (.binary .sub large large) default

theorem gives_float (x : Float) :
    Gives settings (.mk (.float x) span) scope m (.float x)
      { m with control := .flow (.value (.float x)) } :=
  gives_at_once rfl

theorem largeLessLarge_gives (settings : Settings) (scope : ScopeId) (m : Machine) :
    ∃ e, Gives settings largeLessLarge scope m (.float (1e308 * 10.0 - 1e308 * 10.0)) e := by
  have hlarge (m : Machine) : ∃ e, Gives settings (.mk (.binary .mul (.mk (.float 1e308) default)
      (.mk (.float 10.0) default)) default) scope m (.float (1e308 * 10.0)) e :=
    Operands.gives_computed ⟨_, gives_float _, gives_float _⟩ (by decide) (by decide) rfl
      (c := .value (.float (1e308 * 10.0))) rfl
  obtain ⟨e, hleft⟩ := hlarge _
  obtain ⟨e', hright⟩ := hlarge _
  exact Operands.gives_computed ⟨_, hleft, hright⟩ (by decide) (by decide) rfl
    (c := .value (.float (1e308 * 10.0 - 1e308 * 10.0))) rfl

theorem large_unordered :
    (Value.float (1e308 * 10.0 - 1e308 * 10.0)).Unordered
      (.float (1e308 * 10.0 - 1e308 * 10.0)) := by
  have hnan : (1e308 * 10.0 - 1e308 * 10.0 : Float).isNaN = true := by decide +kernel
  exact ⟨rfl, rfl, .inl hnan⟩

/-! ## Equality and kinds -/

/-- For all values but two numbers that are in no order, the operators for equality give whether
the values are equal. Of such two numbers every comparison fails. Otherwise an operator fails for
the kinds of its operands if it does not accept them, and only then; and the operators that may
leave their right operand alone never fail themselves. -/
theorem equality_agrees (settings : Settings) :
    (∀ a b, ¬ a.Unordered b → ∀ left right span scope m e,
      (Operands settings .eq left right span scope m a b e →
        ∃ e', Gives settings (.mk (.binary .eq left right) span) scope m
          (.truth (a.equal e.store.heap b)) e') ∧
      (Operands settings .ne left right span scope m a b e →
        ∃ e', Gives settings (.mk (.binary .ne left right) span) scope m
          (.truth !(a.equal e.store.heap b)) e')) ∧
    (∀ op a b, op ≠ .and → op ≠ .or → (op.compares = true → ¬ a.Unordered b) →
      ∀ left right span scope m e, Operands settings op left right span scope m a b e →
        (op.accepts a.kind b.kind = false →
          ∃ e', Fails settings (.mk (.binary op left right) span) scope m
            (Operator.mismatch op a b) span e') ∧
        ∀ operation k l place e', Fails settings (.mk (.binary op left right) span) scope m
          (.operandTypes operation k l) place e' → op.accepts a.kind b.kind = false) ∧
    (∀ op, op = .and ∨ op = .or → ∀ left right span scope m v,
      Alternatives settings op left right span scope m v →
        ∃ e, Gives settings (.mk (.binary op left right) span) scope m v e) ∧
    ∀ op a b, op.compares = true → a.Unordered b → ∀ left right span scope m e,
      Operands settings op left right span scope m a b e →
        ∃ e', Fails settings (.mk (.binary op left right) span) scope m
          (Operator.mismatch op a b) span e' := by
  refine ⟨fun a b hordered left right span scope m e => ⟨fun ho => ?_, fun ho => ?_⟩,
    fun op a b hand hor hordered left right span scope m e ho => ?_,
    fun op hop left right span scope m v h => h.gives hop,
    fun op a b hop hunordered left right span scope m e ho => ?_⟩
  · exact ho.gives_computed (by decide) (by decide) rfl (Operator.binary_equality hordered).1
  · exact ho.gives_computed (by decide) (by decide) rfl (Operator.binary_equality hordered).2
  · have hdecides := Operator.binary_decides (h := e.store.heap) hand hor hordered
    refine ⟨fun haccepts => ?_, fun operation k l place e' hfails => ?_⟩
    · exact ho.fails_operator hand hor (Operator.divisorFault?_none haccepts) (hdecides.refused haccepts)
    · obtain rfl := hfails.reaches.unique (ho.reaches hand hor)
      exact applyBinary_operandTypes
        (m := { e with control := .flow .continue, stack := m.stack }) hdecides hfails.failed rfl
  · have hand : op ≠ .and := by rintro rfl; cases hop
    have hor : op ≠ .or := by rintro rfl; cases hop
    have hdivisor : Operator.divisorFault? op a b = none := by
      cases op with
      | eq | ne | lt | gt | le | ge => rfl
      | _ => cases hop
    exact ho.fails_operator hand hor hdivisor (Operator.binary_unordered hop hunordered)

/-- A whole number and a double that are equal, a whole number and a text that have no order, an
`AND` that leaves its right operand alone, and a double that is not a number. -/
theorem equality_agrees_mixed :
    let m : Machine := ⟨.flow .continue, [], Store.seeded, [], 0, ""⟩
    let node (op : BinaryOp) (left right : Node) : Node := .mk (.binary op left right) default
    let int (n : Int64) : Node := .mk (.int n) default
    (∃ e, Gives .standard (node .eq (int 1) (.mk (.float 1.0) default)) Store.global m
        (.truth true) e) ∧
      (∃ e, Gives .standard (node .ne (int 1) (.mk (.float 1.0) default)) Store.global m
        (.truth false) e) ∧
      (∃ e, Fails .standard (node .lt (int 1) (.mk (.text "1") default)) Store.global m
        (.operandTypes (.binary .lt) .int (some .text)) default e) ∧
      (∀ operation k l place e, ¬ Fails .standard (node .lt (int 1) (int 2)) Store.global m
        (.operandTypes operation k l) place e) ∧
      (∃ e, Gives .standard (node .and (int 0) (int 2)) Store.global m (.int 0) e) ∧
      ∃ e, Fails .standard (node .lt largeLessLarge largeLessLarge) Store.global m
        (.operandTypes (.binary .lt) .float (some .float)) default e := by
  intro m node int
  obtain ⟨hequal, hkinds, halternatives, hunordered⟩ := equality_agrees .standard
  have hordered : ¬ (Value.int 1).Unordered (.float 1.0) := by
    rintro ⟨-, -, h | h⟩
    · cases h
    · exact absurd h (by decide)
  have htexts : ¬ (Value.int 1).Unordered (.text "1") := fun h => by cases h.2.1
  have hints : ¬ (Value.int 1).Unordered (.int 2) := by
    rintro ⟨-, -, h | h⟩ <;> cases h
  have htruth (h : Heap) : (Value.int 1).equal h (.float 1.0) = true :=
    (Operator.equal_numbers ..).trans (by decide)
  refine ⟨?_, ?_, ?_, ?_, ?_, ?_⟩
  · obtain ⟨e, he⟩ := (hequal _ _ hordered _ _ default Store.global m _).1
      ⟨_, gives_int 1, gives_float 1.0⟩
    exact ⟨e, htruth _ ▸ he⟩
  · obtain ⟨e, he⟩ := (hequal _ _ hordered _ _ default Store.global m _).2
      ⟨_, gives_int 1, gives_float 1.0⟩
    rw [htruth] at he
    exact ⟨e, he⟩
  · exact (hkinds .lt _ _ (by decide) (by decide) (fun _ => htexts) _ _ default Store.global m _
      ⟨_, gives_int 1, gives_at_once (v := .text "1") rfl⟩).1 rfl
  · intro operation k l place e h
    exact Bool.noConfusion ((hkinds .lt _ _ (by decide) (by decide) (fun _ => hints) _ _ default
      Store.global m _ ⟨_, gives_int 1, gives_int 2⟩).2 operation k l place e h)
  · exact halternatives .and (.inl rfl) _ _ _ _ _ _ (.left (gives_int 0) rfl)
  · obtain ⟨e, hleft⟩ := largeLessLarge_gives .standard Store.global _
    obtain ⟨e', hright⟩ := largeLessLarge_gives .standard Store.global _
    exact hunordered .lt _ _ rfl large_unordered _ _ default Store.global m e'
      ⟨e, hleft, hright⟩

/-- A number that is none cannot be compared to itself, though two doubles can be compared. -/
theorem not_a_number_fails :
    let m : Machine := ⟨.flow .continue, [], Store.seeded, [], 0, ""⟩
    let same (node : Node) : Node := .mk (.binary .eq node node) default
    (∃ e, Fails .standard (same largeLessLarge) Store.global m
        (.operandTypes (.binary .eq) .float (some .float)) default e) ∧
      (¬ ∃ v e, Gives .standard (same largeLessLarge) Store.global m v e) ∧
      ∃ e, Gives .standard (same (.mk (.float 1.0) default)) Store.global m (.truth true) e := by
  intro m same
  obtain ⟨e, hleft⟩ := largeLessLarge_gives .standard Store.global
    { m with stack := [.leftOperand .eq largeLessLarge Store.global default] }
  obtain ⟨e', hright⟩ := largeLessLarge_gives .standard Store.global
    { e with stack := [.rightOperand .eq (.float (1e308 * 10.0 - 1e308 * 10.0))
      largeLessLarge.span default] }
  have hfails : ∃ e, Fails .standard (same largeLessLarge) Store.global m
      (.operandTypes (.binary .eq) .float (some .float)) default e :=
    Operands.fails_operator ⟨e, hleft, hright⟩ (by decide) (by decide) rfl
      (Operator.binary_unordered rfl large_unordered)
  refine ⟨hfails, ?_, ?_⟩
  · rintro ⟨v, e₁, hgives⟩
    obtain ⟨e₂, hfails⟩ := hfails
    obtain rfl := hgives.reaches.unique hfails.reaches
    cases hgives.value.symm.trans hfails.failed
  · exact Operands.gives_computed ⟨_, gives_float 1.0, gives_float 1.0⟩ (by decide) (by decide) rfl
      (c := .value (.truth true)) rfl

end Machine

end Scriptlet

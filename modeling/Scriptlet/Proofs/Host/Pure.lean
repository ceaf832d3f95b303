import Scriptlet.Proofs.Host.Reached
import Scriptlet.Proofs.Machine.Pure

/-!
# Expressions without calls change nothing

In whatever state of whatever run, and in whatever scope, the evaluation of an
expression without calls comes to an end and leaves all as it was. So it comes
to the same end again, as long as nothing else has changed anything either.
-/

set_option autoImplicit false

namespace Scriptlet.Host

variable {settings : Settings} {h : Host} {m : Machine} {node : Node}

/-- An expression without calls gives a value or fails. Either way no binding, no scope and no list
that was there has changed, nothing is printed, and the calls and the stack are as they were;
letting go of the value does not change that. Wherever nothing has changed since, it gives a value
that is displayed by the same text, or fails with the same error. No operator changes a list, and
the lists that come of `+`, `*` and `-` are new. -/
theorem pure_repeats (hm : Passes settings h m) (hn : node.Pure) (scope : ScopeId) :
    (∃ c s, m.EvaluatesTo settings node scope c s ∧
      ((∃ v, c = .flow (.value v)) ∨ ∃ d, c = .failed d) ∧
      m.Unchanged (m.now c m.stack s) ∧
      (∀ v, c = .flow (.value v) → m.Unchanged (m.now c m.stack (s.drop v))) ∧
      ∀ m', m.Unchanged m' → ∃ c' s', m'.EvaluatesTo settings node scope c' s' ∧
        m'.Unchanged (m'.now c' m'.stack s') ∧ c.Alike s.heap s'.heap c') ∧
    ∀ (k : Machine) (a b : Value) (rightSpan span : Span),
      (∀ op, k.store.heap.SparesItems (k.applyBinary op a b rightSpan span).store.heap) ∧
      (∀ op, k.store.heap.SparesItems (k.applyUnary op a span).store.heap) ∧
      k.store.heap.SparesItems (k.applyIndex a b span).store.heap ∧
      ∀ op id, op = .add ∨ op = .mul ∨ op = .sub →
        (k.applyBinary op a b rightSpan span).control = .flow (.value (.list id)) →
        id = k.store.heap.lists.size := by
  have hs := hm.sound.ready.sound
  refine ⟨?_, fun k a b rightSpan span => ⟨fun op => k.applyBinary_spares op a b rightSpan span,
    fun op => k.applyUnary_spares op a span, k.applyIndex_spares a b span,
    fun op id => Machine.applyBinary_fresh⟩⟩
  obtain ⟨c, s, _, _, hfirst, hunchanged, hdropped, -, -, halike⟩ :=
    Machine.Unchanged.evaluates ⟨.refl _, rfl, _, hs⟩ settings hs hn scope
  refine ⟨c, s, hfirst, ?_, hunchanged, hdropped, fun m' hm' => ?_⟩
  · cases halike with
    | value _ => exact .inl ⟨_, rfl⟩
    | error d => exact .inr ⟨d, rfl⟩
  · obtain ⟨c₁, s₁, c', s', hfirst', -, -, hagain, hunchanged', halike⟩ :=
      hm'.evaluates settings hs hn scope
    obtain ⟨rfl, rfl⟩ := hfirst.unique hfirst'
    exact ⟨c', s', hagain, hunchanged', halike⟩

/-- A list by the name of `base`, and the expression `[base] * (base + 3)`. -/
def sampling : Program :=
  let at0 : Expr → Node := fun e => .mk e default
  ⟨[at0 (.assign "base" (at0 (.list [at0 (.int 1), at0 (.int 2)])) true),
    at0 (.binary .mul (at0 (.list [at0 (.var "base")]))
      (at0 (.binary .add (at0 (.var "base")) (at0 (.int 3)))))], default⟩

/-- The state in which the program begins with the expression. -/
def sampled : Machine := Machine.steps ⟨9, true⟩ 9 (.ofProgram .bare default sampling)

def sample : Node := sampling.statements.getD 1 (.mk (.int 0) default)

theorem sample_pure : sample.Pure :=
  .binary .mul _ (.list _ (List.forall_mem_singleton.mpr (.var "base" _)))
    (.binary .add _ (.var "base" _) (.int 3 _))

/-- The text of the value that is there, if one is. -/
def shown? (c : Control) (s : Store) : Option String :=
  match c with
  | .flow (.value v) => some (v.display s.heap)
  | _ => none

theorem shown?_of_alike {c c' : Control} {s s' : Store} (h : c.Alike s.heap s'.heap c') :
    shown? c' s' = shown? c s := by
  cases h with
  | value hd => exact congrArg some hd
  | error d => rfl

/-- The expression makes three lists, and three more where it is evaluated again. -/
theorem pure_repeats_sample : ∃ c s c' s',
    Passes ⟨9, true⟩ (Host.start false ⟨9, true⟩) sampled ∧
    sampled.EvaluatesTo ⟨9, true⟩ sample Store.global c s ∧
    s.heap.lists.size = 4 ∧ shown? c s = some "[[1, 2], 1, 2, 3]" ∧
    (sampled.now c sampled.stack s).EvaluatesTo ⟨9, true⟩ sample Store.global c' s' ∧
    shown? c' s' = some "[[1, 2], 1, 2, 3]" := by
  have hpasses : Passes ⟨9, true⟩ (Host.start false ⟨9, true⟩) sampled :=
    ⟨.start false, .execute default sampling, _, 9, rfl, rfl⟩
  have hlonger : ∀ j < 10, (Machine.steps ⟨9, true⟩ (j + 1) sampled).stack.length ≠ 1 := by
    decide +kernel
  have hshown : shown? (Machine.steps ⟨9, true⟩ 11 sampled).control
      (Machine.steps ⟨9, true⟩ 11 sampled).store = some "[[1, 2], 1, 2, 3]" := by decide +kernel
  have hrun : sampled.EvaluatesTo ⟨9, true⟩ sample Store.global
      (Machine.steps ⟨9, true⟩ 11 sampled).control (Machine.steps ⟨9, true⟩ 11 sampled).store := by
    refine ⟨11, rfl, ⟨rfl, ?_⟩, fun j hj hf => ?_⟩
    · rintro ⟨node, scope, he⟩
      have hnone := congrArg (shown? · (Machine.steps ⟨9, true⟩ 11 sampled).store) he
      cases hshown.symm.trans hnone
    · cases j with
      | zero => exact Machine.not_finished_eval rfl hf
      | succ j => exact hlonger j (Nat.lt_of_succ_lt_succ hj) (congrArg List.length hf.1)
  obtain ⟨⟨c, s, hfirst, -, hunchanged, -, hagain⟩, -⟩ :=
    pure_repeats hpasses sample_pure Store.global
  obtain ⟨rfl, rfl⟩ := hrun.unique hfirst
  obtain ⟨c', s', hsecond, -, halike⟩ := hagain _ hunchanged
  exact ⟨_, _, c', s', hpasses, hrun, by decide +kernel, hshown, hsecond,
    (shown?_of_alike halike).trans hshown⟩

end Scriptlet.Host

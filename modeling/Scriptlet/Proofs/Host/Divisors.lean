import Scriptlet.Proofs.Host.Traces
import Scriptlet.Proofs.Number.Division

/-!
# Divisions and their errors

What the whole division and the remainder of two whole numbers give, and when
a division fails. Of all that a step may do only one thing leads to an error
of division: an operator that divides is applied to a number and a zero.
-/

set_option autoImplicit false

namespace Scriptlet

/-- The two faults of dividing by zero. -/
def Fault.OfZero (fault : Fault) : Prop := fault = .divisionByZero ∨ fault = .moduloByZero

theorem Fault.OfZero.ofPart {fault : Fault} (h : fault.OfZero) : fault.ofPart = true := by
  rcases h with rfl | rfl <;> rfl

/-- Every frame is left by some node, but for the end of a call, the statements of a program, and a
stride, which is only there for a loop that has one. -/
theorem Frame.serves_some (frame : Frame) :
    (∃ callee scope, frame = .call callee scope) ∨ (∃ rest last, frame = .program rest last) ∨
      (∃ loop start stop, frame = .forStep loop start stop) ∨ ∃ node, frame.Serves node := by
  have part (span : Span) : ∃ node : Node, node.span = span := ⟨.mk .break span, rfl⟩
  cases frame with
  | call callee scope => exact .inl ⟨_, _, rfl⟩
  | program rest last => exact .inr (.inl ⟨_, _, rfl⟩)
  | forStep loop start stop => exact .inr (.inr (.inl ⟨_, _, _, rfl⟩))
  | listItem done rest scope =>
    exact .inr (.inr (.inr ⟨.mk (.list rest) default, .listItem (List.Subset.refl _)⟩))
  | assign name declare scope =>
    exact .inr (.inr (.inr ⟨.mk (.assign name (.mk .break default) declare) default, .assign⟩))
  | leftOperand op right scope span =>
    exact .inr (.inr (.inr ⟨.mk (.binary op right right) span, .leftOperand⟩))
  | rightOperand op left rightSpan span =>
    obtain ⟨right, rfl⟩ := part rightSpan
    exact .inr (.inr (.inr ⟨.mk (.binary op right right) span, .rightOperand⟩))
  | operand op span =>
    exact .inr (.inr (.inr ⟨.mk (.unary op (.mk .break default)) span, .operand⟩))
  | condition body rest otherwise scope =>
    exact .inr (.inr (.inr ⟨.mk (.ifElse ((body, body) :: rest) otherwise) default,
      .condition (List.Subset.refl _)⟩))
  | holding v => exact .inr (.inr (.inr ⟨.mk .break default, .holding⟩))
  | whileTest loop results =>
    exact .inr (.inr (.inr ⟨.mk (.whileDo loop.test loop.body) default, .whileTest⟩))
  | whileBody loop results test =>
    exact .inr (.inr (.inr ⟨.mk (.whileDo loop.test loop.body) default, .whileBody⟩))
  | forStart loop =>
    obtain ⟨var, span, stop, step, body, scope⟩ := loop
    obtain ⟨start, rfl⟩ := part span
    exact .inr (.inr (.inr ⟨.mk (.forTo var start stop step body) default, .forStart⟩))
  | forStop loop start =>
    obtain ⟨var, span, stop, step, body, scope⟩ := loop
    obtain ⟨start, rfl⟩ := part span
    exact .inr (.inr (.inr ⟨.mk (.forTo var start stop step body) default, .forStop⟩))
  | forBody loop pace results =>
    obtain ⟨var, span, stop, step, body, scope⟩ := loop
    obtain ⟨start, rfl⟩ := part span
    exact .inr (.inr (.inr ⟨.mk (.forTo var start stop step body) default, .forBody⟩))
  | callee args scope span =>
    exact .inr (.inr (.inr ⟨.mk (.call (.mk .break default) args) span, .callee⟩))
  | argument callee done rest scope span =>
    exact .inr (.inr (.inr ⟨.mk (.call (.mk .break default) rest) span,
      .argument (List.Subset.refl _)⟩))
  | indexTarget place scope span =>
    exact .inr (.inr (.inr ⟨.mk (.index place place) span, .indexTarget⟩))
  | indexPlace target span =>
    exact .inr (.inr (.inr ⟨.mk (.index (.mk .break default) (.mk .break default)) span,
      .indexPlace⟩))
  | returned =>
    exact .inr (.inr (.inr ⟨.mk (.return (some (.mk .break default))) default, .returned⟩))
  | block rest scope =>
    exact .inr (.inr (.inr ⟨.mk (.block rest) default, .block (List.Subset.refl _)⟩))

namespace Machine

variable {settings : Settings} {first m m' : Machine} {k : Nat} {d : Diagnostic} {fault : Fault}
  {node : Node}

/-- A number is about to be divided by zero: the fault that this is, and the span of the divisor. -/
inductive DividesByZero (m : Machine) : Fault → Span → Prop where
  | mk {op : BinaryOp} {n z : Number} {rightSpan span : Span} {below : List Frame}
      (hd : op.divides = true) (hz : z ∈ Number.zeros)
      (hc : m.control = .flow (.value (.number z)))
      (hs : m.stack = .rightOperand op (.number n) rightSpan span :: below) :
      m.DividesByZero op.zeroFault rightSpan

/-! ## Steps -/

/-- Only a node that divides fails with a fault of dividing by zero. -/
theorem Follows.divides (h : Follows node m m') (hm : m'.control = .failed d)
    (hd : d.cause = .runtime fault) (hz : fault.OfZero) :
    ∃ op left right span, node = .mk (.binary op left right) span := by
  cases h with
  | flow hc | part _ _ hc | last _ hc | call _ _ hc => cases hc.symm.trans hm
  | fault hb hc =>
    obtain rfl := Control.failed.inj (hc.symm.trans hm)
    obtain rfl := Cause.runtime.inj hd
    cases hb with
    | whole _ hf => cases hf.symm.trans hz.ofPart
    | divisor => exact ⟨_, _, _, _, rfl⟩
    | bound => rcases hz with h | h <;> cases h

theorem startFor_not_zero {loop : ForLoop} {a b c : Value}
    (hm : (m.startFor loop a b c).control = .failed d) (hd : d.cause = .runtime fault) :
    ¬ fault.OfZero := by
  intro hz
  have hbound {v : Value} {span : Span} (hm : (m.refuseBound v span [a, b, c]).control =
      .failed d) : False := by
    obtain rfl := Control.failed.inj hm
    obtain rfl := Cause.runtime.inj hd
    rcases hz with h | h <;> cases h
  unfold startFor at hm
  split at hm
  · obtain ⟨var, span, stop, step, body, scope⟩ := loop
    have hturn (pace : Pace) :
        Follows (.mk (.forTo var (.mk .break span) stop step body) span) m
          (m.turn ⟨var, span, stop, step, body, scope⟩ pace []) :=
      Follows.turn m pace []
    obtain ⟨_, _, _, _, h⟩ := (hturn _).divides hm hd hz
    cases h
  · exact hbound hm
  · exact hbound hm
  · exact hbound hm

theorem applyBinary_zero {op : BinaryOp} {v w : Value} {rightSpan span : Span}
    (hm : (m.applyBinary op v w rightSpan span).control = .failed d)
    (hd : d.cause = .runtime fault) (hz : fault.OfZero) :
    Operator.divisorFault? op v w = some fault ∧ d.span = rightSpan := by
  unfold applyBinary at hm
  split at hm
  · obtain rfl := Control.failed.inj hm
    obtain rfl := Cause.runtime.inj hd
    exact ⟨‹_›, rfl⟩
  · split at hm
    · obtain rfl := Control.failed.inj hm
      obtain rfl := Cause.runtime.inj hd
      cases (Operator.binary_error ‹_›).symm.trans hz.ofPart
    · cases hm

theorem resume_zero {frame : Frame} {f : Flow}
    (hm : (resume settings m frame f).control = .failed d) (hd : d.cause = .runtime fault)
    (hz : fault.OfZero) : ∃ op v w span, frame = .rightOperand op v d.span span ∧
      f = .value w ∧ Operator.divisorFault? op v w = some fault := by
  rcases frame.serves_some with ⟨callee, scope, rfl⟩ | ⟨rest, last, rfl⟩ |
    ⟨loop, start, stop, rfl⟩ | ⟨node, hserves⟩
  · cases hm
  · cases f with
    | value v => cases rest <;> cases hm
    | _ => cases hm
  · cases f with
    | value v => exact absurd hz (startFor_not_zero hm hd)
    | _ => cases hm
  · obtain ⟨op, left, right, span, rfl⟩ :=
      (resume_follows hserves settings m f).divides hm hd hz
    cases hserves with
    | leftOperand =>
      cases f with
      | value v =>
        cases op with
        | and | or =>
          simp only [resume, resumeValue] at hm
          split at hm <;> cases hm
        | _ => cases hm
      | _ => cases hm
    | @rightOperand _ _ _ v =>
      cases f with
      | value w =>
        obtain ⟨hfault, hspan⟩ := applyBinary_zero hm hd hz
        exact ⟨op, v, w, span, by rw [hspan], rfl, hfault⟩
      | _ => cases hm
    | holding => cases f <;> cases hm

theorem step_zero (hbefore : ∀ e, m.control ≠ .failed e)
    (hm : (step settings m).control = .failed d) (hd : d.cause = .runtime fault)
    (hz : fault.OfZero) : m.DividesByZero fault d.span := by
  obtain ⟨control, stack, store, active, depth, out⟩ := m
  cases control with
  | failed e => exact absurd rfl (hbefore e)
  | eval node scope =>
    obtain ⟨op, left, right, span, rfl⟩ := (begin_follows _ node scope).divides hm hd hz
    cases hm
  | flow f =>
    cases stack with
    | nil => cases hm
    | cons frame stack =>
      obtain ⟨op, v, w, span, rfl, rfl, hfault⟩ := resume_zero hm hd hz
      obtain ⟨hdivides, ⟨n, z, rfl, rfl, hzero⟩, rfl⟩ := divisorFault?_iff.mp hfault
      exact .mk hdivides hzero rfl rfl

/-! ## Runs -/

theorem Raises.dividesByZero (h : Raises settings first k d) (hd : d.cause = .runtime fault)
    (hz : fault.OfZero) : (steps settings k first).DividesByZero fault d.span :=
  step_zero h.1 (steps_succ settings k first ▸ h.2) hd hz

end Machine

namespace Host

open Machine

variable {h : Host} {a : Act} {first : Machine} {d : Diagnostic} {fault : Fault}

theorem firstState_not_zero (hf : h.firstState? a = some first) (hm : first.control = .failed d)
    (hd : d.cause = .runtime fault) : ¬ fault.OfZero := by
  intro hz
  cases a with
  | run source =>
    obtain ⟨program, -, rfl⟩ := Option.map_eq_some_iff.mp hf
    cases hm
  | execute source program =>
    obtain rfl := Option.some.inj hf
    cases hm
  | call callee args span =>
    obtain rfl := Option.some.inj hf
    have hfollows (m : Machine) : Follows (.mk (.call (.mk .break default) []) span) m
        (apply h.session.settings.limit m (h.value callee) (args.map h.value) span) :=
      Follows.apply h.session.settings.limit m (h.value callee) (args.map h.value)
    obtain ⟨_, _, _, _, he⟩ := (hfollows _).divides hm hd hz
    cases he
  | _ => cases hf

/-- A run that fails with a fault of dividing by zero has come to a state that divides a number by
zero. -/
theorem divided_of_failed {settings : Settings} (hf : h.firstState? a = some first) {n : Nat}
    (hm : (steps settings n first).control = .failed d) (hd : d.cause = .runtime fault)
    (hz : fault.OfZero) :
    ∃ k, Raises settings first k d ∧ (steps settings k first).DividesByZero fault d.span := by
  by_cases hfirst : ∃ e, first.control = .failed e
  · obtain ⟨e, he⟩ := hfirst
    have hsame : (steps settings n first).control = .failed e := by
      clear hm
      induction n with
      | zero => exact he
      | succ n ih => exact steps_succ settings n first ▸ step_failed ih settings
    obtain rfl := Control.failed.inj (hsame.symm.trans hm)
    exact absurd hz (firstState_not_zero hf he hd)
  · obtain ⟨k, hk⟩ := raised_of_failed (fun e he => hfirst ⟨e, he⟩) hm
    exact ⟨k, hk, hk.dividesByZero hd hz⟩

/-- The remainder of two whole numbers has the sign of the divisor, but for that of the smallest
number by minus one, which comes out as a double. Their whole quotient is rounded toward zero, and
is a double if it does not have 64 bits. Dividing a number by zero fails at the divisor, and nothing
else in any run fails so. -/
theorem quotients_and_remainders (settings : Settings) :
    (∀ a b : Int64, b ≠ 0 → ∀ left right span scope m e,
      (¬ (a = Int64.minValue ∧ b = -1) →
        Operands settings .mod left right span scope m (.int a) (.int b) e →
        ∃ r e', Gives settings (.mk (.binary .mod left right) span) scope m (.int r) e' ∧
          IsRemainder a.toInt b.toInt r.toInt) ∧
      (Operands settings .intDiv left right span scope m (.int a) (.int b) e →
        ∃ v e', Gives settings (.mk (.binary .intDiv left right) span) scope m v e' ∧
          v.Exact (a.toInt.tdiv b.toInt))) ∧
    (∀ left right span scope m e,
      Operands settings .mod left right span scope m (.int Int64.minValue) (.int (-1)) e →
        ∃ x e', Gives settings (.mk (.binary .mod left right) span) scope m (.float x) e') ∧
    (∀ op n z, op.divides = true → z ∈ Number.zeros → ∀ left right span scope m e,
      Operands settings op left right span scope m (.number n) (.number z) e →
        ∃ e', Fails settings (.mk (.binary op left right) span) scope m op.zeroFault right.span
          e') ∧
    ∀ (h : Host) a first, h.firstState? a = some first → ∀ n d fault,
      (steps settings n first).control = .failed d → d.cause = .runtime fault → fault.OfZero →
        ∃ k, Raises settings first k d ∧ (steps settings k first).DividesByZero fault d.span := by
  have hcomputed {op : BinaryOp} {a b : Int64} {v : Value} (hb : b ≠ 0)
      (hand : op ≠ .and) (hor : op ≠ .or)
      (hv : Operator.numbers op (.int a) (.int b) = .ok (.value v)) {left right : Node}
      {span : Span} {scope : ScopeId} {m e : Machine}
      (ho : Operands settings op left right span scope m (.int a) (.int b) e) :
      ∃ e', Gives settings (.mk (.binary op left right) span) scope m v e' := by
    refine ho.gives_computed (c := .value v) hand hor ?_ hv
    simp [Operator.divisorFault?, Value.int, Value.isZero, Number.isZero, hb]
  refine ⟨fun a b hb left right span scope m e => ⟨fun h ho => ?_, fun ho => ?_⟩,
    fun left right span scope m e ho => ?_, fun op n z hd hz left right span scope m e ho => ?_,
    fun h a first hf n d fault hm hd hz => divided_of_failed hf hm hd hz⟩
  · obtain ⟨r, hr, hrem⟩ := numbers_mod hb h
    obtain ⟨e', he'⟩ := hcomputed hb (by decide) (by decide) hr ho
    exact ⟨r, e', he', hrem⟩
  · obtain ⟨v, hv, hexact⟩ := numbers_intDiv (a := a) hb
    obtain ⟨e', he'⟩ := hcomputed hb (by decide) (by decide) hv ho
    exact ⟨v, e', he', hexact⟩
  · obtain ⟨x, hx⟩ := numbers_mod_least
    exact ⟨x, hcomputed (by decide) (by decide) (by decide) hx ho⟩
  · refine ho.fails_divisor ?_ ?_ (divisorFault?_iff.mpr ⟨hd, ⟨n, z, rfl, rfl, hz⟩, rfl⟩)
    · rintro rfl
      cases hd
    · rintro rfl
      cases hd

/-- An operator between two whole numbers, the second of them at a span of its own. -/
def between (op : BinaryOp) (a b : Int64) : Node :=
  .mk (.binary op (.mk (.int a) default) (.mk (.int b) ⟨default, ⟨4, 0, 4⟩⟩)) default

theorem between_operands (settings : Settings) (op : BinaryOp) (a b : Int64) (scope : ScopeId)
    (m : Machine) : ∃ e, Operands settings op (.mk (.int a) default)
      (.mk (.int b) ⟨default, ⟨4, 0, 4⟩⟩) default scope m (.int a) (.int b) e :=
  ⟨_, _, gives_int a, gives_int b⟩

/-- Seven and three with all their signs, the smallest quotient that is a double, and a program
that fails as it divides by zero. -/
theorem quotients_and_remainders_signs :
    let m : Machine := ⟨.flow .continue, [], Store.seeded, [], 0, ""⟩
    let program : Machine := .ofProgram .bare default ⟨[between .mod 1 0], default⟩
    (∃ e, Gives .standard (between .mod (-7) 3) Store.global m (.int 2) e) ∧
      (∃ e, Gives .standard (between .mod 7 (-3)) Store.global m (.int (-2)) e) ∧
      (∃ e, Gives .standard (between .intDiv (-7) 3) Store.global m (.int (-2)) e) ∧
      (∃ x e, Gives .standard (between .intDiv Int64.minValue (-1)) Store.global m (.float x) e) ∧
      (∃ e, Fails .standard (between .intDiv 1 0) Store.global m .divisionByZero
        ⟨default, ⟨4, 0, 4⟩⟩ e) ∧
      ∃ k, (steps .standard k program).DividesByZero .moduloByZero ⟨default, ⟨4, 0, 4⟩⟩ := by
  intro m program
  obtain ⟨hwhole, -, hzero, honly⟩ := quotients_and_remainders .standard
  have hrem {a b r : Int64} (hb : b ≠ 0) (ha : ¬ (a = Int64.minValue ∧ b = -1))
      (hr : ∀ s : Int64, IsRemainder a.toInt b.toInt s.toInt → s = r) :
      ∃ e, Gives .standard (between .mod a b) Store.global m (.int r) e := by
    obtain ⟨e, he⟩ := between_operands .standard .mod a b Store.global m
    obtain ⟨s, e', hgives, hs⟩ := (hwhole a b hb _ _ _ _ _ _).1 ha he
    exact ⟨e', hr s hs ▸ hgives⟩
  refine ⟨hrem (by decide) (by decide) fun s hs => Int64.toInt_inj.mp ?_,
    hrem (by decide) (by decide) fun s hs => Int64.toInt_inj.mp ?_, ?_, ?_, ?_, ?_⟩
  · have hmod : s.toInt % 3 = -7 % 3 := hs.congruent
    have hbounds : 0 ≤ s.toInt ∧ s.toInt < 3 := hs.of_pos (by decide)
    have htwo : (2 : Int64).toInt = 2 := rfl
    omega
  · have hmod : s.toInt % 3 = 7 % 3 := Int.modEq_neg.mp hs.congruent
    have hbounds : -3 < s.toInt ∧ s.toInt ≤ 0 := hs.of_neg (by decide)
    have htwo : (-2 : Int64).toInt = -2 := rfl
    omega
  · obtain ⟨e, he⟩ := between_operands .standard .intDiv (-7) 3 Store.global m
    obtain ⟨v, e', hgives, hv⟩ := (hwhole (-7) 3 (by decide) _ _ _ _ _ _).2 he
    exact ⟨e', hv.int (-2) (by decide) ▸ hgives⟩
  · obtain ⟨e, he⟩ := between_operands .standard .intDiv Int64.minValue (-1) Store.global m
    obtain ⟨v, e', hgives, hv⟩ := (hwhole Int64.minValue (-1) (by decide) _ _ _ _ _ _).2 he
    have hleast : Int64.minValue.toInt.tdiv (-1 : Int64).toInt = 2 ^ 63 := by decide
    obtain ⟨x, rfl⟩ := hv.float fun i hi => absurd i.toInt_lt (by omega)
    exact ⟨x, e', hgives⟩
  · obtain ⟨e, he⟩ := between_operands .standard .intDiv 1 0 Store.global m
    exact hzero .intDiv (.int 1) (.int 0) rfl (by simp [Number.zeros]) _ _ _ _ _ _ he
  · have hfails : (steps .standard 6 program).control =
      .failed (program.diagnostic .moduloByZero ⟨default, ⟨4, 0, 4⟩⟩) := rfl
    obtain ⟨k, -, hk⟩ := honly (Host.start false .standard)
      (.execute default ⟨[between .mod 1 0], default⟩) program rfl 6 _ _ hfails rfl (.inr rfl)
    exact ⟨k, hk⟩

/-- The remainder of the smallest number by minus one is zero, but no whole number is given. -/
theorem remainder_of_least_float :
    let m : Machine := ⟨.flow .continue, [], Store.seeded, [], 0, ""⟩
    IsRemainder Int64.minValue.toInt (-1 : Int64).toInt (0 : Int64).toInt ∧
      (∃ x e, Gives .standard (between .mod Int64.minValue (-1)) Store.global m (.float x) e) ∧
      ¬ ∃ r e, Gives .standard (between .mod Int64.minValue (-1)) Store.global m (.int r) e := by
  intro m
  obtain ⟨e, he⟩ := between_operands .standard .mod Int64.minValue (-1) Store.global m
  obtain ⟨x, hx⟩ := numbers_mod_least
  obtain ⟨e', hgives⟩ := he.gives_computed (c := .value (.float x)) (by decide) (by decide) rfl hx
  refine ⟨⟨by decide, by decide, by decide⟩, ⟨x, e', hgives⟩, ?_⟩
  rintro ⟨r, e'', hr⟩
  cases hgives.unique hr

end Host

end Scriptlet

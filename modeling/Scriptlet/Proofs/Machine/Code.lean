import Scriptlet.Proofs.Machine.Sites

/-!
# Code of a kind

A property that the parts of a node have with it is kept by runs: if the
programs that are run have it, then so has all code that a state goes on with,
and the code of all functions.
-/

set_option autoImplicit false

namespace Scriptlet

/-- A property that the parts of a node have with it. -/
def Hereditary (P : Node → Prop) : Prop := ∀ n, P n → ∀ part ∈ n.expr.children, P part

/-- What a frame goes on with has a property. -/
inductive Frame.Of (P : Node → Prop) : Frame → Prop where
  | serving {frame : Frame} {node : Node} (hf : frame.Serves node) (hn : P node) : Of P frame
  | program {rest : List Node} {last : Value} (hn : ∀ n ∈ rest, P n) : Of P (.program rest last)
  | call (callee : Value) (scope : ScopeId) : Of P (.call callee scope)

namespace Machine

variable {P : Node → Prop} {settings : Settings} {m m' : Machine}

/-- All code that a state goes on with, and all code of functions, has a property. -/
structure Code (P : Node → Prop) (m : Machine) : Prop where
  control : ∀ node scope, m.control = .eval node scope → P node
  stack : ∀ frame ∈ m.stack, frame.Of P
  functions : ∀ f fn, m.store.heap.function? f = some fn → P fn.body

/-- A step about a node leads to code of the same kind. -/
theorem Follows.code {node : Node} (h : Follows node m m') (hP : Hereditary P) (hn : P node)
    (hs : ∀ frame ∈ m.stack, frame.Of P)
    (hold : ∀ f fn, m.store.heap.function? f = some fn → P fn.body)
    (hnew : ∀ f fn, m'.store.heap.function? f = some fn → P fn.body) : m'.Code P := by
  cases h with
  | flow hf hs' _ =>
    exact ⟨fun n scope hc => by simp [hf] at hc, hs' ▸ hs, hnew⟩
  | fault _ hf hs' _ =>
    exact ⟨fun n scope hc => by simp [hf] at hc, hs' ▸ hs, hnew⟩
  | part hp hf hc hs' _ =>
    refine ⟨fun n scope he => ?_, ?_, hnew⟩
    · obtain ⟨rfl, -⟩ := Control.eval.inj (hc.symm.trans he)
      exact hP node hn _ hp
    · rw [hs']
      exact List.forall_mem_cons.mpr ⟨.serving hf hn, hs⟩
  | last hp hc hs' _ =>
    refine ⟨fun n scope he => ?_, hs' ▸ hs, hnew⟩
    obtain ⟨rfl, -⟩ := Control.eval.inj (hc.symm.trans he)
    exact hP node hn _ hp
  | call _ hf hc hs' _ =>
    refine ⟨fun n scope he => ?_, ?_, hnew⟩
    · obtain ⟨rfl, -⟩ := Control.eval.inj (hc.symm.trans he)
      exact hold _ _ hf
    · rw [hs']
      exact List.forall_mem_cons.mpr ⟨.call .., hs⟩

theorem Code.functions_step (h : m.Code P) (hP : Hereditary P) (settings : Settings) :
    ∀ f fn, (step settings m).store.heap.function? f = some fn → P fn.body := by
  intro f fn hfn
  rcases (adds_step settings m).function f fn hfn with hold | ⟨-, -, name, params, span, scope, hc⟩
  · exact h.functions f fn hold
  · exact hP _ (h.control _ _ hc) _ (List.mem_singleton_self _)

theorem Code.idle (hs : ∀ frame ∈ m.stack, frame.Of P) (he : ¬ m.Evaluates)
    (hf : ∀ f fn, m.store.heap.function? f = some fn → P fn.body) : m.Code P :=
  ⟨fun node scope hc => absurd ⟨node, scope, hc⟩ he, hs, hf⟩

theorem Code.program {nodes : List Node} {last : Value} {f : Flow} (hn : ∀ n ∈ nodes, P n)
    (hf : ∀ i fn, (resume settings m (.program nodes last) f).store.heap.function? i = some fn →
      P fn.body) (hs : ∀ frame ∈ m.stack, frame.Of P) :
    (resume settings m (.program nodes last) f).Code P := by
  have hover {v : Value} {s : Store} (hf : ∀ i fn, s.heap.function? i = some fn → P fn.body) :
      Code P { m with control := .flow (.value v), store := s } :=
    .idle hs (not_evaluates_of_flow rfl) hf
  cases f with
  | value v =>
    cases nodes with
    | nil => exact hover hf
    | cons n nodes =>
      obtain ⟨hfirst, hrest⟩ := List.forall_mem_cons.mp hn
      refine ⟨fun node scope he => ?_, List.forall_mem_cons.mpr ⟨.program hrest, hs⟩, hf⟩
      obtain ⟨rfl, -⟩ := Control.eval.inj he
      exact hfirst
  | _ => exact hover hf

theorem Code.step (h : m.Code P) (hP : Hereditary P) (settings : Settings) :
    (Machine.step settings m).Code P := by
  have hnew := h.functions_step hP settings
  obtain ⟨control, stack, store, active, depth, out⟩ := m
  cases control with
  | eval node scope =>
    exact (begin_follows ⟨.flow .continue, stack, store, active, depth, out⟩ node scope).code hP
      (h.control node scope rfl) h.stack h.functions hnew
  | flow f =>
    cases stack with
    | nil => exact h
    | cons frame stack =>
      obtain ⟨hframe, hstack⟩ := List.forall_mem_cons.mp h.stack
      cases hframe with
      | serving hf hn =>
        exact (resume_follows hf settings ⟨.flow .continue, stack, store, active, depth, out⟩
          f).code hP hn hstack h.functions hnew
      | call callee scope => exact .idle hstack (not_evaluates_of_flow rfl) hnew
      | @program rest last hn => exact .program hn hnew hstack
  | failed d =>
    cases stack with
    | nil => exact h
    | cons frame stack =>
      obtain ⟨-, hstack⟩ := List.forall_mem_cons.mp h.stack
      have hunwound : (unwind settings ⟨.failed d, stack, store, active, depth, out⟩ frame).stack =
          stack ∧ (unwind settings ⟨.failed d, stack, store, active, depth, out⟩
            frame).control = .failed d := by
        cases frame <;> exact ⟨rfl, rfl⟩
      refine .idle (hunwound.1.symm ▸ hstack) ?_ hnew
      rintro ⟨node, scope, hc⟩
      cases hunwound.2.symm.trans hc

theorem Code.steps (h : m.Code P) (hP : Hereditary P) (settings : Settings) (n : Nat) :
    (Machine.steps settings n m).Code P := by
  induction n generalizing m with
  | zero => exact h
  | succ n ih => exact ih (h.step hP settings)

theorem code_ofProgram {s : Store} {source : Source} {program : Program}
    (hn : ∀ n ∈ program.statements, P n) (hf : ∀ f fn, s.heap.function? f = some fn → P fn.body) :
    (ofProgram s source program).Code P :=
  .idle (List.forall_mem_singleton.mpr (.program hn)) (not_evaluates_of_flow rfl) hf

theorem code_ofCall {s : Store} (hf : ∀ f fn, s.heap.function? f = some fn → P fn.body)
    (limit : Nat) (callee : Value) (args : List Value) (span : Span) :
    (ofCall limit s callee args span).Code P := by
  have hadds : s.heap.Adds (fun _ => False) (ofCall limit s callee args span).store.heap :=
    adds_apply limit ⟨.flow .continue, [], s, [], 0, ""⟩ callee args span
  have hnew : ∀ f fn, (ofCall limit s callee args span).store.heap.function? f = some fn →
      P fn.body := fun f fn h => hf f fn ((hadds.function f fn h).resolve_right And.right)
  rcases apply_opens limit ⟨.flow .continue, [], s, [], 0, ""⟩ callee args span with
    ⟨hdone, -⟩ | ⟨id, f, scope, hid, hc, hs, -⟩
  · exact .idle (by simp [ofCall, hdone.1]) hdone.2 hnew
  · refine ⟨fun node scope' he => ?_, ?_, hnew⟩
    · obtain ⟨rfl, -⟩ := Control.eval.inj (hc.symm.trans he)
      exact hf id f hid
    · rw [ofCall, hs]
      exact List.forall_mem_singleton.mpr (.call ..)

end Machine

end Scriptlet

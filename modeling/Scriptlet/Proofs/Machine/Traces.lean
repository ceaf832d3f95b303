import Scriptlet.Proofs.Machine.Sites

/-!
# Traces

A trace has an entry for each active call, and each entry but the last tells
where the next call was opened. An error is raised about the node that is at
work, which is a node of the source that the innermost call runs.
-/

set_option autoImplicit false

namespace Scriptlet.Machine

variable {settings : Settings}

/-- What the innermost call of a stack runs: its source and its name, and an entry for each call
around it, from the outermost on. An entry tells the line of the call expression that opened the
next call. -/
inductive Trail (under : List Frame → Node → Prop) (heap : Heap) (source : Source) :
    List Frame → Source → String → List TraceEntry → Prop where
  | program (rest : List Node) (last : Value) :
      Trail under heap source [.program rest last] source Activation.programName []
  | frame {frame : Frame} {below : List Frame} {s : Source} {name : String}
      {outer : List TraceEntry} (hc : frame.call? = none)
      (h : Trail under heap source below s name outer) :
      Trail under heap source (frame :: below) s name outer
  | call {id : FunctionId} {scope : ScopeId} {below : List Frame} {s : Source} {name : String}
      {outer : List TraceEntry} {f : Function} {node callee : Node} {args : List Node}
      (hf : heap.function? id = some f) (hu : under below node)
      (hn : node.expr = .call callee args) (hs : s.Has node)
      (h : Trail under heap source below s name outer) :
      Trail under heap source (.call (.function id) scope :: below) f.source f.displayName
        (outer ++ [⟨s.name, node.span.start.line + 1, name⟩])

section

variable {under : List Frame → Node → Prop} {heap : Heap} {base : List Activation}
  {stack : List Frame} {active : List Activation}

theorem Sited.active_ne_nil (h : Sited under heap base stack active) (hb : base ≠ []) :
    active ≠ [] := by
  cases h <;> simp [hb]

theorem Sited.trail {source : Source} (h : Sited under heap base stack active)
    (hbase : base = [⟨Activation.programName, source, none⟩]) (hne : stack ≠ [])
    (hcalled : ∀ c ∈ calls stack, ∃ id f, c.1 = .function id ∧ heap.function? id = some f) :
    ∃ a around outer, active = a :: around ∧
      Trail under heap source stack a.source a.name outer ∧
      ∀ span entries, Activation.traceFrom span active entries =
        outer ++ ⟨a.source.name, span.start.line + 1, a.name⟩ :: entries := by
  induction h with
  | base => exact absurd rfl hne
  | program hb hn =>
    subst hbase
    exact ⟨_, [], [], rfl, .program _ _, fun span entries => rfl⟩
  | frame hf hu hn hb _ ih =>
    have hc := hf.call?_eq
    obtain ⟨a, around, outer, hact, htrail, htrace⟩ := ih hb fun c hm =>
      hcalled c (by rwa [calls_cons hc])
    exact ⟨a, around, outer, hact, .frame hc htrail, htrace⟩
  | @call id scope below a outer hid hf ho hb h ih =>
    have houter : outer ≠ [] := h.active_ne_nil (by simp [hbase])
    have hcalls : calls (.call (.function id) scope :: below) =
        (.function id, scope) :: calls below := by simp [calls, Frame.call?]
    obtain ⟨b, around, entries, rfl, htrail, htrace⟩ := ih (hb houter) fun c hm =>
      hcalled c (by simp [hcalls, hm])
    obtain ⟨i, f, hi, hfun⟩ := hcalled (.function id, scope) (by simp [hcalls])
    obtain rfl := Value.function.inj hi
    obtain ⟨hname, hsource⟩ := hf f hfun
    obtain ⟨node, callee, args, hnode, hu, hn, hat⟩ := ho b rfl
    refine ⟨a, b :: around, entries ++ [⟨b.source.name, node.span.start.line + 1, b.name⟩], rfl, ?_,
      fun span rest => ?_⟩
    · rw [hname, hsource]
      exact .call hfun hu hnode hn htrail
    · rw [Activation.traceFrom, hat, Option.getD_some, htrace, List.append_assoc]
      rfl

/-- A trail has an entry for each call but the innermost, and begins with the program. -/
theorem Trail.outermost {source s : Source} {name : String} {outer : List TraceEntry}
    (h : Trail under heap source stack s name outer) (line : Nat) :
    outer.length = (calls stack).length ∧
      ∃ line' rest, outer ++ [⟨s.name, line, name⟩] =
        ⟨source.name, line', Activation.programName⟩ :: rest := by
  induction h generalizing line with
  | program rest last => exact ⟨rfl, line, [], rfl⟩
  | frame hc _ ih =>
    rw [calls_cons hc]
    exact ih line
  | @call id scope below s name outer f node callee args hf hu hn hs _ ih =>
    obtain ⟨hlen, line', rest, he⟩ := ih (node.span.start.line + 1)
    refine ⟨by simp [calls, Frame.call?, hlen], line',
      rest ++ [⟨f.source.name, line, f.displayName⟩], ?_⟩
    rw [he, List.cons_append]

end

/-! ## Errors -/

theorem Follows.fault_of_failed {node : Node} {m m' : Machine} {d : Diagnostic}
    (h : Follows node m m') (hd : m'.control = .failed d) :
    ∃ fault span, node.Blames fault span ∧ d = m.diagnostic fault span := by
  cases h with
  | fault hb hc _ _ => exact ⟨_, _, hb, Control.failed.inj (hd.symm.trans hc)⟩
  | flow hc _ _ | part _ _ hc _ _ | last _ hc _ _ | call _ _ hc _ _ => simp [hc] at hd

/-- The node that the next step is about: the one that is evaluated, or the one that the topmost
frame belongs to. -/
def AtWork (under : List Frame → Node → Prop) (m : Machine) (node : Node) : Prop :=
  (∃ scope, m.control = .eval node scope) ∨
    ¬ m.Evaluates ∧ ∃ frame below, m.stack = frame :: below ∧ under below node

/-- What fails is a node of the innermost source. -/
theorem Sites.failed {under : List Frame → Node → Prop} {base : List Activation} {m : Machine}
    {d : Diagnostic} (h : Sites under base m) (hnot : ∀ e, m.control ≠ .failed e)
    (hd : (Machine.step settings m).control = .failed d) :
    m.stack ≠ [] ∧ ∃ node fault span, AtWork under m node ∧ m.source.Has node ∧
      node.Blames fault span ∧ d = m.diagnostic fault span := by
  obtain ⟨control, stack, store, active, depth, out⟩ := m
  cases control with
  | eval node scope =>
    obtain ⟨hne, a, outer, rfl, hn⟩ := h.control node scope rfl
    obtain ⟨fault, span, hb, rfl⟩ := (begin_follows _ node scope).fault_of_failed hd
    exact ⟨hne, node, fault, span, .inl ⟨scope, rfl⟩, hn, hb, rfl⟩
  | failed e => exact absurd rfl (hnot e)
  | flow f =>
    have he (stack : List Frame) : ¬ Evaluates ⟨.flow f, stack, store, active, depth, out⟩ :=
      not_evaluates_of_flow rfl
    cases stack with
    | nil => simp [Machine.step] at hd
    | cons frame stack =>
      have hs := h.stack
      generalize hstack : frame :: stack = all at hs
      cases hs with
      | base => simp at hstack
      | @program rest last a hb hn =>
        obtain ⟨rfl, rfl⟩ := List.cons.inj hstack
        cases f with
        | value v =>
          cases rest <;>
            simp [Machine.step, Machine.resume, resumeValue, Machine.give, signal, enter] at hd
        | _ => simp [Machine.step, Machine.resume, Machine.give, signal] at hd
      | frame hf hu hn _ _ =>
        obtain ⟨rfl, rfl⟩ := List.cons.inj hstack
        obtain ⟨fault, span, hb, rfl⟩ := (resume_follows hf settings _ f).fault_of_failed hd
        exact ⟨by simp, _, fault, span, .inr ⟨he _, frame, stack, rfl, hu⟩, hn, hb, rfl⟩
      | call =>
        obtain ⟨rfl, rfl⟩ := List.cons.inj hstack
        simp [Machine.step, Machine.resume, Machine.give, signal] at hd

end Scriptlet.Machine

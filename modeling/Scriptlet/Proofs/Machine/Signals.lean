import Scriptlet.Proofs.Machine.Evaluation

/-!
# Where signals come from

A node can send a signal if the statement for it stands in the node outside
every function definition and, unless it is a return, outside every loop body.
What the frames above a stack can still send out of it gets less with every
step, so what comes out in the end could be sent from the beginning.
-/

set_option autoImplicit false

namespace Scriptlet

inductive Signal where
  | return
  | break
  | continue
  deriving DecidableEq

def Flow.signal? : Flow → Option Signal
  | .value _ => none
  | .return _ => some .return
  | .break => some .break
  | .continue => some .continue

/-- The signal that the expression is the statement for. -/
def Expr.signal? : Expr → Option Signal
  | .return _ => some .return
  | .break => some .break
  | .continue => some .continue
  | _ => none

/-- The body of a loop, for signals that it does not take. -/
def Signal.fromBody (s : Signal) (body : Node) : List Node := if s = .return then [body] else []

theorem Signal.mem_fromBody (s : Signal) {body : Node} (h : decide (s ≠ .return) = false) :
    body ∈ s.fromBody body := by
  have hs : s = .return := by simpa using h
  simp [fromBody, hs]

/-- The direct parts of an expression that a signal gets out of. -/
def Expr.ways (s : Signal) : Expr → List Node
  | .function _ _ _ => []
  | .forTo _ start stop step body => [start, stop] ++ step.toList ++ s.fromBody body
  | .whileDo test body => test :: s.fromBody body
  | e => e.children

/-- A statement for the signal stands in the node, in no function definition and in no loop body
that takes the signal. -/
inductive Node.Sends (s : Signal) : Node → Prop where
  | here {e : Expr} {span : Span} (h : e.signal? = some s) : Sends s (.mk e span)
  | part {e : Expr} {span : Span} {n : Node} (hn : n ∈ e.ways s) (h : Sends s n) :
      Sends s (.mk e span)

theorem Node.sends_mk {s : Signal} {e : Expr} {span : Span} :
    (Node.mk e span).Sends s ↔ e.signal? = some s ∨ ∃ n ∈ e.ways s, n.Sends s := by
  constructor
  · rintro (h | ⟨hn, h⟩)
    · exact .inl h
    · exact .inr ⟨_, hn, h⟩
  · rintro (h | ⟨n, hn, h⟩)
    · exact .here h
    · exact .part hn h

def Control.Sends (s : Signal) : Control → Prop
  | .eval node _ => node.Sends s
  | .flow f => f.signal? = some s
  | .failed _ => False

namespace Frame

/-- The nodes that are still to be evaluated for a frame and that the signal gets out of. -/
def ways (s : Signal) : Frame → List Node
  | .listItem _ rest _ => rest
  | .leftOperand _ right _ _ => [right]
  | .condition body rest otherwise _ =>
    body :: ((rest.flatMap fun b => [b.1, b.2]) ++ otherwise.toList)
  | .whileTest loop _ => loop.test :: s.fromBody loop.body
  | .whileBody loop _ _ => loop.test :: s.fromBody loop.body
  | .forStart loop => loop.stop :: (loop.step.toList ++ s.fromBody loop.body)
  | .forStop loop _ => loop.step.toList ++ s.fromBody loop.body
  | .forStep loop _ _ => s.fromBody loop.body
  | .forBody loop _ _ => s.fromBody loop.body
  | .callee args _ _ => args
  | .argument _ _ rest _ _ => rest
  | .indexTarget place _ _ => [place]
  | .block rest _ => rest
  | _ => []

/-- The signal that a frame makes of a value. -/
def signal? : Frame → Option Signal
  | .returned => some .return
  | _ => none

/-- Whether the signal ends at the frame. -/
def takes (s : Signal) : Frame → Bool
  | .call _ _ => true
  | .program _ _ => true
  | .whileBody _ _ _ => s ≠ .return
  | .forBody _ _ _ => s ≠ .return
  | _ => false

def Sends (s : Signal) (frame : Frame) : Prop :=
  frame.signal? = some s ∨ ∃ n ∈ frame.ways s, n.Sends s

end Frame

/-- The signal can come out of some frames, given whether it can come up to them. -/
def Emerges (s : Signal) : List Frame → Prop → Prop
  | [], inner => inner
  | frame :: outer, inner => Emerges s outer (inner ∧ frame.takes s = false ∨ frame.Sends s)

namespace Emerges

variable {s : Signal} {frames : List Frame} {p q : Prop}

theorem mono (hpq : p → q) (h : Emerges s frames p) : Emerges s frames q := by
  induction frames generalizing p q with
  | nil => exact hpq h
  | cons frame outer ih => exact ih (Or.imp_left (And.imp_left hpq)) h

theorem append {inner outer : List Frame} :
    Emerges s (inner ++ outer) p ↔ Emerges s outer (Emerges s inner p) := by
  induction inner generalizing p with
  | nil => rfl
  | cons frame inner ih => exact ih

end Emerges

namespace Machine

variable {settings : Settings} {s : Signal} {m m' e : Machine} {below frames : List Frame}
  {frame : Frame} {P : Prop}

/-- What a step puts on the stack of `m` lets the signal come out of it only on a condition. -/
def Lets (s : Signal) (m m' : Machine) (P : Prop) : Prop :=
  ∃ new, m'.stack = new ++ m.stack ∧ (Emerges s new (m'.control.Sends s) → P)

/-! ## Parts of a step -/

namespace Lets

theorem at_once (hs : m'.stack = m.stack) (hP : m'.control.Sends s → P) : Lets s m m' P :=
  ⟨[], hs, hP⟩

/-- A value is no signal. -/
theorem valued {v : Value} (hs : m'.stack = m.stack) (hc : m'.control = .flow (.value v)) :
    Lets s m m' P :=
  at_once hs fun h => by
    rw [hc] at h
    cases h

theorem weaken {Q : Prop} (h : Lets s m m' P) (hPQ : P → Q) : Lets s m m' Q := by
  obtain ⟨new, hs, hP⟩ := h
  exact ⟨new, hs, hPQ ∘ hP⟩

theorem dropAll {vs : List Value} (h : Lets s (m.dropAll vs) m' P) : Lets s m m' P := h

theorem signal (m : Machine) (f : Flow) : Lets s m (m.signal f) (f.signal? = some s) :=
  at_once rfl id

theorem give (m : Machine) (v : Value) : Lets s m (m.give v) P :=
  valued rfl rfl

theorem giveList (m : Machine) (results : List Value) : Lets s m (m.giveList results) P :=
  valued rfl rfl

theorem refuse (m : Machine) (vs : List Value) (fault : Fault) (span : Span) :
    Lets s m ((m.dropAll vs).fail fault span) P :=
  at_once rfl False.elim

theorem enter {part : Node} (m : Machine) (scope : ScopeId)
    (hpart : frame.takes s = false → part.Sends s → P) (hframe : frame.Sends s → P) :
    Lets s m (m.enter frame part scope) P :=
  ⟨[frame], rfl, fun h => h.elim (fun h => hpart h.2 h.1) hframe⟩

/-- A part is evaluated above a frame, and both are among some nodes. -/
theorem enter_of_mem {part : Node} {nodes : List Node} (m : Machine) (scope : ScopeId)
    (hpart : frame.takes s = false → part ∈ nodes) (hframe : frame.ways s ⊆ nodes)
    (hsignal : frame.signal? = none) :
    Lets s m (m.enter frame part scope) (∃ n ∈ nodes, n.Sends s) := by
  refine enter m scope (fun ht hn => ⟨part, hpart ht, hn⟩) ?_
  rintro (hs | ⟨n, hn, hsends⟩)
  · simp [hsignal] at hs
  · exact ⟨n, hframe hn, hsends⟩

theorem choose (m : Machine) (branches : List (Node × Node)) (otherwise : Option Node)
    (scope : ScopeId) : Lets s m (m.choose branches otherwise scope)
      (∃ n ∈ (branches.flatMap fun b => [b.1, b.2]) ++ otherwise.toList, n.Sends s) := by
  cases branches with
  | cons b rest =>
    exact enter_of_mem m scope (fun _ => List.mem_cons_self ..) (List.subset_cons_self ..) rfl
  | nil =>
    cases otherwise with
    | some node => exact at_once rfl fun h => ⟨node, List.mem_singleton_self _, h⟩
    | none => exact give m .nothing

theorem statements (m : Machine) (nodes : List Node) (scope : ScopeId) :
    Lets s m (m.statements nodes scope) (∃ n ∈ nodes, n.Sends s) := by
  cases nodes with
  | nil => exact give m .nothing
  | cons node rest =>
    exact enter_of_mem m scope (fun _ => List.mem_cons_self ..) (List.subset_cons_self ..) rfl

/-! ### Loops -/

theorem finishLoop (m : Machine) (body : Node) (results : List Value) :
    Lets s m (m.finishLoop body results) P := by
  unfold Machine.finishLoop
  split
  · exact give m .nothing
  · exact giveList m results

theorem collect {body : Node} {results : List Value} {v : Value}
    (h : Lets s (m.collect body results v).2 m' P) : Lets s m m' P := by
  unfold Machine.collect at h
  split at h
  · exact h.dropAll
  · exact h

/-- The body of a counting loop takes what is meant for the loop. -/
theorem turn (m : Machine) (loop : ForLoop) (pace : Pace) (results : List Value) :
    Lets s m (m.turn loop pace results) (∃ n ∈ s.fromBody loop.body, n.Sends s) := by
  unfold Machine.turn
  dsimp only
  generalize (if pace.step.toFloat > 0.0 then decide (pace.counter.toFloat < pace.limit)
    else decide (pace.counter.toFloat > pace.limit)) = short
  cases short with
  | true =>
    exact enter_of_mem (m.define loop.scope loop.var (.number pace.counter)) loop.scope
      s.mem_fromBody (List.Subset.refl _) rfl
  | false => exact finishLoop m loop.body results

theorem startFor (m : Machine) (loop : ForLoop) (start stop step : Value) :
    Lets s m (m.startFor loop start stop step) (∃ n ∈ s.fromBody loop.body, n.Sends s) := by
  unfold Machine.startFor
  split
  · exact turn m loop _ []
  all_goals exact refuse m ..

/-! ### Operators and calls -/

theorem applyBinary (m : Machine) (op : BinaryOp) (a b : Value) (rightSpan span : Span) :
    Lets s m (m.applyBinary op a b rightSpan span) P := by
  unfold Machine.applyBinary
  split
  · exact refuse m ..
  · split
    · exact refuse m ..
    · exact valued rfl rfl

theorem applyUnary (m : Machine) (op : UnaryOp) (v : Value) (span : Span) :
    Lets s m (m.applyUnary op v span) P := by
  unfold Machine.applyUnary
  split
  · exact refuse m ..
  · exact dropAll (give ..)

theorem applyIndex (m : Machine) (target place : Value) (span : Span) :
    Lets s m (m.applyIndex target place span) P := by
  unfold Machine.applyIndex
  split
  · exact refuse m ..
  · exact valued rfl rfl

theorem applyBuiltin (m : Machine) (b : Builtin) (args : List Value) (span : Span) :
    Lets s m (m.applyBuiltin b args span) P := by
  unfold Machine.applyBuiltin
  split
  · exact refuse m args _ span
  · dsimp only
    split
    · exact valued rfl rfl
    · exact at_once rfl False.elim

/-- Nothing comes out of a call. -/
theorem enterCall (m : Machine) (f : Function) (callee : Value) (args : List Value) (span : Span) :
    Lets s m (m.enterCall f callee args span) P := by
  refine ⟨[_], rfl, ?_⟩
  rintro (⟨-, htakes⟩ | hs | ⟨n, hn, -⟩)
  · simp [Frame.takes] at htakes
  · simp [Frame.signal?] at hs
  · simp [Frame.ways] at hn

theorem apply (limit : Nat) (m : Machine) (callee : Value) (args : List Value) (span : Span) :
    Lets s m (Machine.apply limit m callee args span) P := by
  unfold Machine.apply
  split
  · exact applyBuiltin m _ args span
  · split
    · unfold Machine.applyFunction
      split
      · exact refuse m ..
      · split
        · exact refuse m ..
        · exact enterCall ..
    · exact refuse m ..
  · exact refuse m ..

/-! ### Nodes and frames -/

theorem begin (m : Machine) (node : Node) (scope : ScopeId) :
    Lets s m (m.begin node scope) (node.Sends s) := by
  obtain ⟨e, span⟩ := node
  have hparts {m' : Machine} (h : Lets s m m' (∃ n ∈ e.ways s, n.Sends s)) :
      Lets s m m' ((Node.mk e span).Sends s) :=
    h.weaken fun ⟨_, hn, hsends⟩ => .part hn hsends
  have hown {f : Flow} (h : f.signal? = e.signal?) :
      Lets s m (m.signal f) ((Node.mk e span).Sends s) :=
    (signal m f).weaken fun hs => .here (h ▸ hs)
  cases e with
  | int n => exact give ..
  | float x => exact give ..
  | text t => exact give ..
  | list items =>
    cases items with
    | nil => exact giveList ..
    | cons item rest =>
      exact hparts (enter_of_mem m scope (fun _ => List.mem_cons_self ..)
        (List.subset_cons_self ..) rfl)
  | var name =>
    simp only [Machine.begin]
    split
    · exact valued rfl rfl
    · exact at_once rfl False.elim
  | assign name value declare =>
    exact hparts (enter_of_mem m scope (fun _ => List.mem_cons_self ..) (List.nil_subset _) rfl)
  | binary op left right =>
    exact hparts (enter_of_mem m scope (fun _ => List.mem_cons_self ..)
      (List.subset_cons_self ..) rfl)
  | unary op operand =>
    exact hparts (enter_of_mem m scope (fun _ => List.mem_cons_self ..) (List.nil_subset _) rfl)
  | ifElse branches otherwise => exact hparts (choose m branches otherwise scope)
  | forTo var start stop step body =>
    refine hparts (enter_of_mem m scope (fun _ => List.mem_cons_self ..) ?_ rfl)
    rw [Expr.ways, List.append_assoc]
    exact List.subset_cons_self ..
  | whileDo test body =>
    exact hparts (enter_of_mem m scope (fun _ => List.mem_cons_self ..) (List.Subset.refl _) rfl)
  | function name params body => exact valued rfl rfl
  | call callee args =>
    exact hparts (enter_of_mem m scope (fun _ => List.mem_cons_self ..)
      (List.subset_cons_self ..) rfl)
  | index target place =>
    exact hparts (enter_of_mem m scope (fun _ => List.mem_cons_self ..)
      (List.subset_cons_self ..) rfl)
  | «return» value =>
    cases value with
    | none => exact hown rfl
    | some value =>
      refine enter m scope (fun _ h => .part (List.mem_singleton_self _) h) ?_
      rintro (hs | ⟨n, hn, -⟩)
      · exact .here hs
      · simp [Frame.ways] at hn
  | «continue» => exact hown rfl
  | «break» => exact hown rfl
  | block body => exact hparts (statements m body scope)

theorem resumeValue (limit : Nat) (m : Machine) (frame : Frame) (v : Value) :
    Lets s m (Machine.resumeValue limit m frame v) (frame.Sends s) := by
  have hparts {k m' : Machine} (h : Lets s k m' (∃ n ∈ frame.ways s, n.Sends s)) :
      Lets s k m' (frame.Sends s) := h.weaken .inr
  cases frame with
  | listItem done rest scope =>
    cases rest with
    | nil => exact giveList ..
    | cons item rest =>
      exact hparts (enter_of_mem m scope (fun _ => List.mem_cons_self ..)
        (List.subset_cons_self ..) rfl)
  | assign name declare scope => exact valued rfl rfl
  | leftOperand op right scope span =>
    have hright {frame : Frame} (hw : frame.ways s = []) (hs : frame.signal? = none) :
        Lets s m (m.enter frame right scope) ((Frame.leftOperand op right scope span).Sends s) :=
      hparts (enter_of_mem m scope (fun _ => List.mem_singleton_self _) (hw ▸ List.nil_subset _) hs)
    cases op with
    | and | or =>
      simp only [Machine.resumeValue]
      split <;> first | exact hright rfl rfl | exact give ..
    | _ => exact hright rfl rfl
  | rightOperand op left rightSpan span => exact applyBinary ..
  | operand op span => exact applyUnary ..
  | condition body rest otherwise scope =>
    simp only [Machine.resumeValue]
    split
    · exact hparts (enter_of_mem m scope (fun _ => List.mem_cons_self ..) (List.nil_subset _) rfl)
    · refine hparts ((choose (m.dropAll [v]) rest otherwise scope).dropAll.weaken ?_)
      rintro ⟨n, hn, hsends⟩
      exact ⟨n, List.mem_cons_of_mem _ hn, hsends⟩
  | holding w => exact dropAll (give ..)
  | whileTest loop results =>
    simp only [Machine.resumeValue]
    split
    · exact hparts (enter_of_mem m loop.scope
        (fun h => List.mem_cons_of_mem _ (s.mem_fromBody h)) (List.Subset.refl _) rfl)
    · exact dropAll (finishLoop ..)
  | whileBody loop results test =>
    exact collect (dropAll (hparts (enter_of_mem _ loop.scope (fun _ => List.mem_cons_self ..)
      (List.Subset.refl _) rfl)))
  | forStart loop =>
    exact hparts (enter_of_mem m loop.scope (fun _ => List.mem_cons_self ..)
      (List.subset_cons_self ..) rfl)
  | forStop loop start =>
    obtain ⟨var, place, stop, step, body, scope⟩ := loop
    cases step with
    | none => exact hparts (startFor m _ start v _)
    | some step =>
      exact hparts (enter_of_mem m scope (fun _ => List.mem_cons_self ..)
        (List.subset_cons_self ..) rfl)
  | forStep loop start stop => exact hparts (startFor m loop start stop v)
  | forBody loop pace results => exact collect (hparts (turn ..))
  | callee args scope span =>
    cases args with
    | nil => exact apply ..
    | cons arg rest =>
      exact hparts (enter_of_mem m scope (fun _ => List.mem_cons_self ..)
        (List.subset_cons_self ..) rfl)
  | argument callee done rest scope span =>
    cases rest with
    | nil => exact apply ..
    | cons arg rest =>
      exact hparts (enter_of_mem m scope (fun _ => List.mem_cons_self ..)
        (List.subset_cons_self ..) rfl)
  | call callee scope => exact give ..
  | indexTarget place scope span =>
    exact hparts (enter_of_mem m scope (fun _ => List.mem_singleton_self _) (List.nil_subset _) rfl)
  | indexPlace target span => exact applyIndex ..
  | returned => exact (signal m _).weaken .inl
  | block rest scope => exact dropAll (hparts (statements _ rest scope))
  | program rest last =>
    cases rest with
    | nil => exact dropAll (give ..)
    | cons statement rest =>
      refine dropAll (enter _ Store.global (fun ht => ?_) id)
      simp [Frame.takes] at ht

theorem resume (settings : Settings) (m : Machine) (frame : Frame) (f : Flow) :
    Lets s m (Machine.resume settings m frame f)
      (f.signal? = some s ∧ frame.takes s = false ∨ frame.Sends s) := by
  unfold Machine.resume
  split
  · exact valued rfl rfl
  · exact (resumeValue ..).weaken .inr
  · exact dropAll ((enter_of_mem _ _ (fun _ => List.mem_cons_self ..)
      (List.Subset.refl _) rfl).weaken fun h => .inr (.inr h))
  · exact dropAll (give ..)
  · exact (turn ..).weaken fun h => .inr (.inr h)
  · exact dropAll (give ..)
  · exact dropAll (give ..)
  · rename_i hcall hprogram hvalue hwhile hwhile' hfor hfor'
    refine dropAll ((signal _ f).weaken fun hs => .inl ⟨hs, ?_⟩)
    cases frame with
    | call callee scope => exact absurd rfl (hcall callee scope)
    | program rest last => exact absurd rfl (hprogram rest last)
    | whileBody loop results test =>
      cases f with
      | «continue» => exact absurd rfl (hwhile loop results test rfl)
      | «break» => exact absurd rfl (hwhile' loop results test rfl)
      | value v => cases hs
      | «return» v => obtain rfl := Option.some.inj hs; rfl
    | forBody loop pace results =>
      cases f with
      | «continue» => exact absurd rfl (hfor loop pace results rfl)
      | «break» => exact absurd rfl (hfor' loop pace results rfl)
      | value v => cases hs
      | «return» v => obtain rfl := Option.some.inj hs; rfl
    | _ => rfl

theorem unwind (settings : Settings) (m : Machine) (frame : Frame) (hc : ¬ m.control.Sends s) :
    Lets s m (Machine.unwind settings m frame) P := by
  unfold Machine.unwind
  split
  · exact at_once rfl fun h => absurd h hc
  · exact at_once rfl fun h => absurd h hc

end Lets

/-! ## Runs -/

/-- What is to be done above a stack can let the signal come out of it only on a condition. -/
def Leaves (s : Signal) (below : List Frame) (m : Machine) (P : Prop) : Prop :=
  ∃ frames, m.stack = frames ++ below ∧ (Emerges s frames (m.control.Sends s) → P)

theorem Lets.leaves {outer : List Frame} {Q : Prop} (h : Lets s m m' Q)
    (hs : m.stack = outer ++ below) (hP : Emerges s outer Q → P) : Leaves s below m' P := by
  obtain ⟨new, hnew, hQ⟩ := h
  refine ⟨new ++ outer, by rw [hnew, hs, List.append_assoc], fun he => hP ?_⟩
  exact Emerges.mono hQ (Emerges.append.mp he)

theorem Leaves.step (h : Leaves s below m P) (hf : ¬ m.Finished below) (settings : Settings) :
    Leaves s below (Machine.step settings m) P := by
  obtain ⟨frames, hs, hP⟩ := h
  obtain ⟨control, stack, store, active, depth, out⟩ := m
  obtain rfl : stack = frames ++ below := hs
  cases control with
  | eval node scope =>
    exact Lets.leaves (Lets.begin ⟨.flow .continue, _, store, active, depth, out⟩ node scope) rfl hP
  | flow f =>
    cases frames with
    | nil => exact absurd (Finished.of_flow rfl rfl) hf
    | cons frame outer =>
      exact Lets.leaves (Lets.resume settings ⟨.flow .continue, _, store, active, depth, out⟩ frame
        f) rfl hP
  | failed d =>
    cases frames with
    | nil => exact absurd ⟨rfl, by simp [Evaluates]⟩ hf
    | cons frame outer =>
      refine Lets.leaves (Lets.unwind (P := False) settings
        ⟨.failed d, _, store, active, depth, out⟩ frame id) rfl fun he => hP ?_
      change Emerges s outer _
      exact Emerges.mono False.elim he

theorem Leaves.steps {n : Nat} (h : Leaves s below m P)
    (hf : ∀ j < n, ¬ (Machine.steps settings j m).Finished below) :
    Leaves s below (Machine.steps settings n m) P := by
  induction n generalizing m with
  | zero => exact h
  | succ n ih =>
    have hnow : ¬ m.Finished below := hf 0 n.succ_pos
    exact ih (h.step hnow settings) fun j hj => hf (j + 1) (Nat.succ_lt_succ hj)

/-- A signal that the evaluation of a node ends with is one that the node sends. -/
theorem Reaches.sends {node : Node} {scope : ScopeId} {f : Flow}
    (h : Reaches settings m.stack { m with control := .eval node scope } e)
    (hc : e.control = .flow f) (hf : f.signal? = some s) : node.Sends s := by
  obtain ⟨n, rfl, hend, hbefore⟩ := h
  have hleaves : Leaves s m.stack { m with control := .eval node scope } (node.Sends s) :=
    ⟨[], rfl, id⟩
  obtain ⟨frames, hs, hP⟩ := hleaves.steps hbefore
  obtain rfl : frames = [] := List.append_left_eq_self.mp (hs.symm.trans hend.1)
  refine hP ?_
  rw [Emerges, hc]
  exact hf

end Machine

end Scriptlet

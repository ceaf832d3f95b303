import Scriptlet.Proofs.Machine.Definitions
import Scriptlet.Proofs.Grammar.Form

/-!
# The nodes behind frames

A frame is left on the stack by the evaluation of a node and stays there while
parts of the node are evaluated. What a step does about a node is one of few
things: it ends the evaluation, goes on with a part of the node, opens a call,
or fails at the node, at the divisor of a division by zero, or at a bound of
a counting loop that is no number.
-/

set_option autoImplicit false

namespace Scriptlet

/-! ## What errors are about -/

/-- Whether a fault is found in a part of the node that fails. -/
def Fault.ofPart : Fault → Bool
  | divisionByZero => true
  | moduloByZero => true
  | operandTypes .forTo _ _ => true
  | _ => false

/-- The span that a fault of a node is reported at. -/
inductive Node.Blames : Node → Fault → Span → Prop where
  | whole (node : Node) {fault : Fault} (hf : fault.ofPart = false) : Blames node fault node.span
  | divisor {op : BinaryOp} {left right : Node} {span : Span} (hd : op.divides = true)
      {fault : Fault} (hf : fault = .divisionByZero ∨ fault = .moduloByZero) :
      Blames (.mk (.binary op left right) span) fault right.span
  | bound {var : String} {start stop body : Node} {step : Option Node} {span : Span} {b : Node}
      (hb : b ∈ [start, stop] ++ step.toList) (kind : ValueKind) :
      Blames (.mk (.forTo var start stop step body) span) (.operandTypes .forTo kind none) b.span

namespace Operator

theorem lists_error {h : Heap} {op : BinaryOp} {id : ListId} {b : Value} {fault : Fault}
    (he : lists h op id b = .error fault) : fault.ofPart = false := by
  unfold lists at he
  split at he
  · simp at he
  · simp at he
  · dsimp only at he
    split at he
    · simp at he
    · obtain rfl := Except.error.inj he
      exact resolveIndex_error ‹_› ▸ rfl
  · dsimp only at he
    split at he
    · simp at he
    · obtain rfl := Except.error.inj he
      exact resolveIndex_error ‹_› ▸ rfl
  · simp at he
  · simp at he
  · obtain rfl := Except.error.inj he
    rfl

theorem binary_error {h : Heap} {op : BinaryOp} {a b : Value} {fault : Fault}
    (he : binary h op a b = .error fault) : fault.ofPart = false := by
  unfold binary at he
  split at he
  · simp only [numbers] at he
    split at he
    · simp at he
    · obtain rfl := Except.error.inj he
      rfl
  · unfold texts at he
    split at he
    · simp at he
    · split at he
      · simp at he
      · obtain rfl := Except.error.inj he
        rfl
  · exact lists_error he
  · split at he
    · simp only [repeatText] at he
      split at he
      · simp at he
      · obtain rfl := Except.error.inj he
        rfl
    · simp at he
    · simp at he
    · obtain rfl := Except.error.inj he
      rfl

theorem divisorFault?_eq {op : BinaryOp} {a b : Value} {fault : Fault}
    (h : divisorFault? op a b = some fault) :
    op.divides = true ∧ (fault = .divisionByZero ∨ fault = .moduloByZero) := by
  unfold divisorFault? at h
  split at h
  · rename_i hd
    simp only [Bool.and_eq_true] at hd
    obtain rfl := Option.some.inj h
    refine ⟨hd.1.1, ?_⟩
    split
    · exact .inr rfl
    · exact .inl rfl
  · simp at h

theorem unary_error {h : Heap} {op : UnaryOp} {v : Value} {fault : Fault}
    (he : unary h op v = .error fault) : fault.ofPart = false := by
  unfold unary at he
  split at he
  · simp at he
  · simp at he
  · simp at he
  · obtain rfl := Except.error.inj he
    rfl

theorem index_error {h : Heap} {target place : Value} {fault : Fault}
    (he : index h target place = .error fault) : fault.ofPart = false := by
  unfold index at he
  split at he
  · dsimp only at he
    split at he
    · simp at he
    · obtain rfl := Except.error.inj he
      exact resolveIndex_error ‹_› ▸ rfl
  · dsimp only at he
    split at he
    · simp at he
    · obtain rfl := Except.error.inj he
      exact resolveIndex_error ‹_› ▸ rfl
  · obtain rfl := Except.error.inj he
    rfl

end Operator

theorem Builtin.apply_error {h : Heap} {b : Builtin} {args : List Value} {fault : Fault}
    (he : (b.apply h args).result = .error fault) : fault.ofPart = false := by
  have hpop (id : ListId) (i : Int64) (he : (popAt h id i).result = .error fault) :
      fault.ofPart = false := by
    simp only [popAt] at he
    split at he
    · obtain rfl := Except.error.inj he
      exact resolveIndex_error ‹_› ▸ rfl
    · simp [give] at he
  unfold Builtin.apply at he
  split at he
  case h_11 id i => exact hpop id i he
  all_goals cases he <;> rfl

/-! ## What frames wait for -/

/-- A frame that the evaluation of a node leaves on the stack until a part of the node is done. -/
inductive Frame.Serves : Frame → Node → Prop where
  | listItem {done : List Value} {items rest : List Node} {scope : ScopeId} {span : Span}
      (h : rest ⊆ items) : Serves (.listItem done rest scope) (.mk (.list items) span)
  | assign {name : String} {value : Node} {declare : Bool} {scope : ScopeId} {span : Span} :
      Serves (.assign name declare scope) (.mk (.assign name value declare) span)
  | leftOperand {op : BinaryOp} {left right : Node} {scope : ScopeId} {span : Span} :
      Serves (.leftOperand op right scope span) (.mk (.binary op left right) span)
  | rightOperand {op : BinaryOp} {left right : Node} {v : Value} {span : Span} :
      Serves (.rightOperand op v right.span span) (.mk (.binary op left right) span)
  | operand {op : UnaryOp} {x : Node} {span : Span} :
      Serves (.operand op span) (.mk (.unary op x) span)
  | condition {test body : Node} {branches rest : List (Node × Node)} {otherwise : Option Node}
      {scope : ScopeId} {span : Span} (h : (test, body) :: rest ⊆ branches) :
      Serves (.condition body rest otherwise scope) (.mk (.ifElse branches otherwise) span)
  | holding {v : Value} {node : Node} : Serves (.holding v) node
  | whileTest {test body : Node} {scope : ScopeId} {results : List Value} {span : Span} :
      Serves (.whileTest ⟨test, body, scope⟩ results) (.mk (.whileDo test body) span)
  | whileBody {test body : Node} {scope : ScopeId} {results : List Value} {v : Value}
      {span : Span} :
      Serves (.whileBody ⟨test, body, scope⟩ results v) (.mk (.whileDo test body) span)
  | forStart {var : String} {start stop body : Node} {step : Option Node} {scope : ScopeId}
      {span : Span} :
      Serves (.forStart ⟨var, start.span, stop, step, body, scope⟩)
        (.mk (.forTo var start stop step body) span)
  | forStop {var : String} {start stop body : Node} {step : Option Node} {scope : ScopeId}
      {v : Value} {span : Span} :
      Serves (.forStop ⟨var, start.span, stop, step, body, scope⟩ v)
        (.mk (.forTo var start stop step body) span)
  | forStep {var : String} {start stop step body : Node} {scope : ScopeId} {v w : Value}
      {span : Span} :
      Serves (.forStep ⟨var, start.span, stop, some step, body, scope⟩ v w)
        (.mk (.forTo var start stop (some step) body) span)
  | forBody {var : String} {start stop body : Node} {step : Option Node} {scope : ScopeId}
      {pace : Pace} {results : List Value} {span : Span} :
      Serves (.forBody ⟨var, start.span, stop, step, body, scope⟩ pace results)
        (.mk (.forTo var start stop step body) span)
  | callee {callee : Node} {args : List Node} {scope : ScopeId} {span : Span} :
      Serves (.callee args scope span) (.mk (.call callee args) span)
  | argument {callee : Node} {args rest : List Node} {f : Value} {done : List Value}
      {scope : ScopeId} {span : Span} (h : rest ⊆ args) :
      Serves (.argument f done rest scope span) (.mk (.call callee args) span)
  | indexTarget {target place : Node} {scope : ScopeId} {span : Span} :
      Serves (.indexTarget place scope span) (.mk (.index target place) span)
  | indexPlace {target place : Node} {v : Value} {span : Span} :
      Serves (.indexPlace v span) (.mk (.index target place) span)
  | returned {value : Node} {span : Span} : Serves .returned (.mk (.return (some value)) span)
  | block {body rest : List Node} {scope : ScopeId} {span : Span} (h : rest ⊆ body) :
      Serves (.block rest scope) (.mk (.block body) span)

theorem Frame.Serves.call?_eq {frame : Frame} {node : Node} (h : frame.Serves node) :
    frame.call? = none := by
  cases h <;> rfl

namespace Machine

variable {node : Node} {limit : Nat} {m m' : Machine}

/-- What a step does about a node, seen from the machine without the frame that waited for it. -/
inductive Follows (node : Node) (m m' : Machine) : Prop where
  /-- The evaluation of the node has ended. -/
  | flow {f : Flow} (hc : m'.control = .flow f) (hs : m'.stack = m.stack)
      (ha : m'.active = m.active)
  | fault {fault : Fault} {span : Span} (hb : node.Blames fault span)
      (hc : m'.control = .failed (m.diagnostic fault span)) (hs : m'.stack = m.stack)
      (ha : m'.active = m.active)
  | part {part : Node} {scope : ScopeId} {frame : Frame} (hp : part ∈ node.expr.children)
      (hf : frame.Serves node) (hc : m'.control = .eval part scope)
      (hs : m'.stack = frame :: m.stack) (ha : m'.active = m.active)
  /-- What the last part of a node comes to is what the node comes to. -/
  | last {part : Node} {scope : ScopeId} (hp : part ∈ node.expr.children)
      (hc : m'.control = .eval part scope) (hs : m'.stack = m.stack) (ha : m'.active = m.active)
  | call {callee : Node} {args : List Node} {id : FunctionId} {f : Function} {scope : ScopeId}
      (hn : node.expr = .call callee args) (hf : m.store.heap.function? id = some f)
      (hc : m'.control = .eval f.body scope)
      (hs : m'.stack = .call (.function id) scope :: m.stack)
      (ha : m'.active = ⟨f.displayName, f.source, some node.span⟩ :: m.active)

namespace Follows

theorem signal (m : Machine) (f : Flow) : Follows node m (m.signal f) := .flow rfl rfl rfl

theorem give (m : Machine) (v : Value) : Follows node m (m.give v) := signal m _

theorem giveList (m : Machine) (results : List Value) : Follows node m (m.giveList results) :=
  .flow rfl rfl rfl

theorem refuse {fault : Fault} {span : Span} (hb : node.Blames fault span) (m : Machine)
    (vs : List Value) : Follows node m ((m.dropAll vs).fail fault span) :=
  .fault hb rfl rfl rfl

theorem enter {part : Node} {frame : Frame} (hf : frame.Serves node)
    (hp : part ∈ node.expr.children) (m : Machine) (scope : ScopeId) :
    Follows node m (m.enter frame part scope) :=
  .part hp hf rfl rfl rfl

/-- Values that are let go before do not matter. -/
theorem dropAll {vs : List Value} (h : Follows node (m.dropAll vs) m') : Follows node m m' := by
  have hheap := adds_dropAll (P := fun _ => False) m vs
  cases h with
  | flow hc hs ha => exact .flow hc hs ha
  | fault hb hc hs ha => exact .fault hb hc hs ha
  | part hp hf hc hs ha => exact .part hp hf hc hs ha
  | last hp hc hs ha => exact .last hp hc hs ha
  | call hn hf hc hs ha =>
    exact .call hn ((hheap.function _ _ hf).resolve_right And.right) hc hs ha

theorem choose {branches rest : List (Node × Node)} {otherwise : Option Node} {span : Span}
    (hr : rest ⊆ branches) (m : Machine) (scope : ScopeId) :
    Follows (.mk (.ifElse branches otherwise) span) m (m.choose rest otherwise scope) := by
  cases rest with
  | cons b rest =>
    refine enter (.condition hr) ?_ m scope
    exact List.mem_append_left _ (List.mem_flatMap.mpr ⟨b, hr (List.mem_cons_self ..), by simp⟩)
  | nil =>
    cases otherwise with
    | some node => exact .last (List.mem_append_right _ (by simp)) rfl rfl rfl
    | none => exact give m .nothing

theorem statements {body rest : List Node} {span : Span} (hr : rest ⊆ body) (m : Machine)
    (scope : ScopeId) : Follows (.mk (.block body) span) m (m.statements rest scope) := by
  cases rest with
  | nil => exact give m .nothing
  | cons n rest =>
    exact enter (.block (List.cons_subset.mp hr).2) (List.cons_subset.mp hr).1 m scope

/-! ### Loops -/

theorem finishLoop (m : Machine) (body : Node) (results : List Value) :
    Follows node m (m.finishLoop body results) := by
  unfold Machine.finishLoop
  split
  · exact give ..
  · exact giveList ..

theorem collect {body : Node} {results : List Value} {v : Value}
    (h : Follows node (m.collect body results v).2 m') : Follows node m m' := by
  unfold Machine.collect at h
  split at h
  · exact h.dropAll
  · exact h

section

variable {var : String} {start stop body : Node} {step : Option Node} {span : Span}
  {scope : ScopeId}

theorem turn (m : Machine) (pace : Pace) (results : List Value) :
    Follows (.mk (.forTo var start stop step body) span) m
      (m.turn ⟨var, start.span, stop, step, body, scope⟩ pace results) := by
  unfold Machine.turn
  dsimp only
  generalize (if pace.step.toFloat > 0.0 then decide (pace.counter.toFloat < pace.limit)
    else decide (pace.counter.toFloat > pace.limit)) = short
  cases short with
  | true => exact .part (by simp [Node.expr, Expr.children]) .forBody rfl rfl rfl
  | false => exact finishLoop ..

theorem refuseBound (m : Machine) (v : Value) {b : Node} (hb : b ∈ [start, stop] ++ step.toList)
    (held : List Value) : Follows (.mk (.forTo var start stop step body) span) m
      (m.refuseBound v b.span held) :=
  refuse (.bound hb v.kind) m held

/-- A step that is left out is a number. -/
theorem startFor (m : Machine) (first last : Value) {stride : Value}
    (hs : step = none → ∃ n, stride = .number n) :
    Follows (.mk (.forTo var start stop step body) span) m
      (m.startFor ⟨var, start.span, stop, step, body, scope⟩ first last stride) := by
  unfold Machine.startFor
  split
  · exact turn ..
  · rename_i hnumber
    cases step with
    | none =>
      obtain ⟨n, rfl⟩ := hs rfl
      exact (hnumber n rfl).elim
    | some step => exact refuseBound m _ (b := step) (by simp) _
  · exact refuseBound m _ (b := stop) (by simp) _
  · exact refuseBound m _ (b := start) (by simp) _

end

/-! ### Operators and calls -/

theorem applyBuiltin (m : Machine) (b : Builtin) (args : List Value) {span : Span}
    (hs : node.span = span) : Follows node m (m.applyBuiltin b args span) := by
  subst hs
  unfold Machine.applyBuiltin
  split
  · exact refuse (.whole node rfl) m args
  · dsimp only
    split
    · exact .flow rfl rfl rfl
    · exact .fault (.whole node (Builtin.apply_error ‹_›)) rfl rfl rfl

theorem apply {callee : Node} {items : List Node} {span : Span} (limit : Nat) (m : Machine)
    (f : Value) (args : List Value) :
    Follows (.mk (.call callee items) span) m (Machine.apply limit m f args span) := by
  have hrefuse {fault : Fault} (hf : fault.ofPart = false) (vs : List Value) :
      Follows (.mk (.call callee items) span) m ((m.dropAll vs).fail fault span) :=
    refuse (.whole (.mk (.call callee items) span) hf) m vs
  unfold Machine.apply
  split
  · exact applyBuiltin m _ args rfl
  · split
    · unfold Machine.applyFunction
      split
      · exact hrefuse rfl _
      · split
        · exact hrefuse rfl _
        · exact .call rfl ‹_› rfl rfl rfl
    · exact hrefuse rfl _
  · exact hrefuse rfl _

theorem applyBinary {op : BinaryOp} {left right : Node} {span : Span} (m : Machine) (a b : Value) :
    Follows (.mk (.binary op left right) span) m (m.applyBinary op a b right.span span) := by
  unfold Machine.applyBinary
  split
  · obtain ⟨hd, hf⟩ := Operator.divisorFault?_eq ‹_›
    exact refuse (.divisor hd hf) m _
  · split
    · exact refuse (.whole (.mk (.binary op left right) span) (Operator.binary_error ‹_›)) m _
    · exact .flow rfl rfl rfl

theorem applyUnary {op : UnaryOp} {x : Node} {span : Span} (m : Machine) (v : Value) :
    Follows (.mk (.unary op x) span) m (m.applyUnary op v span) := by
  unfold Machine.applyUnary
  split
  · exact refuse (.whole (.mk (.unary op x) span) (Operator.unary_error ‹_›)) m _
  · exact (give ..).dropAll

theorem applyIndex {target place : Node} {span : Span} (m : Machine) (v w : Value) :
    Follows (.mk (.index target place) span) m (m.applyIndex v w span) := by
  unfold Machine.applyIndex
  split
  · exact refuse (.whole (.mk (.index target place) span) (Operator.index_error ‹_›)) m _
  · exact .flow rfl rfl rfl

end Follows

/-! ## Steps -/

theorem begin_follows (m : Machine) (node : Node) (scope : ScopeId) :
    Follows node m (m.begin node scope) := by
  obtain ⟨expr, span⟩ := node
  cases expr with
  | int n => exact .give ..
  | float x => exact .give ..
  | text t => exact .give ..
  | list items =>
    cases items with
    | nil => exact .giveList m []
    | cons item rest =>
      exact .enter (.listItem (List.subset_cons_self ..)) (List.mem_cons_self ..) m scope
  | var name =>
    simp only [begin]
    split
    · exact .flow rfl rfl rfl
    · exact .fault (.whole (.mk (.var name) span) rfl) rfl rfl rfl
  | assign name value declare => exact .enter .assign (List.mem_cons_self ..) m scope
  | binary op left right => exact .enter .leftOperand (List.mem_cons_self ..) m scope
  | unary op x => exact .enter .operand (List.mem_cons_self ..) m scope
  | ifElse branches otherwise => exact .choose (List.Subset.refl _) m scope
  | forTo var start stop step body =>
    exact .enter .forStart (by simp [Node.expr, Expr.children]) m scope
  | whileDo test body => exact .enter .whileTest (List.mem_cons_self ..) m scope
  | function name params body => exact .flow rfl rfl rfl
  | call callee args => exact .enter .callee (List.mem_cons_self ..) m scope
  | index target place => exact .enter .indexTarget (List.mem_cons_self ..) m scope
  | «return» value =>
    cases value with
    | none => exact .signal ..
    | some value => exact .enter .returned (List.mem_cons_self ..) m scope
  | «continue» => exact .signal ..
  | «break» => exact .signal ..
  | block body => exact .statements (List.Subset.refl _) m scope

theorem resumeValue_follows {frame : Frame} (h : frame.Serves node) (limit : Nat) (m : Machine)
    (v : Value) : Follows node m (resumeValue limit m frame v) := by
  cases h with
  | @listItem done items rest scope span hr =>
    cases rest with
    | nil => exact .giveList ..
    | cons item rest =>
      exact .enter (.listItem (List.cons_subset.mp hr).2) (List.cons_subset.mp hr).1 m scope
  | assign => exact .flow rfl rfl rfl
  | @leftOperand op left right scope span =>
    have hp : right ∈ (Node.mk (.binary op left right) span).expr.children := by
      simp [Node.expr, Expr.children]
    cases op with
    | and | or =>
      simp only [resumeValue]
      split <;> first | exact .enter .holding hp m scope | exact .give m v
    | _ => exact .enter .rightOperand hp m scope
  | rightOperand => exact .applyBinary ..
  | operand => exact .applyUnary ..
  | @condition test body branches rest otherwise scope span hr =>
    simp only [resumeValue]
    split
    · refine .enter .holding ?_ m scope
      exact List.mem_append_left _
        (List.mem_flatMap.mpr ⟨(test, body), hr (List.mem_cons_self ..), by simp⟩)
    · exact Follows.dropAll (.choose (List.cons_subset.mp hr).2 _ scope)
  | holding => exact Follows.dropAll (.give ..)
  | @whileTest test body scope results span =>
    simp only [resumeValue]
    split
    · exact .enter .whileBody (by simp [Node.expr, Expr.children]) m scope
    · exact Follows.dropAll (.finishLoop ..)
  | @whileBody test body scope results w span =>
    exact Follows.collect (Follows.dropAll
      (.enter .whileTest (by simp [Node.expr, Expr.children]) _ scope))
  | @forStart var start stop body step scope span =>
    exact .enter .forStop (by simp [Node.expr, Expr.children]) m scope
  | @forStop var start stop body step scope w span =>
    cases step with
    | none => exact .startFor m w v fun _ => ⟨_, rfl⟩
    | some step => exact .enter .forStep (by simp [Node.expr, Expr.children]) m scope
  | forStep => exact .startFor m _ _ fun hnone => absurd hnone (Option.some_ne_none _)
  | forBody => exact Follows.collect (.turn ..)
  | @callee callee args scope span =>
    cases args with
    | nil => exact .apply ..
    | cons arg rest =>
      exact .enter (.argument (List.subset_cons_self ..)) (by simp [Node.expr, Expr.children])
        m scope
  | @argument callee args rest f done scope span hr =>
    cases rest with
    | nil => exact .apply ..
    | cons arg rest =>
      exact .enter (.argument (List.cons_subset.mp hr).2)
        (List.mem_cons_of_mem _ (List.cons_subset.mp hr).1) m scope
  | @indexTarget target place scope span =>
    exact .enter .indexPlace (by simp [Node.expr, Expr.children]) m scope
  | indexPlace => exact .applyIndex ..
  | returned => exact .signal ..
  | @block body rest scope span hr => exact Follows.dropAll (.statements hr _ scope)

theorem resume_follows {frame : Frame} (h : frame.Serves node) (settings : Settings) (m : Machine)
    (f : Flow) : Follows node m (resume settings m frame f) := by
  have hc := h.call?_eq
  unfold resume
  split
  · simp [Frame.call?] at hc
  · exact resumeValue_follows h ..
  · rename_i loop results test
    cases h
    exact Follows.dropAll (.enter .whileTest (by simp [Node.expr, Expr.children]) _ _)
  · exact Follows.dropAll (.give ..)
  · cases h
    exact .turn ..
  · exact Follows.dropAll (.give ..)
  · exact Follows.dropAll (.give ..)
  · exact Follows.dropAll (.signal ..)

end Machine

end Scriptlet

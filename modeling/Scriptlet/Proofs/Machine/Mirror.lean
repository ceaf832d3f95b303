import Scriptlet.Proofs.Machine.Steps
import Scriptlet.Proofs.Store.Alike

/-!
# A run beside one that gives no scope back

Two machines mirror each other when they are to do the same, in scopes of the
same numbers, and their stores are alike. Each part of a step keeps it so if
both machines are ready for it.
-/

set_option autoImplicit false

namespace Scriptlet

/-! ## The same in a store that gives no scope back -/

def WhileLoop.kept (loop : WhileLoop) : WhileLoop := { loop with scope := loop.scope.kept }

def ForLoop.kept (loop : ForLoop) : ForLoop := { loop with scope := loop.scope.kept }

def Control.kept : Control → Control
  | .eval node scope => .eval node scope.kept
  | c => c

def Frame.kept : Frame → Frame
  | .listItem done rest scope => .listItem done rest scope.kept
  | .assign name declare scope => .assign name declare scope.kept
  | .leftOperand op right scope span => .leftOperand op right scope.kept span
  | .condition body rest otherwise scope => .condition body rest otherwise scope.kept
  | .whileTest loop results => .whileTest loop.kept results
  | .whileBody loop results test => .whileBody loop.kept results test
  | .forStart loop => .forStart loop.kept
  | .forStop loop start => .forStop loop.kept start
  | .forStep loop start stop => .forStep loop.kept start stop
  | .forBody loop pace results => .forBody loop.kept pace results
  | .callee args scope span => .callee args scope.kept span
  | .argument f done rest scope span => .argument f done rest scope.kept span
  | .call f scope => .call f scope.kept
  | .indexTarget place scope span => .indexTarget place scope.kept span
  | .block rest scope => .block rest scope.kept
  | frame => frame

@[simp] theorem Control.held_kept (c : Control) : c.kept.held = c.held := by
  cases c <;> rfl

@[simp] theorem Frame.held_kept (frame : Frame) : frame.kept.held = frame.held := by
  cases frame <;> rfl

@[simp] theorem Frame.call?_kept (frame : Frame) :
    frame.kept.call? = frame.call?.map fun c => (c.1, c.2.kept) := by
  cases frame <;> rfl

namespace Machine

structure Mirrors (m m' : Machine) : Prop where
  store : m.store.Alike m'.store
  control : m'.control = m.control.kept
  stack : m'.stack = m.stack.map Frame.kept
  active : m'.active = m.active
  depth : m'.depth = m.depth
  printed : m'.printed = m.printed

/-- Two machines with the same in hand, of which the second gives no scope back. Its host may hold
more. -/
structure Twins (host host' vs : List Value) (m m' : Machine) : Prop where
  ready : m.Ready true host vs
  ready' : m'.Ready false host' vs
  mirrors : Mirrors m m'
  more : Value.refs host ⊆ Value.refs host'

variable {host host' vs ws : List Value} {m m' : Machine}

namespace Mirrors

theorem outcome? (hm : Mirrors m m') : m'.outcome? = m.outcome? := by
  obtain ⟨-, hcontrol, hstack, -, -, -⟩ := hm
  obtain ⟨c, stack, s, active, depth, out⟩ := m
  obtain ⟨c', stack', s', active', depth', out'⟩ := m'
  subst hcontrol hstack
  cases c <;> cases stack <;> rfl

theorem source (hm : Mirrors m m') : m'.source = m.source := by
  rw [Machine.source, Machine.source, hm.active]

/-! ## Steps that leave the store as it is -/

theorem signal (hm : Mirrors m m') (f : Flow) : Mirrors (m.signal f) (m'.signal f) :=
  ⟨hm.store, rfl, hm.stack, hm.active, hm.depth, hm.printed⟩

theorem give (hm : Mirrors m m') (v : Value) : Mirrors (m.give v) (m'.give v) :=
  hm.signal (.value v)

theorem fail (hm : Mirrors m m') (fault : Fault) (span : Span) :
    Mirrors (m.fail fault span) (m'.fail fault span) := by
  have hd : m'.diagnostic fault span = m.diagnostic fault span := by
    rw [diagnostic, diagnostic, hm.source, hm.active]
  exact ⟨hm.store, congrArg Control.failed hd, hm.stack, hm.active, hm.depth, hm.printed⟩

theorem eval (hm : Mirrors m m') (node : Node) (scope : ScopeId) :
    Mirrors { m with control := .eval node scope } { m' with control := .eval node scope.kept } :=
  ⟨hm.store, rfl, hm.stack, hm.active, hm.depth, hm.printed⟩

theorem enter (hm : Mirrors m m') (frame : Frame) (node : Node) (scope : ScopeId) :
    Mirrors (m.enter frame node scope) (m'.enter frame.kept node scope.kept) :=
  ⟨hm.store, rfl, congrArg (frame.kept :: ·) hm.stack, hm.active, hm.depth, hm.printed⟩

theorem choose (hm : Mirrors m m') (branches : List (Node × Node)) (otherwise : Option Node)
    (scope : ScopeId) :
    Mirrors (m.choose branches otherwise scope) (m'.choose branches otherwise scope.kept) := by
  cases branches with
  | cons b rest => exact hm.enter (.condition b.2 rest otherwise scope) b.1 scope
  | nil =>
    cases otherwise with
    | some node => exact hm.eval node scope
    | none => exact hm.give .nothing

theorem statements (hm : Mirrors m m') (nodes : List Node) (scope : ScopeId) :
    Mirrors (m.statements nodes scope) (m'.statements nodes scope.kept) := by
  cases nodes with
  | nil => exact hm.give .nothing
  | cons node rest => exact hm.enter (.block rest scope) node scope

/-- Other stores that are alike. -/
theorem giveList (hm : Mirrors m m') (results : List Value) :
    Mirrors (m.giveList results) (m'.giveList results) := by
  have hv := hm.store.heap.newList_value results.toArray.reverse
  have hcontrol : Control.flow (.value (m'.store.newList results.toArray.reverse).1) =
      .flow (.value (m.store.newList results.toArray.reverse).1) :=
    congrArg (fun v => Control.flow (.value v)) hv
  exact ⟨hm.store.newList _, hcontrol, hm.stack, hm.active, hm.depth, hm.printed⟩

theorem finishLoop (hm : Mirrors m m') (body : Node) (results : List Value) :
    Mirrors (m.finishLoop body results) (m'.finishLoop body results) := by
  unfold Machine.finishLoop
  split
  · exact hm.give .nothing
  · exact hm.giveList results

theorem held (hm : Mirrors m m') : m'.stack.flatMap Frame.held = m.stack.flatMap Frame.held := by
  rw [hm.stack, List.flatMap_map]
  simp

end Mirrors

namespace Twins

theorem perm (h : Twins host host' vs m m') (hp : vs.Perm ws) : Twins host host' ws m m' :=
  ⟨h.ready.perm hp, h.ready'.perm hp, h.mirrors, h.more⟩

theorem plain (h : Twins host host' vs m m') {v : Value} (hv : v.ref? = none) :
    Twins host host' (v :: vs) m m' :=
  ⟨h.ready.plain hv, h.ready'.plain hv, h.mirrors, h.more⟩

theorem sound' (h : Twins host host' vs m m') :
    m'.store.Sound (Value.refs (vs ++ (m.stack.flatMap Frame.held ++ host'))) :=
  h.mirrors.held ▸ h.ready'.sound

theorem more_below (h : Twins host host' vs m m') (ws : List Value) :
    Value.refs (ws ++ host) ⊆ Value.refs (ws ++ host') := by
  rw [Value.refs_append, Value.refs_append]
  exact Store.append_subset_append _ h.more

theorem more_held (h : Twins host host' vs m m') (ws : List Value) :
    Value.refs (ws ++ (m.stack.flatMap Frame.held ++ host)) ⊆
      Value.refs (ws ++ (m.stack.flatMap Frame.held ++ host')) := by
  simpa only [List.append_assoc] using h.more_below (ws ++ m.stack.flatMap Frame.held)

theorem there (h : Twins host host' vs m m') {v : Value} (hv : v ∈ vs) : There m.store.heap v := by
  intro r hr
  exact h.ready.live r (Value.mem_refs.mpr ⟨v, hv, hr⟩)

theorem isTruthy (h : Twins host host' vs m m') {v : Value} (hv : v ∈ vs) :
    v.isTruthy m'.store.heap = v.isTruthy m.store.heap :=
  h.mirrors.store.heap.isTruthy (h.there hv)

theorem dropAll (vs : List Value) (h : Twins host host' (vs ++ ws) m m') :
    Twins host host' ws (m.dropAll vs) (m'.dropAll vs) := by
  have hs : m.store.Sound (Value.refs vs ++
      Value.refs (ws ++ (m.stack.flatMap Frame.held ++ host))) := by
    simpa using h.ready.sound
  have hs' : m'.store.Sound (Value.refs vs ++
      Value.refs (ws ++ (m.stack.flatMap Frame.held ++ host'))) := by
    simpa using h.sound'
  have hm := h.mirrors
  have halike := hm.store.dropAll hs hs' (h.more_held ws)
  exact ⟨h.ready.dropAll vs, h.ready'.dropAll vs,
    ⟨halike, hm.control, hm.stack, hm.active, hm.depth, hm.printed⟩, h.more⟩

theorem refuse (h : Twins host host' vs m m') (fault : Fault) (span : Span) :
    Mirrors ((m.dropAll vs).fail fault span) ((m'.dropAll vs).fail fault span) := by
  have hall : Twins host host' (vs ++ []) m m' := h.perm (by simp)
  exact hall.dropAll.mirrors.fail fault span

theorem collect {v : Value} (h : Twins host host' (v :: (vs ++ ws)) m m') (body : Node) :
    (m'.collect body vs v).1 = (m.collect body vs v).1 ∧
      Twins host host' ((m.collect body vs v).1 ++ ws) (m.collect body vs v).2
        (m'.collect body vs v).2 := by
  unfold Machine.collect
  split
  · exact ⟨rfl, dropAll [v] h⟩
  · exact ⟨rfl, h⟩

theorem define {v : Value} (h : Twins host host' (v :: vs) m m') {scope : ScopeId}
    (hs : m.store.Standing scope) (name : String) :
    Twins host host' vs (m.define scope name v) (m'.define scope.kept name v) := by
  have hsound : m.store.Sound (v.ref?.toList ++
      Value.refs (vs ++ (m.stack.flatMap Frame.held ++ host))) := by
    simpa using h.ready.sound
  have hsound' : m'.store.Sound (v.ref?.toList ++
      Value.refs (vs ++ (m.stack.flatMap Frame.held ++ host'))) := by
    simpa using h.sound'
  obtain ⟨hd, hh⟩ := hs.holds
  have hm := h.mirrors
  have halike : (m.store.define scope name v).Alike (m'.store.define scope.kept name v) :=
    hm.store.define hh hsound hsound' (h.more_held vs)
  exact ⟨h.ready.define scope name, h.ready'.define scope.kept name,
    ⟨halike, hm.control, hm.stack, hm.active, hm.depth, hm.printed⟩, h.more⟩

/-! ## Counting loops -/

theorem turn (h : Twins host host' vs m m') (loop : ForLoop) (pace : Pace)
    (hs : m.store.Standing loop.scope) :
    Mirrors (m.turn loop pace vs) (m'.turn loop.kept pace vs) := by
  unfold Machine.turn
  dsimp only
  generalize (if pace.step.toFloat > 0.0 then decide (pace.counter.toFloat < pace.limit)
    else decide (pace.counter.toFloat > pace.limit)) = short
  cases short with
  | true =>
    have hin : Twins host host' (.number pace.counter :: vs) m m' := h.plain rfl
    exact (hin.define hs loop.var).mirrors.enter (.forBody loop pace vs) loop.body loop.scope
  | false => exact h.mirrors.finishLoop loop.body vs

theorem startFor {start stop step : Value} (h : Twins host host' [start, stop, step] m m')
    (loop : ForLoop) (hs : m.store.Standing loop.scope) :
    Mirrors (m.startFor loop start stop step) (m'.startFor loop.kept start stop step) := by
  unfold Machine.startFor
  split
  · rename_i a b c
    have hnone : Twins host host' [] m m' := dropAll [.number a, .number b, .number c] h
    exact hnone.turn loop _ hs
  · exact h.refuse _ _
  · exact h.refuse _ _
  · exact h.refuse _ _

/-! ## Calls -/

theorem bindAll_alike {scope : ScopeId} {hd : Head} {s s' : Store} {outer outer' : List Ref}
    {params : List String} {args : List Value} (ha : s.Alike s') (hh : s.Holds scope hd)
    (hl : params.length = args.length) (hs : s.Sound (Value.refs args ++ outer))
    (hs' : s'.Sound (Value.refs args ++ outer')) (ho : outer ⊆ outer') :
    (bindAll scope params args s).Alike (bindAll scope.kept params args s') := by
  induction params generalizing s s' args hd with
  | nil =>
    obtain rfl : args = [] := List.length_eq_zero_iff.mp hl.symm
    exact ha
  | cons p params ih =>
    cases args with
    | nil => simp at hl
    | cons v args =>
      have hone : s.Sound (v.ref?.toList ++ (Value.refs args ++ outer)) := by simpa using hs
      have hone' : s'.Sound (v.ref?.toList ++ (Value.refs args ++ outer')) := by simpa using hs'
      obtain ⟨hd', hh', -⟩ := hone.define_steady.keeps.holds _ _ hh
      exact ih (ha.define hh hone hone' (Store.append_subset_append _ ho)) hh' (by simpa using hl)
        hone.define hone'.define

theorem enterCall {f : Function} {id : FunctionId} {args : List Value} {p : PinId}
    (h : Twins host host' (.function id :: args) m m') (hf : m.store.heap.function? id = some f)
    (hf' : m'.store.heap.function? id = some (f.moved p)) (hl : f.params.length = args.length)
    (span : Span) :
    Mirrors (m.enterCall f (.function id) args span)
      (m'.enterCall (f.moved p) (.function id) args span) := by
  have hm := h.mirrors
  obtain ⟨hid, hchild⟩ := hm.store.child h.ready.sound.regular f.scope
  have hs := h.ready.child_sound hf
  have hs' := h.ready'.child_sound hf'
  rw [hm.held] at hs'
  have hbound := bindAll_alike hchild (h.ready.sound.child_holds f.scope) hl hs hs'
    (h.more_held [.function id])
  have hcontrol : Control.eval f.body (m'.store.child f.scope.kept).1 =
      .eval f.body (m.store.child f.scope).1.kept := by rw [hid]
  have hframe : Frame.call (.function id) (m'.store.child f.scope.kept).1 =
      .call (.function id) (m.store.child f.scope).1.kept := by rw [hid]
  rw [← hid] at hbound
  refine ⟨hbound, hcontrol, ?_, ?_, ?_, hm.printed⟩
  · exact congrArg₂ List.cons hframe hm.stack
  · exact congrArg (⟨f.displayName, f.source, some span⟩ :: ·) hm.active
  · exact congrArg (· + 1) hm.depth

theorem applyFunction {f : Function} {id : FunctionId} {args : List Value} {p : PinId}
    (h : Twins host host' (.function id :: args) m m') (hf : m.store.heap.function? id = some f)
    (hf' : m'.store.heap.function? id = some (f.moved p)) (limit : Nat) (span : Span) :
    Mirrors (Machine.applyFunction limit m f (.function id) args span)
      (Machine.applyFunction limit m' (f.moved p) (.function id) args span) := by
  unfold Machine.applyFunction
  rw [h.mirrors.depth]
  by_cases hl : f.params.length = args.length
  · have hl' : (f.moved p).params.length = args.length := hl
    rw [if_neg (not_not.mpr hl), if_neg (not_not.mpr hl')]
    split
    · exact h.refuse _ _
    · exact h.enterCall hf hf' hl span
  · have hl' : (f.moved p).params.length ≠ args.length := hl
    rw [if_pos hl, if_pos hl']
    exact h.refuse _ _

theorem applyBuiltin {b : Builtin} {args : List Value} (h : Twins host host' args m m')
    (span : Span) :
    Mirrors (m.applyBuiltin b args span) (m'.applyBuiltin b args span) := by
  have hm := h.mirrors
  unfold Machine.applyBuiltin
  split
  · exact h.refuse _ _
  · obtain ⟨hres, hout, hheap⟩ :=
      hm.store.heap.apply h.ready.sound.balanced b fun v hv => h.there hv
    have hs := (h.ready.sound.builtin b h.ready.live).1
    have hs' := (h.sound'.builtin b h.ready'.live).1
    have hrefs : Store.resultRefs (b.apply m'.store.heap args) =
        Store.resultRefs (b.apply m.store.heap args) := by
      rw [Store.resultRefs, Store.resultRefs, hres]
    rw [hrefs] at hs'
    have hdrop := (hm.store.of_heap hheap).dropOperands hs hs' (h.more_below _)
    dsimp only
    rw [hres]
    cases (b.apply m.store.heap args).result with
    | ok v => exact ⟨hdrop, rfl, hm.stack, hm.active, hm.depth, congrArg₂ (· ++ ·) hm.printed hout⟩
    | error fault =>
      have hafter : Mirrors
          ⟨m.control, m.stack, Store.dropAll
            { m.store with heap := (b.apply m.store.heap args).heap } args, m.active, m.depth,
            m.printed ++ (b.apply m.store.heap args).printed⟩
          ⟨m'.control, m'.stack, Store.dropAll
            { m'.store with heap := (b.apply m'.store.heap args).heap } args, m'.active, m'.depth,
            m'.printed ++ (b.apply m'.store.heap args).printed⟩ :=
        ⟨hdrop, hm.control, hm.stack, hm.active, hm.depth, congrArg₂ (· ++ ·) hm.printed hout⟩
      exact hafter.fail fault span

theorem apply {callee : Value} {args : List Value} (h : Twins host host' (callee :: args) m m')
    (limit : Nat) (span : Span) :
    Mirrors (Machine.apply limit m callee args span) (Machine.apply limit m' callee args span) := by
  cases callee with
  | builtin b =>
    have hargs : Twins host host' args m m' := dropAll [.builtin b] h
    exact hargs.applyBuiltin span
  | function id =>
    obtain ⟨f, hf⟩ := Option.isSome_iff_exists.mp
      (h.ready.live (.function id) (by simp [Value.ref?]))
    obtain ⟨p, hf'⟩ := h.mirrors.store.heap.function id f hf
    have hf : m.store.heap.function? id = some f := hf
    simp only [Machine.apply, hf, hf']
    exact h.applyFunction hf hf' limit span
  | _ => exact h.refuse _ _

/-! ## Operators -/

theorem applyBinary {a b : Value} (h : Twins host host' [a, b] m m') (op : BinaryOp)
    (rightSpan span : Span) :
    Mirrors (m.applyBinary op a b rightSpan span) (m'.applyBinary op a b rightSpan span) := by
  have hm := h.mirrors
  have heq := hm.store.heap.binary h.ready.sound.balanced op (h.there (v := a) (by simp))
    (h.there (v := b) (by simp))
  unfold Machine.applyBinary
  rw [heq]
  split
  · exact h.refuse _ _
  · split
    · exact h.refuse _ _
    · rename_i c hc
      have hthere : ∀ v ∈ c.values, There m.store.heap v := fun v hv =>
        h.ready.sound.live_known h.ready.live (Operator.binary_known hc v hv)
      have hlive : ∀ r ∈ Value.refs c.values, m.store.heap.Live r := by
        intro r hr
        obtain ⟨v, hv, hvr⟩ := Value.mem_refs.mp hr
        exact hthere v hv r hvr
      have hlive' : ∀ r ∈ Value.refs c.values, m'.store.heap.Live r := by
        intro r hr
        obtain ⟨v, hv, hvr⟩ := Value.mem_refs.mp hr
        exact hm.store.heap.there (hthere v hv) r hvr
      obtain ⟨hv, hheap⟩ := hm.store.heap.make c
      have hs := (h.ready.sound.make hlive).1
      have hs' := (h.sound'.make hlive').1
      rw [hv] at hs'
      have hdrop := (hm.store.of_heap hheap).dropOperands hs hs' (h.more_below _)
      have hcontrol : Control.flow (.value (m'.store.heap.make c).1) =
          .flow (.value (m.store.heap.make c).1) := by rw [hv]
      exact ⟨hdrop, hcontrol, hm.stack, hm.active, hm.depth, hm.printed⟩

theorem applyUnary {v : Value} (h : Twins host host' [v] m m') (op : UnaryOp) (span : Span) :
    Mirrors (m.applyUnary op v span) (m'.applyUnary op v span) := by
  unfold Machine.applyUnary
  rw [h.mirrors.store.heap.unary op (h.there (by simp))]
  split
  · exact h.refuse _ _
  · rename_i w _
    exact (dropAll [v] h).mirrors.give w

theorem applyIndex {target place : Value} (h : Twins host host' [target, place] m m')
    (span : Span) :
    Mirrors (m.applyIndex target place span) (m'.applyIndex target place span) := by
  have hm := h.mirrors
  unfold Machine.applyIndex
  rw [hm.store.heap.index (h.there (by simp))]
  split
  · exact h.refuse _ _
  · rename_i v hv
    have hlive := h.ready.sound.live_known h.ready.live (Operator.index_known hv)
    have hlive' : There m'.store.heap v := hm.store.heap.there hlive
    have hdrop := (hm.store.keep v).dropOperands (h.ready.sound.keep hlive) (h.sound'.keep hlive')
      (h.more_below _)
    exact ⟨hdrop, rfl, hm.stack, hm.active, hm.depth, hm.printed⟩

end Twins

end Machine

end Scriptlet

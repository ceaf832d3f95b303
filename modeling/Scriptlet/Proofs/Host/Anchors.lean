import Scriptlet.Proofs.Host.Reached

/-!
# The scopes of functions stay

Whatever a session runs, and however its runs end, the scope of every function
that exists anywhere is in its slot, with all scopes around it, and so is the
scope of every active call. A scope is told by its number, which no two scopes
share, so a slot that was given to another scope would not do.
-/

set_option autoImplicit false

namespace Scriptlet

namespace Store

variable {s : Store} {outer : List Ref}

/-- A value that is held, bound in a scope, or an item of a list. -/
def Somewhere (s : Store) (held : List Value) (v : Value) : Prop :=
  v ∈ held ∨ (∃ slot sc, s.scopeAt? slot = some sc ∧ v ∈ Bindings.values sc.bindings) ∨
    ∃ id xs, s.heap.list? id = some xs ∧ v ∈ xs.toList

/-- A scope that is there with all scopes around it, each in a slot of its own, out to the global
one. -/
def Anchored (s : Store) (id : ScopeId) : Prop :=
  ∃ chain, s.Chain id chain ∧ (chain.map ScopeId.slot).Nodup ∧ chain.getLast? = some global

theorem Chain.ends {id : ScopeId} {chain : List ScopeId} (h : s.Chain id chain) :
    chain.getLast? = some Store.global := by
  induction h with
  | global _ _ => rfl
  | @inside id parent hd above _ _ rest ih =>
    cases above with
    | nil => cases rest
    | cons p above => rw [List.getLast?_cons_cons, ih]

theorem Regular.anchored (hr : s.Regular) {id : ScopeId} (h : s.Standing id) : s.Anchored id :=
  h.imp fun _ hc => ⟨hc, hr.chain_nodup hc, hc.ends⟩

theorem Sound.live_somewhere {held : List Value} (hs : s.Sound (Value.refs held)) {v : Value}
    (hv : s.Somewhere held v) : ∀ r ∈ v.ref?, s.heap.Live r := by
  intro r hr
  rcases hv with hv | ⟨slot, sc, hsc, hv⟩ | ⟨id, xs, hx, hv⟩
  · exact hs.live_outer (Value.mem_refs.mpr ⟨v, hv, hr⟩)
  · exact hs.live_bound hsc hv hr
  · have hitem : v ∈ (s.heap.items id).toList := by simpa [Heap.items, hx] using hv
    exact hs.live_item hitem hr

/-- A function that exists is there, in its scope. -/
theorem Sound.function_anchored {held : List Value} (hs : s.Sound (Value.refs held))
    {f : FunctionId} (hf : s.Somewhere held (.function f)) :
    ∃ fn, s.heap.function? f = some fn ∧ s.Anchored fn.scope := by
  obtain ⟨fn, hfn⟩ := Option.isSome_iff_exists.mp
    (hs.live_somewhere hf (.function f) (by simp [Value.ref?]))
  exact ⟨fn, hfn, hs.regular.anchored (hs.regular.function_standing hfn)⟩

theorem Sound.newFunction_scope {id : ScopeId} (hs : s.Sound outer) (hid : s.Standing id)
    (name : Option String) (params : List String) (body : Node) (source : Source) :
    ∃ fn, (s.newFunction id name params body source).2.heap.function? s.heap.functions.size =
      some fn ∧ fn.scope = id := by
  obtain ⟨chain, hc⟩ := hid
  have hsize := (hs.capture hc).same.functions
  rw [newFunction_function?, hsize, if_pos rfl]
  exact ⟨_, rfl, rfl⟩

/-- A function is defined in the scope that its definition is evaluated in. -/
theorem Sound.defineFunction_scope {id : ScopeId} (hs : s.Sound outer) (hid : s.Standing id)
    (name : Option String) (params : List String) (body : Node) (source : Source) :
    ∃ fn, (s.defineFunction id name params body source).2.heap.function? s.heap.functions.size =
      some fn ∧ fn.scope = id := by
  obtain ⟨fn, hfn, hscope⟩ := hs.newFunction_scope hid name params body source
  cases name with
  | none => exact ⟨fn, hfn, hscope⟩
  | some name =>
    have hmade := hs.newFunction hid (some name) params body source
    have hkeep := hmade.sound.keep (v := .function s.heap.functions.size) fun r hr =>
      hmade.sound.live_outer (by simp [Option.mem_some_iff.mp hr])
    have hst : (s.newFunction id (some name) params body source).2.Steady
        (s.defineFunction id (some name) params body source).2 := by
      simp only [Store.defineFunction, hmade.value]
      exact (keep_steady _ _).trans hkeep.define_steady
    have hdone := (hs.defineFunction hid (some name) params body source).sound
    obtain ⟨fn', hfn'⟩ := Option.isSome_iff_exists.mp
      (hdone.live_outer (r := .function s.heap.functions.size) (by simp))
    have := hst.function _ fn' hfn' (Table.lt_size hfn)
    obtain rfl := Option.some.inj (this.symm.trans hfn)
    exact ⟨fn', hfn', hscope⟩

end Store

namespace Machine

variable {reclaim : Bool} {host : List Value} {m : Machine}

theorem Sound.step_function (h : m.Sound reclaim host) (settings : Settings)
    {name : Option String} {params : List Param} {body : Node} {span : Span} {scope : ScopeId}
    (hm : m.control = .eval (.mk (.function name params body) span) scope) :
    ∃ f fn, (Machine.step settings m).control = .flow (.value (.function f)) ∧
      (Machine.step settings m).store.heap.function? f = some fn ∧ fn.scope = scope := by
  obtain ⟨control, stack, store, active, depth, out⟩ := m
  obtain rfl : control = _ := hm
  have hs : scope = here stack := h.inPlace _ _ rfl
  have hstanding : store.Standing scope := hs ▸ h.ready.standing_here
  have hmade := h.ready.sound.defineFunction hstanding name (params.map Param.name) body
    (Machine.source ⟨.flow .continue, stack, store, active, depth, out⟩)
  obtain ⟨fn, hfn, hscope⟩ := h.ready.sound.defineFunction_scope hstanding name
    (params.map Param.name) body
    (Machine.source ⟨.flow .continue, stack, store, active, depth, out⟩)
  exact ⟨store.heap.functions.size, fn, congrArg (fun v => Control.flow (.value v)) hmade.value,
    hfn, hscope⟩

end Machine

namespace Host

variable {settings : Settings} {h : Host} {m : Machine}

/-- Reclamation never takes a scope that a function or an active call lies in. -/
theorem functions_anchored (hm : h.Passes settings m) :
    (∀ f, m.store.Somewhere (m.held ++ h.held) (.function f) →
      ∃ fn, m.store.heap.function? f = some fn ∧ m.store.Anchored fn.scope) ∧
    (∀ c ∈ Machine.calls m.stack, m.store.Anchored c.2) ∧
    (∀ node scope, m.control = .eval node scope → m.store.Anchored scope) ∧
    (∀ name params body span scope,
      m.control = .eval (.mk (.function name params body) span) scope →
      ∃ f fn, (Machine.step settings m).control = .flow (.value (.function f)) ∧
        (Machine.step settings m).store.heap.function? f = some fn ∧ fn.scope = scope) ∧
    (∀ i j a b, m.store.scopeAt? i = some a → m.store.scopeAt? j = some b →
      a.serial = b.serial → i = j) ∧
    (∀ f, h.session.store.Somewhere h.held (.function f) →
      ∃ fn, h.session.store.heap.function? f = some fn ∧ h.session.store.Anchored fn.scope) := by
  have hs := hm.sound
  have hr := hs.ready.sound.regular
  have hheld : m.store.Sound (Value.refs (m.held ++ h.held)) :=
    hs.ready.sound.congr fun r => by simp [Machine.held]
  refine ⟨fun f hf => hheld.function_anchored hf, fun c hc => ?_, fun node scope hc => ?_,
    fun name params body span scope hc => hs.step_function settings hc, fun i j a b ha hb he => ?_,
    fun f hf => hm.1.settled.idle.sound.function_anchored hf⟩
  · obtain ⟨f, fn, hd, -, hf, hh, hp⟩ := hs.ready.called c hc
    obtain ⟨above, hchain⟩ := hr.function_standing hf
    exact hr.anchored ⟨_, .inside hh hp hchain⟩
  · exact hs.inPlace node scope hc ▸ hr.anchored hs.ready.standing_here
  · exact hr.serial_inj i j _ _ (Store.head?_of_scopeAt? ha) (Store.head?_of_scopeAt? hb) he

/-- A call that makes a function and returns it. -/
def nested : Program :=
  let at0 : Expr → Node := fun e => .mk e default
  ⟨[at0 (.call (at0 (.function none [] (at0 (.function none [] (at0 (.int 1)))))) [])], default⟩

/-- The call has ended and its scope is detached; the function in flight still lies in it. -/
theorem functions_anchored_nested : ∃ m, (Host.start false ⟨1000, true⟩).Passes ⟨1000, true⟩ m ∧
    m.store.detached = #[⟨1, 1⟩] ∧
    ∃ fn, m.store.heap.function? 1 = some fn ∧ m.store.Anchored fn.scope := by
  have hm : (Host.start false ⟨1000, true⟩).Passes ⟨1000, true⟩ (Machine.steps ⟨1000, true⟩ 6
      (.ofProgram .bare default nested)) :=
    ⟨.start false, .execute default nested, _, 6, rfl, rfl⟩
  exact ⟨_, hm, rfl, (functions_anchored hm).1 1 (.inl (.head _))⟩

end Host

end Scriptlet

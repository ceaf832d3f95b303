import Scriptlet.Proofs.Machine.Evaluation
import Scriptlet.Proofs.Store.Growing
import Scriptlet.Proofs.Value.Indices

/-!
# Reaching for items

A list gives its items by index in four ways. Each evaluates its parts one
after the other, above the frame that waits for the next, and then does its
work in one step, from the state in which the last part has ended.
-/

set_option autoImplicit false

namespace Scriptlet

namespace Machine

variable {settings : Settings} {m e e' : Machine} {below : List Frame} {done vs : List Value}
  {args : List Node} {callee target place : Node} {scope : ScopeId} {span : Span} {f a b v : Value}

/-! ## The parts of a node, one after the other -/

/-- Arguments give values, from the state in which what comes before them has ended. -/
def Arguments (settings : Settings) (f : Value) (scope : ScopeId) (span : Span)
    (below : List Frame) : List Node → List Value → Machine → List Value → Machine → Prop
  | [], done, m, vs, e => vs = done.reverse ∧ e = m
  | arg :: rest, done, m, vs, e => ∃ v e',
    Gives settings arg scope { m with stack := .argument f done rest scope span :: below } v e' ∧
      Arguments settings f scope span below rest (v :: done) e' vs e

/-- What is called gives a value, and then the arguments do. -/
def Calls (settings : Settings) (callee : Node) (args : List Node) (span : Span) (scope : ScopeId)
    (m : Machine) (f : Value) (vs : List Value) (e : Machine) : Prop :=
  ∃ e', Gives settings callee scope { m with stack := .callee args scope span :: m.stack } f e' ∧
    Arguments settings f scope span m.stack args [] e' vs e

/-- What is indexed and the index, one after the other, give two values. -/
def Indexes (settings : Settings) (target place : Node) (span : Span) (scope : ScopeId)
    (m : Machine) (a b : Value) (e : Machine) : Prop :=
  ∃ e', Gives settings target scope
      { m with stack := .indexTarget place scope span :: m.stack } a e' ∧
    Gives settings place scope { e' with stack := .indexPlace a span :: m.stack } b e

/-- What is next in a call: the argument that is not there yet, or what is called. -/
def proceed (limit : Nat) (f : Value) (scope : ScopeId) (span : Span) (below : List Frame)
    (args : List Node) (done : List Value) (m : Machine) : Machine :=
  let m := { m with control := .flow .continue, stack := below }
  match args with
  | [] => apply limit m f done.reverse span
  | arg :: rest => m.enter (.argument f done rest scope span) arg scope

theorem step_argument (hc : e.control = .flow (.value v))
    (hs : e.stack = .argument f done args scope span :: below) :
    step settings e = proceed settings.limit f scope span below args (v :: done) e := by
  rw [step_value hc hs]
  cases args <;> rfl

theorem step_callee (hc : e.control = .flow (.value f))
    (hs : e.stack = .callee args scope span :: below) :
    step settings e = proceed settings.limit f scope span below args [] e := by
  rw [step_value hc hs]
  cases args <;> rfl

theorem Arguments.reaches (h : Arguments settings f scope span below args done m vs e)
    (hnext : Reaches settings below
      (apply settings.limit { e with control := .flow .continue, stack := below } f vs span) e') :
    Reaches settings below (proceed settings.limit f scope span below args done m) e' := by
  -- over the arguments that are still to come: each ends above its own frame, and makes way for
  -- the next
  induction args generalizing done m with
  | nil =>
    obtain ⟨rfl, rfl⟩ := h
    exact hnext
  | cons arg rest ih =>
    obtain ⟨v, last, harg, hrest⟩ := h
    refine harg.reaches.andThen rfl ?_
    rw [step_argument harg.value harg.finished]
    exact ih hrest

theorem Calls.reaches (h : Calls settings callee args span scope m f vs e)
    (hnext : Reaches settings m.stack
      (apply settings.limit { e with control := .flow .continue, stack := m.stack } f vs span) e') :
    Reaches settings m.stack { m with control := .eval (.mk (.call callee args) span) scope }
      e' := by
  obtain ⟨first, hcallee, hargs⟩ := h
  refine .within rfl hcallee ?_
  rw [step_callee hcallee.value hcallee.finished]
  exact hargs.reaches hnext

/-- A built-in function that gives a value and prints nothing. -/
theorem applyBuiltin_gives (m : Machine) (span : Span) {builtin : Builtin} {heap : Heap}
    (hn : vs.length = builtin.arity)
    (hb : builtin.apply m.store.heap vs = Builtin.give heap v) :
    m.applyBuiltin builtin vs span =
      { m with
        control := .flow (.value v)
        store := { m.store with heap := heap.dropAll vs } } := by
  rw [applyBuiltin, if_neg (not_not_intro hn), hb]
  simp [Builtin.give, Machine.give, signal]

theorem applyBuiltin_fails (m : Machine) (span : Span) {builtin : Builtin} {heap : Heap}
    {fault : Fault} (hn : vs.length = builtin.arity)
    (hb : builtin.apply m.store.heap vs = Builtin.refuse heap fault) :
    m.applyBuiltin builtin vs span =
      { m with
        control := .failed (m.diagnostic fault span)
        store := { m.store with heap := heap.dropAll vs } } := by
  rw [applyBuiltin, if_neg (not_not_intro hn), hb]
  simp only [Builtin.refuse, String.append_empty]
  rfl

theorem Indexes.reaches (h : Indexes settings target place span scope m a b e)
    (hfinished : (step settings e).Finished m.stack) :
    Reaches settings m.stack { m with control := .eval (.mk (.index target place) span) scope }
      (step settings e) := by
  obtain ⟨first, htarget, hplace⟩ := h
  refine .within rfl htarget ?_
  rw [step_value htarget.value htarget.finished]
  exact hplace.reaches.andThen rfl (.here hfinished)

/-! ## Characters and lengths of texts -/

theorem Indexes.gives_character {s : String} {i : Int64}
    (h : Indexes settings target place span scope m (.text s) (.int i) e)
    (hi : InRange i s.length) :
    ∃ k p e', Addresses i s.length k ∧ (characters s)[k]? = some p ∧
      Gives settings (.mk (.index target place) span) scope m (.text p) e' := by
  obtain ⟨k, hk⟩ := inRange_iff.mp hi
  obtain ⟨p, hp, hindex⟩ := index_text e.store.heap hk
  obtain ⟨_, _, hplace⟩ := id h
  have hstep : step settings e = { e with
      control := .flow (.value (.text p))
      stack := m.stack
      store := (e.store.keep (.text p)).dropAll [.text s, .int i] } := by
    rw [step_value hplace.value hplace.finished]
    simp only [resume, resumeValue, applyIndex, hindex]
  refine ⟨k, p, step settings e, hk, hp, h.reaches ?_, ?_⟩
  · rw [hstep]
    exact .of_flow rfl rfl
  · rw [hstep]

theorem Indexes.fails_character {s : String} {i : Int64}
    (h : Indexes settings target place span scope m (.text s) (.int i) e)
    (hi : ¬ InRange i s.length) :
    ∃ e', Fails settings (.mk (.index target place) span) scope m
      (.indexOutOfRange i s.length) span e' := by
  obtain ⟨_, _, hplace⟩ := id h
  have hstep : step settings e =
      fail (dropAll { e with control := .flow .continue, stack := m.stack } [.text s, .int i])
        (.indexOutOfRange i s.length) span := by
    rw [step_value hplace.value hplace.finished]
    simp only [resume, resumeValue, applyIndex, index_text_fails e.store.heap hi]
  refine ⟨step settings e, h.reaches ?_, ?_⟩
  · rw [hstep]
    exact .of_failed rfl rfl
  · rw [hstep]
    rfl

theorem Calls.gives_length {s : String} {arg : Node}
    (h : Calls settings callee [arg] span scope m (.builtin .len) [.text s] e) :
    ∃ len e', Gives settings (.mk (.call callee [arg]) span) scope m (.int len) e' ∧
      (s.length < 2 ^ 63 → len.toInt = s.length) := by
  obtain ⟨len, hlen, hexact⟩ := lengthValue_int s.length
  have happly : apply settings.limit { e with control := .flow .continue, stack := m.stack }
      (.builtin .len) [.text s] span = { e with
        control := .flow (.value (.int len))
        stack := m.stack
        store := { e.store with heap := e.store.heap.dropAll [.text s] } } :=
    applyBuiltin_gives _ span rfl (congrArg (Builtin.give e.store.heap) hlen)
  refine ⟨len, _, ⟨h.reaches (.here ?_), ?_⟩, hexact⟩
  · rw [happly]
    exact .of_flow rfl rfl
  · rw [happly]

end Machine

/-! ## The ways to an item -/

/-- The ways to an item of a list: `l[i]`, `l / i`, `l - i` and `POP(l, i)`. -/
inductive Access where
  | index
  | divide
  | subtract
  | pop

namespace Access

open Machine

variable {settings : Settings} {m e : Machine} {way : Access} {below : List Frame}
  {callee target place : Node} {scope : ScopeId} {span : Span} {id : ListId} {i : Int64} {k : Nat}
  {b : Value}

/-- The node of an access. Only a call has a callee. -/
def node (way : Access) (callee target place : Node) (span : Span) : Node :=
  match way with
  | .index => .mk (.index target place) span
  | .divide => .mk (.binary .div target place) span
  | .subtract => .mk (.binary .sub target place) span
  | .pop => .mk (.call callee [target, place]) span

/-- What is reached into and the place give two values, after the callee of a call has given the
built-in function. -/
def Parts (way : Access) (settings : Settings) (callee target place : Node) (span : Span)
    (scope : ScopeId) (m : Machine) (a b : Value) (e : Machine) : Prop :=
  match way with
  | .index => Indexes settings target place span scope m a b e
  | .divide => Operands settings .div target place span scope m a b e
  | .subtract => Operands settings .sub target place span scope m a b e
  | .pop => Calls settings callee [target, place] span scope m (.builtin .pop) [a, b] e

/-- The frame that waits for the index. -/
def frame (way : Access) (id : ListId) (place : Node) (scope : ScopeId) (span : Span) : Frame :=
  match way with
  | .index => .indexPlace (.list id) span
  | .divide => .rightOperand .div (.list id) place.span span
  | .subtract => .rightOperand .sub (.list id) place.span span
  | .pop => .argument (.builtin .pop) [.list id] [] scope span

/-- What an access to a place gives: the item, or a list that is not there before. -/
def result (way : Access) (h : Heap) (item : Value) : Value :=
  match way with
  | .subtract => .list h.lists.size
  | _ => item

/-- The lists after an access to a place. -/
def lists (way : Access) (h : Heap) (id : ListId) (k : Nat) (j : ListId) : Option (Array Value) :=
  match way with
  | .index => h.list? j
  | .divide => h.list? j
  | .subtract =>
    if j = h.lists.size then some ((h.items id).eraseIdxIfInBounds k) else h.list? j
  | .pop => if j = id then some ((h.items id).eraseIdxIfInBounds k) else h.list? j

/-- The heap after an access to a place, before the parts are let go of. -/
def heap (way : Access) (h : Heap) (id : ListId) (k : Nat) : Heap :=
  match way with
  | .index => h.keep (Operator.itemAt (h.items id) k)
  | .divide => h.keep (Operator.itemAt (h.items id) k)
  | .subtract => (h.make (.fresh ((h.items id).eraseIdxIfInBounds k))).2
  | .pop => h.change id (·.eraseIdxIfInBounds k)

theorem subtract_result (h : Heap) (items : Array Value) (item : Value) :
    (h.make (.fresh items)).1 = Access.subtract.result h item :=
  congrArg Value.list (h.keepAll_shrinks items.toList).lists_size

theorem lists_of_heap {h : Heap} {j : ListId} {xs : Array Value}
    (hx : (way.heap h id k).list? j = some xs) : way.lists h id k j = some xs := by
  cases way with
  | index | divide => exact (h.keep_shrinks _).list j xs hx
  | subtract =>
    simp only [heap, Heap.make, Heap.newList_list?, (h.keepAll_shrinks _).lists_size] at hx
    simp only [lists]
    by_cases hj : j = h.lists.size
    · rwa [if_pos hj] at hx ⊢
    · rw [if_neg hj] at hx ⊢
      exact (h.keepAll_shrinks _).list j xs hx
  | pop =>
    rw [heap, Heap.change_list?] at hx
    simp only [lists]
    by_cases hj : j = id
    · subst hj
      rw [if_pos rfl] at hx ⊢
      obtain ⟨ys, hys, rfl⟩ := Option.map_eq_some_iff.mp hx
      simp [Heap.items, hys]
    · rw [if_neg (Ne.symm hj)] at hx
      rwa [if_neg hj]

theorem function_of_heap {h : Heap} {f : FunctionId} {fn : Function}
    (hf : (way.heap h id k).function? f = some fn) : h.function? f = some fn := by
  cases way with
  | index | divide => exact (h.keep_shrinks _).function f fn hf
  | subtract => exact (h.keepAll_shrinks _).function f fn hf
  | pop => exact hf

theorem Parts.ends (h : way.Parts settings callee target place span scope m (.list id) b e) :
    e.control = .flow (.value b) ∧ e.stack = way.frame id place scope span :: m.stack := by
  cases way with
  | index | divide | subtract =>
    obtain ⟨_, _, hplace⟩ := h
    exact ⟨hplace.value, hplace.finished⟩
  | pop =>
    obtain ⟨_, _, a, _, _, b', _, hplace, hvs, rfl⟩ := h
    obtain ⟨rfl, rfl⟩ : Value.list id = a ∧ b = b' := by simpa using hvs
    exact ⟨hplace.value, hplace.finished⟩

theorem Parts.reaches (h : way.Parts settings callee target place span scope m (.list id) b e)
    (hfinished : (step settings e).Finished m.stack) :
    Reaches settings m.stack
      { m with control := .eval (way.node callee target place span) scope } (step settings e) := by
  obtain ⟨hc, hs⟩ := h.ends
  have hstep : step settings e = _ := step_value hc hs
  cases way with
  | index => exact Indexes.reaches h hfinished
  | divide | subtract =>
    rw [hstep]
    exact Operands.reaches h nofun nofun
  | pop =>
    rw [hstep] at hfinished ⊢
    exact Calls.reaches h (.here hfinished)

/-- With an index that means a place, an access takes one step. -/
theorem step_takes (hc : e.control = .flow (.value (.int i)))
    (hs : e.stack = way.frame id place scope span :: below)
    (ha : Addresses i (e.store.heap.items id).size k) :
    step settings e = { e with
      control := .flow (.value
        (way.result e.store.heap (Operator.itemAt (e.store.heap.items id) k)))
      stack := below
      store := { e.store with
        heap := (way.heap e.store.heap id k).dropAll [.list id, .int i] } } := by
  rw [step_value hc hs]
  cases way with
  | index =>
    simp only [frame, resume, resumeValue, applyIndex, index_list ha]
    rfl
  | divide =>
    simp only [frame, resume, resumeValue, applyBinary, divide_list ha]
    rfl
  | subtract =>
    simp only [frame, resume, resumeValue, applyBinary, subtract_list ha]
    rw [← subtract_result e.store.heap ((e.store.heap.items id).eraseIdxIfInBounds k)]
    rfl
  | pop =>
    exact applyBuiltin_gives { e with control := .flow .continue, stack := below } span rfl
      (pop_list ha)

/-- With any other index, it fails and changes nothing. -/
theorem step_fails (hc : e.control = .flow (.value (.int i)))
    (hs : e.stack = way.frame id place scope span :: below)
    (hi : ¬ InRange i (e.store.heap.items id).size) :
    step settings e = { e with
      control := .failed (e.diagnostic (.indexOutOfRange i (e.store.heap.items id).size) span)
      stack := below
      store := e.store.dropAll [.list id, .int i] } := by
  rw [step_value hc hs]
  cases way with
  | index =>
    simp only [frame, resume, resumeValue, applyIndex, index_list_fails hi]
    rfl
  | divide =>
    simp only [frame, resume, resumeValue, applyBinary, divide_list_fails hi]
    rfl
  | subtract =>
    simp only [frame, resume, resumeValue, applyBinary, subtract_list_fails hi]
    rfl
  | pop =>
    exact applyBuiltin_fails { e with control := .flow .continue, stack := below } span rfl
      (pop_list_fails hi)

end Access

end Scriptlet

import Scriptlet.Proofs.Machine.Code
import Scriptlet.Proofs.Machine.Edits
import Scriptlet.Proofs.Machine.Evaluation
import Scriptlet.Proofs.Store.Spares

/-!
# Calls spare older scopes

All that a call does until it ends is done in scopes that are made after it
has begun: its own, and those of the calls that it makes. So if no code sets a
name without declaring it, no binding of an older scope changes.
-/

set_option autoImplicit false

namespace Scriptlet

/-- No name is given a new value where it is bound, in whatever part of the node. -/
def Node.Declares (n : Node) : Prop :=
  ∀ part : Node, part.PartOf n → ∀ name value, part.expr ≠ .assign name value false

theorem Node.declares_mk {e : Expr} {span : Span} : (Node.mk e span).Declares ↔
    (∀ name value, e ≠ .assign name value false) ∧ ∀ n ∈ e.children, n.Declares := by
  constructor
  · exact fun h => ⟨h _ (.self _), fun n hn p hp => h p (.child hn hp)⟩
  · rintro ⟨hself, hparts⟩ p hp
    cases hp with
    | self => exact hself
    | child hn hp => exact hparts _ hn p hp

theorem hereditary_declares : Hereditary Node.Declares :=
  fun _ hn _ hpart p hp => hn p (.child hpart hp)

namespace Machine

variable {since : Nat} {s s' : Store} {reclaim : Bool} {scope : Option ScopeId} {resets : Prop}

/-! ## Edits -/

theorem spares_bindAll {id : ScopeId} (params : List String) (args : List Value)
    (hy : s.Younger since id) : s.Spares since (bindAll id params args s) := by
  induction params generalizing args s with
  | nil => exact .refl s
  | cons p params ih =>
    cases args with
    | nil => exact .refl s
    | cons v args =>
      have hbound := Store.spares_define hy p v
      exact hbound.trans (ih args (hbound.younger hy))

theorem Edit.spares (h : Edit reclaim scope resets s s') (hr : ¬ resets)
    (hc : since ≤ s.created) (hy : ∀ id ∈ scope, s.Younger since id) : s.Spares since s' := by
  cases h with
  | heap _ h => exact Store.spares_heap s h
  | bind hid _ name v => exact Store.spares_define (hy _ hid) name v
  | reset hreset _ name v => exact absurd hreset hr
  | function hid _ name params body source => exact Store.spares_defineFunction (hy _ hid) ..
  | call _ parent params args =>
    obtain ⟨hmade, hyoung⟩ := Store.spares_child hc parent
    exact hmade.trans (spares_bindAll params args hyoung)
  | finish _ id => exact Store.spares_finish s reclaim id

/-- Code that runs in a younger scope, and resets no name, spares the older scopes. -/
theorem Edits.spares (h : Edits reclaim scope resets s s') (hr : ¬ resets)
    (hc : since ≤ s.created) (hy : ∀ id ∈ scope, s.Younger since id) : s.Spares since s' := by
  induction h with
  | refl => exact .refl s
  | tail _ hlast ih =>
    exact ih.trans (hlast.spares hr (hc.trans ih.created) fun id hid => ih.younger (hy id hid))

/-! ## Within a call -/

variable {settings : Settings} {host : List Value} {m m' : Machine} {rest stack : List Frame}
  {limit : Nat}

theorem Code.not_resets (h : m.Code Node.Declares) : ¬ m.Resets := by
  rintro ⟨_, hframe, name, id, rfl⟩
  cases h.stack _ hframe with
  | serving hf hn =>
    cases hf
    exact hn _ (.self _) _ _ rfl

/-- What is to be done above a stack is what a call does, and no call there runs in a scope that
is older than `since`. -/
def InCall (since : Nat) (rest : List Frame) (m : Machine) : Prop :=
  ∃ frames callee scope, m.stack = frames ++ .call callee scope :: rest ∧
    ∀ c ∈ calls frames ++ [(callee, scope)], since ≤ c.2.serial

namespace InCall

/-- The innermost call is one of those above the stack. -/
theorem here (h : InCall since rest m) :
    ∃ c ∈ calls m.stack, c.2 = Machine.here m.stack ∧ since ≤ c.2.serial := by
  obtain ⟨frames, callee, scope, hs, hyoung⟩ := h
  have hcalls : calls m.stack = calls frames ++ (callee, scope) :: calls rest := by
    rw [hs, calls, List.filterMap_append]
    rfl
  cases hframes : calls frames with
  | nil =>
    refine ⟨(callee, scope), by simp [hcalls], ?_, hyoung _ (by simp)⟩
    simp [Machine.here, hcalls, hframes]
  | cons c inner =>
    refine ⟨c, by simp [hcalls, hframes], ?_, hyoung c (by simp [hframes])⟩
    simp [Machine.here, hcalls, hframes]

theorem younger (h : InCall since rest m) (hs : m.Sound reclaim host) :
    m.store.Younger since (Machine.here m.stack) := by
  obtain ⟨c, hc, hhere, hyoung⟩ := h.here
  obtain ⟨f, fn, hd, -, -, hholds, -⟩ := hs.ready.called c hc
  intro sc hsc
  have hhead : some sc.head = some hd := by
    rw [← hholds.1, Store.head?, hhere, ← Store.scope?_eq, hsc]
    rfl
  have hserial : sc.serial = hd.serial := congrArg Head.serial (Option.some.inj hhead)
  rw [hserial, hholds.2]
  exact hyoung

theorem yields (h : InCall since rest m) (hr : m.Yields stack) :
    InCall since rest { m with stack := stack } := by
  rcases hr with ⟨-, rfl⟩ | ⟨-, frame, hframe, hc⟩
  · exact h
  · obtain ⟨frames, callee, scope, hs, hyoung⟩ := h
    cases frames with
    | nil =>
      obtain ⟨rfl, -⟩ := List.cons.inj (hframe.symm.trans hs)
      cases hc
    | cons top frames =>
      obtain ⟨rfl, rfl⟩ := List.cons.inj (hframe.symm.trans hs)
      rw [calls_cons hc] at hyoung
      exact ⟨frames, callee, scope, rfl, hyoung⟩

theorem level (h : InCall since rest m) (hl : m.Level m') : InCall since rest m' := by
  obtain ⟨frames, callee, scope, hs, hyoung⟩ := h
  obtain ⟨new, hnew, hc⟩ := hl.stack
  refine ⟨new ++ frames, callee, scope, by rw [hnew, hs, List.append_assoc], ?_⟩
  rwa [calls, List.filterMap_append, ← calls, ← calls, hc, List.nil_append]

theorem inward (h : InCall since rest m) (hi : Inward limit m m') (hc : since ≤ m.store.created) :
    InCall since rest m' := by
  obtain ⟨frames, callee, scope, hs, hyoung⟩ := h
  obtain ⟨inner, id, hnew, hserial⟩ := hi.stack
  refine ⟨.call inner id :: frames, callee, scope, by rw [hnew, hs, List.cons_append], ?_⟩
  exact List.forall_mem_cons.mpr ⟨hserial ▸ hc, hyoung⟩

end InCall

/-- A call that ends goes on with nothing of its own. -/
theorem not_evaluates_after_call {callee : Value} {id : ScopeId} (he : ¬ m.Evaluates)
    (hs : m.stack = .call callee id :: stack) : ¬ (step settings m).Evaluates := by
  obtain ⟨control, frames, store, active, depth, out⟩ := m
  obtain rfl : frames = _ := hs
  cases control with
  | eval node scope => exact absurd ⟨node, scope, rfl⟩ he
  | flow f => exact not_evaluates_of_flow rfl
  | failed d =>
    rintro ⟨node, scope, hc⟩
    cases hc

/-- A step of a call stays in it, or ends it. -/
theorem InCall.step (h : InCall since rest m) (hc : since ≤ m.store.created) :
    InCall since rest (Machine.step settings m) ∨ (Machine.step settings m).Finished rest := by
  cases step_move settings m with
  | level hr hl => exact .inl ((h.yields hr).level hl)
  | inward hr hi => exact .inl ((h.yields hr).inward hi hc)
  | outward he hs _ _ _ =>
    obtain ⟨frames, callee, scope, hs', hyoung⟩ := h
    cases frames with
    | nil =>
      obtain ⟨-, hrest⟩ := List.cons.inj (hs.symm.trans hs')
      exact .inr ⟨hrest, not_evaluates_after_call he hs⟩
    | cons top frames =>
      obtain ⟨rfl, hrest⟩ := List.cons.inj (hs.symm.trans hs')
      exact .inl ⟨frames, callee, scope, hrest, (List.forall_mem_cons.mp hyoung).2⟩
  | halted hf _ =>
    obtain ⟨frames, callee, scope, hs, -⟩ := h
    rw [hf.1] at hs
    cases frames <;> cases hs

theorem InCall.spares (h : InCall since rest m) (hs : m.Sound settings.reclaim host)
    (hcode : m.Code Node.Declares) (hc : since ≤ m.store.created) :
    m.store.Spares since (Machine.step settings m).store :=
  hs.edits.spares hcode.not_resets hc fun id hid => by
    obtain rfl := Option.some.inj hid
    exact h.younger hs

/-! ## Until a call has ended -/

/-- From a state until the work above a stack is done, whatever ends it, no binding of a scope that
is older than `since` changes between two states, and all code runs in scopes that are not older. -/
def SparesUntil (settings : Settings) (since : Nat) (rest : List Frame) (m : Machine) : Prop :=
  ∀ n, (∀ j < n, ¬ (steps settings j m).Finished rest) →
    (∀ i ≤ n, (steps settings i m).store.Spares since (steps settings n m).store) ∧
    ∀ node scope, (steps settings n m).control = .eval node scope → since ≤ scope.serial

/-- A call has begun that spares what is older, or it has ended at once. -/
structure Opened (since : Nat) (rest : List Frame) (m : Machine) : Prop where
  place : InCall since rest m ∨ m.Finished rest
  created : since ≤ m.store.created

theorem Opened.step (h : m.Opened since rest) (hs : m.Sound settings.reclaim host)
    (hcode : m.Code Node.Declares) (hf : ¬ m.Finished rest) :
    (Machine.step settings m).Opened since rest ∧
      m.store.Spares since (Machine.step settings m).store := by
  have hin := h.place.resolve_right hf
  have hspares := hin.spares hs hcode h.created
  exact ⟨⟨hin.step h.created, h.created.trans hspares.created⟩, hspares⟩

theorem Opened.steps (h : m.Opened since rest) (hs : m.Sound settings.reclaim host)
    (hcode : m.Code Node.Declares) {n : Nat}
    (hbefore : ∀ j < n, ¬ (Machine.steps settings j m).Finished rest) :
    (Machine.steps settings n m).Opened since rest ∧
      m.store.Spares since (Machine.steps settings n m).store := by
  induction n generalizing m with
  | zero => exact ⟨h, .refl _⟩
  | succ n ih =>
    obtain ⟨hnext, hfirst⟩ := h.step hs hcode (hbefore 0 n.succ_pos)
    obtain ⟨hlast, hrest⟩ := ih hnext hs.step (hcode.step hereditary_declares settings)
      fun j hj => hbefore (j + 1) (Nat.succ_lt_succ hj)
    exact ⟨hlast, hfirst.trans hrest⟩

/-- With nothing below it, the end of a call is the end of the run. -/
theorem Opened.steps_nil (h : m.Opened since []) (hs : m.Sound settings.reclaim host)
    (hcode : m.Code Node.Declares) (n : Nat) :
    m.store.Spares since (Machine.steps settings n m).store := by
  induction n generalizing m with
  | zero => exact .refl _
  | succ n ih =>
    by_cases hf : m.Finished []
    · rw [hf.steps_eq]
      exact .refl _
    · obtain ⟨hnext, hfirst⟩ := h.step hs hcode hf
      exact hfirst.trans (ih hnext hs.step (hcode.step hereditary_declares settings))

theorem Opened.evaluates (h : m.Opened since rest) (hs : m.Sound reclaim host) {node : Node}
    {id : ScopeId} (hc : m.control = .eval node id) : since ≤ id.serial := by
  have hin := h.place.resolve_right fun hf => hf.2 ⟨node, id, hc⟩
  obtain ⟨c, -, hhere, hyoung⟩ := hin.here
  rw [hs.inPlace node id hc, ← hhere]
  exact hyoung

theorem Opened.sparesUntil (h : m.Opened since rest) (hs : m.Sound settings.reclaim host)
    (hcode : m.Code Node.Declares) : SparesUntil settings since rest m := by
  intro n hbefore
  refine ⟨fun i hi => ?_, fun node id hc => (h.steps hs hcode hbefore).1.evaluates (hs.steps n) hc⟩
  obtain ⟨k, rfl⟩ := Nat.exists_eq_add_of_le hi
  have hmid := (h.steps hs hcode fun j hj => hbefore j (Nat.lt_of_lt_of_le hj hi)).1
  rw [steps_add]
  refine (hmid.steps (hs.steps i) (hcode.steps hereditary_declares settings i) fun j hj => ?_).2
  rw [← steps_add]
  exact hbefore (i + j) (Nat.add_lt_add_left hj i)

/-- Whatever is called, it begins with a new scope or ends at once. -/
theorem opened_apply (limit : Nat) (m : Machine) (callee : Value) (args : List Value)
    (span : Span) :
    (apply limit m callee args span).Opened m.store.created m.stack ∧
      m.store.Spares m.store.created (apply limit m callee args span).store := by
  have hspares : m.store.Spares m.store.created (apply limit m callee args span).store :=
    (Edits.apply limit m callee args span : Edits true none False _ _).spares id (le_refl _) nofun
  refine ⟨⟨?_, hspares.created⟩, hspares⟩
  rcases apply_levels limit m callee args span with hlevel | hinward
  · rcases apply_opens limit m callee args span with ⟨hdone, -⟩ | ⟨id, f, scope, -, -, hs, -⟩
    · exact .inr hdone
    · obtain ⟨frames, hs', hcalls⟩ := hlevel.stack
      obtain rfl : [Frame.call (.function id) scope] = frames :=
        List.append_cancel_right (hs.symm.trans hs')
      cases hcalls
  · obtain ⟨inner, id, hs, hserial⟩ := hinward.stack
    refine .inl ⟨[], inner, id, hs, List.forall_mem_singleton.mpr hserial.ge⟩

/-- A value is about to be called, above a stack. -/
inductive AboutToCall (m : Machine) : Value → List Value → List Frame → Prop where
  | call {v : Value} {scope : ScopeId} {span : Span} {rest : List Frame}
      (hc : m.control = .flow (.value v)) (hs : m.stack = .callee [] scope span :: rest) :
      m.AboutToCall v [] rest
  | callWith {v callee : Value} {done : List Value} {scope : ScopeId} {span : Span}
      {rest : List Frame} (hc : m.control = .flow (.value v))
      (hs : m.stack = .argument callee done [] scope span :: rest) :
      m.AboutToCall callee (v :: done).reverse rest

theorem AboutToCall.step {callee : Value} {args : List Value} (h : m.AboutToCall callee args rest)
    (settings : Settings) : ∃ span, Machine.step settings m = apply settings.limit
      { m with control := .flow .continue, stack := rest } callee args span := by
  cases h with
  | call hc hs => exact ⟨_, step_value hc hs⟩
  | callWith hc hs => exact ⟨_, step_value hc hs⟩

theorem AboutToCall.not_evaluates {callee : Value} {args : List Value}
    (h : m.AboutToCall callee args rest) : ¬ m.Evaluates := by
  cases h with
  | call hc _ => exact not_evaluates_of_flow hc
  | callWith hc _ => exact not_evaluates_of_flow hc

theorem AboutToCall.sparesUntil {callee : Value} {args : List Value}
    (h : m.AboutToCall callee args rest) (hs : m.Sound settings.reclaim host)
    (hcode : m.Code Node.Declares) : SparesUntil settings m.store.created rest m := by
  obtain ⟨span, hstep⟩ := h.step settings
  obtain ⟨hopened, hspares⟩ := opened_apply settings.limit
    { m with control := .flow .continue, stack := rest } callee args span
  rw [← hstep] at hopened hspares
  have hcode' := hcode.step hereditary_declares settings
  intro n hbefore
  cases n with
  | zero =>
    refine ⟨fun i hi => ?_, fun node id hc => absurd ⟨node, id, hc⟩ h.not_evaluates⟩
    obtain rfl : i = 0 := Nat.le_zero.mp hi
    exact .refl _
  | succ n =>
    have hbefore' : ∀ j < n, ¬ (steps settings j (Machine.step settings m)).Finished rest :=
      fun j hj => hbefore (j + 1) (Nat.succ_lt_succ hj)
    obtain ⟨hpairs, hevals⟩ := hopened.sparesUntil hs.step hcode' n hbefore'
    refine ⟨fun i hi => ?_, hevals⟩
    cases i with
    | zero => exact hspares.trans (hpairs 0 (Nat.zero_le _))
    | succ i => exact hpairs i (Nat.le_of_succ_le_succ hi)

end Machine

end Scriptlet

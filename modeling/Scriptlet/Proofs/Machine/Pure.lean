import Scriptlet.Proofs.Machine.Reruns

/-!
# Expressions without calls

Literals, variables, lists, operators, indexing and choices between
expressions make up the expressions that call nothing and bind nothing.
However they are put together, their evaluation comes to an end, and comes to
the same end again.
-/

set_option autoImplicit false

namespace Scriptlet

/-- An expression of literals, variables, lists, operators, indexing and choices. A body on lines of
its own is none. -/
inductive Node.Pure : Node → Prop where
  | int (n : Int64) (span : Span) : Pure (.mk (.int n) span)
  | float (x : Float) (span : Span) : Pure (.mk (.float x) span)
  | text (s : String) (span : Span) : Pure (.mk (.text s) span)
  | list {items : List Node} (span : Span) (hitems : ∀ n ∈ items, Pure n) :
      Pure (.mk (.list items) span)
  | var (name : String) (span : Span) : Pure (.mk (.var name) span)
  | binary (op : BinaryOp) {left right : Node} (span : Span) (hleft : Pure left)
      (hright : Pure right) : Pure (.mk (.binary op left right) span)
  | unary (op : UnaryOp) {operand : Node} (span : Span) (hoperand : Pure operand) :
      Pure (.mk (.unary op operand) span)
  | ifElse {branches : List (Node × Node)} {otherwise : Option Node} (span : Span)
      (htests : ∀ b ∈ branches, Pure b.1) (hbodies : ∀ b ∈ branches, Pure b.2)
      (hotherwise : ∀ n ∈ otherwise, Pure n) : Pure (.mk (.ifElse branches otherwise) span)
  | index {target place : Node} (span : Span) (htarget : Pure target) (hplace : Pure place) :
      Pure (.mk (.index target place) span)

namespace Rerun

variable {settings : Settings} {p : Rerun} {s s' : Store} {v : Value} {vs : List Value}
  {stack stack' : List Frame} {node left right : Node} {scope : ScopeId}

namespace Meets

/-- Fellows are both truthy, or neither is. -/
theorem ofTruth {m m' k k' : Machine} {ws : List Value} (h : p.At (v :: vs) s s')
    (htrue : p.Meets settings ws stack stack' m m')
    (hfalse : p.Meets settings ws stack stack' k k') :
    p.Meets settings ws stack stack' (if v.isTruthy s.heap then m else k)
      (if (p.shift.value v).isTruthy s'.heap then m' else k') := by
  rw [h.parallel.isTruthy (h.common (List.mem_cons_self ..))]
  split
  · exact htrue
  · exact hfalse

/-- A node whose value is the result, while another value is held. -/
theorem holding (hn : Repeats settings node) (h : p.At (v :: vs) s s') :
    p.Meets settings vs stack stack' (p.first.now (.eval node scope) (.holding v :: stack) s)
      (p.again.now (.eval node scope) (.holding (p.shift.value v) :: stack') s') := by
  refine part hn rfl rfl rfl h fun w s s' h => ?_
  have hin : p.At ([v] ++ w :: vs) s s' := h.perm (List.Perm.swap v w vs)
  exact give hin.dropAll

theorem items {item : Node} {rest : List Node} {done : List Value}
    (hitem : Repeats settings item) (hrest : ∀ n ∈ rest, Repeats settings n)
    (h : p.At (done ++ vs) s s') :
    p.Meets settings vs stack stack'
      (p.first.now (.eval item scope) (.listItem done rest scope :: stack) s)
      (p.again.now (.eval item scope)
        (.listItem (done.map p.shift.value) rest scope :: stack') s') := by
  induction rest generalizing item done s s' with
  | nil =>
    refine part hitem rfl rfl rfl h fun v s s' h => ?_
    have hall : p.At ((v :: done) ++ vs) s s' := h
    exact giveList hall _ _
  | cons next rest ih =>
    obtain ⟨hnext, hrest⟩ := List.forall_mem_cons.mp hrest
    refine part hitem rfl rfl rfl h fun v s s' h => ?_
    have hall : p.At ((v :: done) ++ vs) s s' := h
    exact ih hnext hrest hall

theorem choose {branches : List (Node × Node)} {otherwise : Option Node}
    (htests : ∀ b ∈ branches, Repeats settings b.1)
    (hbodies : ∀ b ∈ branches, Repeats settings b.2)
    (hotherwise : ∀ n ∈ otherwise, Repeats settings n) (h : p.At vs s s') (c c' : Control) :
    p.Meets settings vs stack stack' ((p.first.now c stack s).choose branches otherwise scope)
      ((p.again.now c' stack' s').choose branches otherwise scope) := by
  induction branches generalizing s s' c c' with
  | nil =>
    cases otherwise with
    | none => exact givePlain h rfl c c'
    | some node => exact hotherwise node rfl p scope vs stack stack' s s' h
  | cons b rest ih =>
    obtain ⟨test, body⟩ := b
    obtain ⟨htest, htests⟩ := List.forall_mem_cons.mp htests
    obtain ⟨hbody, hbodies⟩ := List.forall_mem_cons.mp hbodies
    refine part htest rfl rfl rfl h fun v s s' h => ?_
    have hin : p.At ([v] ++ vs) s s' := h
    exact ofTruth h (holding hbody h) (ih htests hbodies hin.dropAll _ _)

end Meets

theorem repeats_operands {op : BinaryOp} (hand : op ≠ .and) (hor : op ≠ .or) (span : Span)
    (hleft : Repeats settings left) (hright : Repeats settings right) :
    Repeats settings (.mk (.binary op left right) span) := by
  intro p scope vs stack stack' s s' h
  refine .begin (.part hleft rfl rfl rfl h fun v s s' h => ?_)
  rw [Machine.resume_leftOperand hand hor, Machine.resume_leftOperand hand hor]
  refine .part hright rfl rfl rfl h fun w s s' h => ?_
  exact .applyBinary (h.perm (List.Perm.swap v w vs)) op right.span span _ _

theorem repeats_and (span : Span) (hleft : Repeats settings left)
    (hright : Repeats settings right) : Repeats settings (.mk (.binary .and left right) span) := by
  intro p scope vs stack stack' s s' h
  refine .begin (.part hleft rfl rfl rfl h fun v s s' h => ?_)
  exact .ofTruth h (.holding hright h) (.give h)

theorem repeats_or (span : Span) (hleft : Repeats settings left)
    (hright : Repeats settings right) : Repeats settings (.mk (.binary .or left right) span) := by
  intro p scope vs stack stack' s s' h
  refine .begin (.part hleft rfl rfl rfl h fun v s s' h => ?_)
  exact .ofTruth h (.give h) (.holding hright h)

end Rerun

/-- An expression without calls comes to an end, and comes to the same end again. -/
theorem Node.Pure.repeats {node : Node} (hn : node.Pure) (settings : Settings) :
    Rerun.Repeats settings node := by
  induction hn with
  | int n span => exact fun p scope vs stack stack' s s' h => .begin (.givePlain h rfl _ _)
  | float x span => exact fun p scope vs stack stack' s s' h => .begin (.givePlain h rfl _ _)
  | text t span => exact fun p scope vs stack stack' s s' h => .begin (.givePlain h rfl _ _)
  | @list items span _ ih =>
    intro p scope vs stack stack' s s' h
    have hnone : p.At ([] ++ vs) s s' := h
    cases items with
    | nil => exact .begin (.giveList hnone _ _)
    | cons item rest =>
      obtain ⟨hitem, hrest⟩ := List.forall_mem_cons.mp ih
      exact .begin (.items hitem hrest hnone)
  | var name span =>
    intro p scope vs stack stack' s s' h
    refine .begin ?_
    have hget : s.get? scope name = p.first.store.get? scope name :=
      h.left.grows.get? scope name
    have hget' : s'.get? scope name = p.first.store.get? scope name :=
      (h.right.grows.get? scope name).trans (p.grows.get? scope name)
    simp only [Machine.begin, Machine.now, hget, hget']
    cases hv : p.first.store.get? scope name with
    | none => exact .fault h (.undefined name) span _ _
    | some v =>
      have hthere : There p.first.store.heap v := p.sound.live_get? hv
      have hmeets : p.Meets settings vs stack stack' _ _ := .give (h.keep (h.common_first hthere))
      rwa [p.shift_value hthere] at hmeets
  | @binary op left right span _ _ hleft hright =>
    cases op with
    | and => exact Rerun.repeats_and span hleft hright
    | or => exact Rerun.repeats_or span hleft hright
    | _ => exact Rerun.repeats_operands (by decide) (by decide) span hleft hright
  | @unary op operand span _ ih =>
    intro p scope vs stack stack' s s' h
    refine .begin (.part ih rfl rfl rfl h fun v s s' h => ?_)
    exact .applyUnary h op span _ _
  | ifElse span _ _ _ htests hbodies hotherwise =>
    intro p scope vs stack stack' s s' h
    exact .begin (.choose htests hbodies hotherwise h _ _)
  | @index target place span _ _ htarget hplace =>
    intro p scope vs stack stack' s s' h
    refine .begin (.part htarget rfl rfl rfl h fun v s s' h => ?_)
    refine .part hplace rfl rfl rfl h fun w s s' h => ?_
    exact .applyIndex (h.perm (List.Perm.swap v w vs)) span _ _

/-! ## Results of evaluations -/

/-- Ends that look the same: values that are displayed by the same text, or the same error. -/
inductive Control.Alike (h h' : Heap) : Control → Control → Prop where
  | value {v w : Value} (hd : w.display h' = v.display h) :
      Alike h h' (.flow (.value v)) (.flow (.value w))
  | error (d : Diagnostic) : Alike h h' (.failed d) (.failed d)

namespace Machine

variable {settings : Settings} {m m' : Machine} {node : Node} {outer : List Ref}

/-- The evaluation of a node, above all that is on the stack of a state, ends with this control and
this store. The calls and the printed text are as they were, and the stack is again. -/
def EvaluatesTo (settings : Settings) (node : Node) (scope : ScopeId) (m : Machine) (c : Control)
    (s : Store) : Prop :=
  Reaches settings m.stack (m.now (.eval node scope) m.stack m.store) (m.now c m.stack s)

theorem EvaluatesTo.unique {scope : ScopeId} {c c' : Control} {s s' : Store}
    (h : m.EvaluatesTo settings node scope c s) (h' : m.EvaluatesTo settings node scope c' s') :
    c = c' ∧ s = s' := by
  have he : m.now c m.stack s = m.now c' m.stack s' := Reaches.unique h h'
  injection he with hc _ hs
  exact ⟨hc, hs⟩

/-- In the second state nothing of the first has gone or changed. The calls are the same, and the
counts are exact for some who hold references. -/
structure Unchanged (m m' : Machine) : Prop where
  grows : m.store.Grows m'.store
  active : m'.active = m.active
  counted : ∃ outer, m'.store.Sound outer

/-- Evaluated where nothing has changed, an expression without calls comes to an end that looks the
same, and it changes nothing either, whether or not its value is let go of. -/
theorem Unchanged.evaluates (hm : m.Unchanged m') (settings : Settings)
    (hs : m.store.Sound outer) (hn : node.Pure) (scope : ScopeId) :
    ∃ c s c' s', m.EvaluatesTo settings node scope c s ∧
      m.Unchanged (m.now c m.stack s) ∧
      (∀ v, c = .flow (.value v) → m.Unchanged (m.now c m.stack (s.drop v))) ∧
      m'.EvaluatesTo settings node scope c' s' ∧ m'.Unchanged (m'.now c' m'.stack s') ∧
      c.Alike s.heap s'.heap c' := by
  obtain ⟨hgrows, hactive, outer', hs'⟩ := hm
  let p : Rerun := ⟨m, m', outer, outer', hs, hs', hgrows, hactive⟩
  cases hn.repeats settings p scope [] m.stack m'.stack m.store m'.store (.start p) with
  | @value v s s' h first again =>
    have hdropped : m.store.Ahead outer [] (s.drop v) := by
      have hin : m.store.Ahead outer ([v] ++ []) s := h.left
      rw [Store.drop_eq_dropAll]
      exact .dropAll hs hin
    refine ⟨_, s, _, s', first, ⟨h.left.grows, rfl, _, h.left.sound⟩, fun w hw => ?_, again,
      ⟨h.right.grows, rfl, _, h.right.sound⟩, .value ?_⟩
    · cases hw
      exact ⟨hdropped.grows, rfl, _, hdropped.sound⟩
    · exact h.parallel.display h.left.sound.balanced h.right.sound.balanced
        (h.common (List.mem_singleton_self v))
  | @error d s s' h first again =>
    exact ⟨_, s, _, s', first, ⟨h.left.grows, rfl, _, h.left.sound⟩, nofun, again,
      ⟨h.right.grows, rfl, _, h.right.sound⟩, .error d⟩

/-! ## Operators -/

theorem applyBinary_spares (m : Machine) (op : BinaryOp) (a b : Value) (rightSpan span : Span) :
    m.store.heap.SparesItems (m.applyBinary op a b rightSpan span).store.heap := by
  have hdrop : m.store.heap.SparesItems (m.store.heap.dropAll [a, b]) :=
    .of_grows_shrinks (.refl _) (m.store.heap.shrinks_dropAll _)
  unfold applyBinary
  split
  · exact hdrop
  · split
    · exact hdrop
    · exact .of_grows_shrinks (m.store.heap.grows_make _) (Heap.shrinks_dropAll ..)

theorem applyUnary_spares (m : Machine) (op : UnaryOp) (v : Value) (span : Span) :
    m.store.heap.SparesItems (m.applyUnary op v span).store.heap := by
  have hdrop : m.store.heap.SparesItems (m.store.heap.dropAll [v]) :=
    .of_grows_shrinks (.refl _) (m.store.heap.shrinks_dropAll _)
  unfold applyUnary
  split
  · exact hdrop
  · exact hdrop

theorem applyIndex_spares (m : Machine) (target place : Value) (span : Span) :
    m.store.heap.SparesItems (m.applyIndex target place span).store.heap := by
  unfold applyIndex
  split
  · exact .of_grows_shrinks (.refl _) (m.store.heap.shrinks_dropAll _)
  · exact .of_grows_shrinks (m.store.heap.grows_keep _) (Heap.shrinks_dropAll ..)

theorem applyBinary_fresh {op : BinaryOp} {a b : Value} {rightSpan span : Span} {id : ListId}
    (hop : op = .add ∨ op = .mul ∨ op = .sub)
    (hv : (m.applyBinary op a b rightSpan span).control = .flow (.value (.list id))) :
    id = m.store.heap.lists.size := by
  unfold applyBinary at hv
  split at hv
  · cases hv
  · split at hv
    · cases hv
    · rename_i c hc
      exact m.store.heap.make_fresh hop hc (Flow.value.inj (Control.flow.inj hv))

end Machine

end Scriptlet

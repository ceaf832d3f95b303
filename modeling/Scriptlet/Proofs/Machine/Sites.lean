import Scriptlet.Proofs.Machine.Origins
import Scriptlet.Proofs.Machine.Runs
import Scriptlet.Program.Reading

/-!
# Which code a state runs

At every moment of a run each frame of the stack belongs to a node whose
evaluation has begun and not yet ended. The node is part of the program of the
source that the active call around it runs, and a call is opened by a call
expression in the source of the call around it.
-/

set_option autoImplicit false

namespace Scriptlet

/-! ## Nodes of a source -/

theorem Node.PartOf.inner {n m whole : Node} (h : m.PartOf whole) (hn : n ∈ m.expr.children) :
    n.PartOf whole := by
  induction h with
  | self => exact .child hn (.self n)
  | child hm _ ih => exact .child hm ih

namespace Source

/-- A node of the program that a source reads as. -/
def Has (s : Source) (n : Node) : Prop :=
  ∃ program, s.program = .ok program ∧ ∃ m ∈ program.statements, n.PartOf m

theorem Has.inner {s : Source} {n m : Node} (h : s.Has m) (hn : n ∈ m.expr.children) : s.Has n := by
  obtain ⟨program, hp, statement, hm, hpart⟩ := h
  exact ⟨program, hp, statement, hm, hpart.inner hn⟩

end Source

/-- A fault is reported at a node of the same source. -/
theorem Node.Blames.part {s : Source} {node : Node} {fault : Fault} {span : Span}
    (hb : node.Blames fault span) (hn : s.Has node) : ∃ n, s.Has n ∧ n.span = span := by
  cases hb with
  | whole _ _ => exact ⟨node, hn, rfl⟩
  | @divisor op left right span hd fault hf =>
    exact ⟨right, hn.inner (by simp [Node.expr, Expr.children]), rfl⟩
  | @bound var start stop body step span b hb kind =>
    exact ⟨b, hn.inner (List.mem_append_left _ hb), rfl⟩

namespace Machine

variable {settings : Settings} {first : Machine} {k : Nat}

theorem steps_succ (settings : Settings) (k : Nat) (m : Machine) :
    steps settings (k + 1) m = step settings (steps settings k m) := by
  induction k generalizing m with
  | zero => rfl
  | succ k ih => exact ih (step settings m)

/-- In state `k` of a run the evaluation of a node is under way above a stack: it has begun with
this stack, and there has been more on it ever since. -/
def Underway (settings : Settings) (first : Machine) (k : Nat) (below : List Frame)
    (node : Node) : Prop :=
  ∃ j ≤ k, (∃ scope, (steps settings j first).control = .eval node scope) ∧
    (steps settings j first).stack = below ∧
    ∀ i, j < i → i ≤ k → ∃ frame frames, (steps settings i first).stack = frame :: (frames ++ below)

theorem Underway.start {node : Node} {scope : ScopeId}
    (hc : (steps settings k first).control = .eval node scope) :
    Underway settings first k (steps settings k first).stack node :=
  ⟨k, le_refl k, ⟨scope, hc⟩, rfl, fun i hlt hle => by omega⟩

theorem Underway.succ {below : List Frame} {node : Node}
    (h : Underway settings first k below node)
    (hs : ∃ frame frames, (steps settings (k + 1) first).stack = frame :: (frames ++ below)) :
    Underway settings first (k + 1) below node := by
  obtain ⟨j, hj, hc, hb, habove⟩ := h
  refine ⟨j, Nat.le_succ_of_le hj, hc, hb, fun i hlt hle => ?_⟩
  rcases Nat.le_succ_iff.mp hle with hle | rfl
  · exact habove i hlt hle
  · exact hs

/-! ## Sites -/

/-- Frames belong to nodes under way, in the sources that the active calls around them run. -/
inductive Sited (under : List Frame → Node → Prop) (heap : Heap) (base : List Activation) :
    List Frame → List Activation → Prop where
  | base : Sited under heap base [] base
  | program {rest : List Node} {last : Value} {a : Activation} (hb : base = [a])
      (hn : ∀ n ∈ rest, a.source.Has n) : Sited under heap base [.program rest last] base
  | frame {frame : Frame} {below : List Frame} {a : Activation} {outer : List Activation}
      {node : Node} (hf : frame.Serves node) (hu : under below node) (hn : a.source.Has node)
      (hb : below ≠ []) (h : Sited under heap base below (a :: outer)) :
      Sited under heap base (frame :: below) (a :: outer)
  /-- A call is opened by a call expression, or by the host. The function may be gone only when
  nothing holds it. -/
  | call {id : FunctionId} {scope : ScopeId} {below : List Frame} {a : Activation}
      {outer : List Activation} (hid : id < heap.functions.size)
      (hf : ∀ f, heap.function? id = some f → a.name = f.displayName ∧ a.source = f.source)
      (ho : ∀ b ∈ outer.head?, ∃ node callee args, node.expr = .call callee args ∧
        under below node ∧ b.source.Has node ∧ a.calledAt = some node.span)
      (hb : outer ≠ [] → below ≠ []) (h : Sited under heap base below outer) :
      Sited under heap base (.call (.function id) scope :: below) (a :: outer)

section

variable {under under' : List Frame → Node → Prop} {heap heap' : Heap} {base : List Activation}
  {stack : List Frame} {active : List Activation}

theorem Sited.mono (h : Sited under heap base stack active) {P : Function → Prop}
    (hh : heap.Adds P heap')
    (hu : ∀ frame frames below node, stack = frame :: (frames ++ below) → under below node →
      under' below node) : Sited under' heap' base stack active := by
  induction h with
  | base => exact .base
  | program hb hn => exact .program hb hn
  | @frame frame below a outer node hf hnode hn hb _ ih =>
    refine .frame hf (hu frame [] below node rfl hnode) hn hb (ih fun f fs b n he => ?_)
    exact hu frame (f :: fs) b n (by rw [he]; rfl)
  | @call id scope below a outer hid hf ho hne _ ih =>
    refine .call (Nat.lt_of_lt_of_le hid hh.size) (fun f hfun => ?_) (fun b hb => ?_) hne
      (ih fun g fs b n he => hu (.call (.function id) scope) (g :: fs) b n (by rw [he]; rfl))
    · rcases hh.function id f hfun with h | ⟨hle, -⟩
      · exact hf f h
      · exact absurd hid (Nat.not_lt_of_le hle)
    · obtain ⟨node, callee, args, he, hnode, hn, hat⟩ := ho b hb
      exact ⟨node, callee, args, he, hu (.call (.function id) scope) [] below node rfl hnode, hn,
        hat⟩

end

/-- What a state does is done by code of the sources of the active calls, and so are the functions
that there are. -/
structure Sites (under : List Frame → Node → Prop) (base : List Activation) (m : Machine) :
    Prop where
  stack : Sited under m.store.heap base m.stack m.active
  control : ∀ node scope, m.control = .eval node scope →
    m.stack ≠ [] ∧ ∃ a outer, m.active = a :: outer ∧ a.source.Has node
  functions : ∀ f fn, m.store.heap.function? f = some fn → fn.source.Has fn.body

section

variable {under under' : List Frame → Node → Prop} {base : List Activation} {m m' : Machine}
  {node : Node}

/-- What stays on the stack stays under way. -/
def Carries (under under' : List Frame → Node → Prop) (m' : Machine) : Prop :=
  ∀ below node, under below node →
    (∃ frame frames, m'.stack = frame :: (frames ++ below)) → under' below node

theorem Sited.carry {heap : Heap} {P : Function → Prop} {stack new : List Frame}
    {active : List Activation} (h : Sited under heap base stack active)
    (hh : heap.Adds P m'.store.heap) (hc : Carries under under' m')
    (hs : m'.stack = new ++ stack) : Sited under' m'.store.heap base stack active := by
  refine h.mono hh fun frame frames below node he hu => hc below node hu ?_
  rw [hs, he]
  cases new with
  | nil => exact ⟨frame, frames, rfl⟩
  | cons f new => exact ⟨f, new ++ frame :: frames, by simp⟩

theorem Sites.functions_step (h : Sites under base m) (settings : Settings) :
    ∀ f fn, (step settings m).store.heap.function? f = some fn → fn.source.Has fn.body := by
  intro f fn hfn
  rcases (adds_step settings m).function f fn hfn with hold | ⟨-, hsource, name, params, span,
    scope, hc⟩
  · exact h.functions f fn hold
  · obtain ⟨-, a, outer, hact, hhas⟩ := h.control _ _ hc
    have ha : m.source = a.source := by simp [source, hact]
    rw [hsource, ha]
    exact hhas.inner (List.mem_singleton_self _)

/-- A step about a node of the innermost source leads to a state that is sited again. -/
theorem Follows.sites {a : Activation} {outer : List Activation} (h : Follows node m m')
    {P : Function → Prop} (hh : m.store.heap.Adds P m'.store.heap)
    (hs : Sited under m.store.heap base m.stack m.active) (hact : m.active = a :: outer)
    (hn : a.source.Has node) (hne : m.stack ≠ []) (hc : Carries under under' m')
    (hu : ∀ frame, m'.stack = frame :: m.stack → under' m.stack node)
    (hbody : ∀ f fn, m.store.heap.function? f = some fn → fn.source.Has fn.body)
    (hfun : ∀ f fn, m'.store.heap.function? f = some fn → fn.source.Has fn.body) :
    Sites under' base m' := by
  have hrest (new : List Frame) (hs' : m'.stack = new ++ m.stack) :
      Sited under' m'.store.heap base m.stack m.active := hs.carry hh hc hs'
  cases h with
  | flow hf hs' ha' | fault _ hf hs' ha' =>
    refine ⟨?_, fun n scope he => by simp [hf] at he, hfun⟩
    rw [hs', ha']
    exact hrest [] hs'
  | @part part scope frame hp hf hcontrol hs' ha' =>
    refine ⟨?_, fun n scope he => ?_, hfun⟩
    · rw [hs', ha', hact]
      exact .frame hf (hu frame hs') hn hne (hact ▸ hrest [frame] hs')
    · obtain ⟨rfl, -⟩ := Control.eval.inj (hcontrol.symm.trans he)
      exact ⟨by simp [hs'], a, outer, ha'.trans hact, hn.inner hp⟩
  | last hp hcontrol hs' ha' =>
    refine ⟨?_, fun n scope he => ?_, hfun⟩
    · rw [hs', ha']
      exact hrest [] hs'
    · obtain ⟨rfl, -⟩ := Control.eval.inj (hcontrol.symm.trans he)
      exact ⟨hs' ▸ hne, a, outer, ha'.trans hact, hn.inner hp⟩
  | @call callee args id f scope he hf hcontrol hs' ha' =>
    refine ⟨?_, fun n scope hn' => ?_, hfun⟩
    · rw [hs', ha']
      have hlt : id < m.store.heap.functions.size := Table.lt_size hf
      refine .call (Nat.lt_of_lt_of_le hlt hh.size) (fun g hg => ?_) (fun b hb => ?_)
        (fun _ => hne) (hrest [_] hs')
      · rcases hh.function id g hg with hg | ⟨hle, -⟩
        · obtain rfl := Option.some.inj (hg.symm.trans hf)
          exact ⟨rfl, rfl⟩
        · exact absurd hlt (Nat.not_lt_of_le hle)
      · obtain rfl : a = b := by simpa [hact] using hb
        exact ⟨node, callee, args, he, hu _ hs', hn, rfl⟩
    · obtain ⟨rfl, -⟩ := Control.eval.inj (hcontrol.symm.trans hn')
      exact ⟨by simp [hs'], _, m.active, ha', hbody id f hf⟩

/-- Code that goes on in the same sources, or not at all. -/
theorem Sited.sites {stack : List Frame} {active : List Activation} {heap : Heap}
    {P : Function → Prop} (h : Sited under heap base stack active)
    (hh : heap.Adds P m'.store.heap) (hc : Carries under under' m') (hs : m'.stack = stack)
    (ha : m'.active = active) (he : ¬ m'.Evaluates)
    (hfun : ∀ f fn, m'.store.heap.function? f = some fn → fn.source.Has fn.body) :
    Sites under' base m' := by
  refine ⟨?_, fun node scope hn => absurd ⟨node, scope, hn⟩ he, hfun⟩
  rw [hs, ha]
  exact h.carry hh hc (hs.trans (List.nil_append _).symm)

theorem not_evaluates_of_flow {f : Flow} (h : m.control = .flow f) : ¬ m.Evaluates := by
  rintro ⟨node, scope, he⟩
  simp [h] at he

/-- A program goes on with its next statement, or ends. -/
theorem Sites.program {rest : List Node} {last : Value} {a : Activation} (hs : m.stack = [])
    (ha : m.active = [a]) (hn : ∀ n ∈ rest, a.source.Has n) (settings : Settings) (f : Flow)
    (hfun : ∀ i fn, (resume settings m (.program rest last) f).store.heap.function? i = some fn →
      fn.source.Has fn.body) :
    Sites under' [a] (resume settings m (.program rest last) f) := by
  have hover (v : Value) (hfun : ∀ i fn, ((m.dropAll [last]).give v).store.heap.function? i =
      some fn → fn.source.Has fn.body) : Sites under' [a] ((m.dropAll [last]).give v) := by
    have hs' : ((m.dropAll [last]).give v).stack = [] := hs
    have ha' : ((m.dropAll [last]).give v).active = [a] := ha
    refine ⟨?_, fun node scope he => absurd ⟨node, scope, he⟩ (not_evaluates_of_flow rfl), hfun⟩
    rw [hs', ha']
    exact .base
  cases f with
  | value v =>
    cases rest with
    | nil => exact hover v hfun
    | cons n rest =>
      have hs' : (resume settings m (.program (n :: rest) last) (.value v)).stack =
          [.program rest v] := congrArg (Frame.program rest v :: ·) hs
      have ha' : (resume settings m (.program (n :: rest) last) (.value v)).active = [a] := ha
      refine ⟨?_, fun node scope he => ?_, hfun⟩
      · rw [hs', ha']
        exact .program rfl fun n hm => hn n (List.mem_cons_of_mem _ hm)
      · obtain ⟨rfl, -⟩ := Control.eval.inj he
        exact ⟨by simp [hs'], a, [], ha, hn n (List.mem_cons_self ..)⟩
  | «return» v => exact hover v hfun
  | «break» => exact hover .nothing hfun
  | «continue» => exact hover .nothing hfun

theorem Sited.resume {frame : Frame}
    (h : Sited under m.store.heap base (frame :: m.stack) m.active)
    (settings : Settings) (f : Flow) (hc : Carries under under' (Machine.resume settings m frame f))
    (hbody : ∀ i fn, m.store.heap.function? i = some fn → fn.source.Has fn.body)
    (hfun : ∀ i fn, (Machine.resume settings m frame f).store.heap.function? i = some fn →
      fn.source.Has fn.body) : Sites under' base (Machine.resume settings m frame f) := by
  have hadds : m.store.heap.Adds (fun _ => False) (Machine.resume settings m frame f).store.heap :=
    adds_resume settings m frame f
  generalize hstack : frame :: m.stack = stack at h
  generalize hactive : m.active = active at h
  cases h with
  | base => simp at hstack
  | program hb hn =>
    obtain ⟨rfl, hs⟩ := List.cons.inj hstack
    subst hb
    exact .program hs hactive hn settings f hfun
  | @frame frame below a outer node hf hu hn hb h =>
    obtain ⟨rfl, rfl⟩ := List.cons.inj hstack
    exact (resume_follows hf settings m f).sites hadds (hactive ▸ h) hactive hn hb hc
      (fun next hs => hc _ node hu ⟨next, [], hs⟩) hbody hfun
  | @call id scope below a outer hid hf ho hb h =>
    obtain ⟨rfl, rfl⟩ := List.cons.inj hstack
    refine h.sites hadds hc rfl ?_ (not_evaluates_of_flow rfl) hfun
    exact congrArg List.tail hactive

theorem Sited.unwind {frame : Frame}
    (h : Sited under m.store.heap base (frame :: m.stack) m.active)
    (settings : Settings) (hc : Carries under under' (Machine.unwind settings m frame))
    (he : ¬ m.Evaluates)
    (hfun : ∀ i fn, (Machine.unwind settings m frame).store.heap.function? i = some fn →
      fn.source.Has fn.body) : Sites under' base (Machine.unwind settings m frame) := by
  have hadds : m.store.heap.Adds (fun _ => False) (Machine.unwind settings m frame).store.heap :=
    adds_unwind settings m frame
  generalize hstack : frame :: m.stack = stack at h
  generalize hactive : m.active = active at h
  cases h with
  | base => simp at hstack
  | program hb hn =>
    obtain ⟨rfl, hs⟩ := List.cons.inj hstack
    exact Sited.base.sites hadds hc hs hactive he hfun
  | @frame frame below a outer node hf hu hn hb h =>
    obtain ⟨rfl, rfl⟩ := List.cons.inj hstack
    have hunwind : Machine.unwind settings m frame = m.dropAll frame.held := by
      cases hf <;> rfl
    rw [hunwind] at hadds hc hfun ⊢
    exact h.sites hadds hc rfl hactive he hfun
  | @call id scope below a outer hid hf ho hb h =>
    obtain ⟨rfl, rfl⟩ := List.cons.inj hstack
    exact h.sites hadds hc rfl (congrArg List.tail hactive) he hfun

theorem Sites.step (h : Sites under base m) (settings : Settings)
    (hc : Carries under under' (Machine.step settings m))
    (hu : ∀ node scope, m.control = .eval node scope →
      ∀ frame, (Machine.step settings m).stack = frame :: m.stack → under' m.stack node) :
    Sites under' base (Machine.step settings m) := by
  have hadds := adds_step settings m
  have hfun := h.functions_step settings
  obtain ⟨control, stack, store, active, depth, out⟩ := m
  cases control with
  | eval node scope =>
    obtain ⟨hne, a, outer, rfl, hn⟩ := h.control node scope rfl
    exact (begin_follows ⟨.flow .continue, stack, store, a :: outer, depth, out⟩ node scope).sites
      hadds h.stack rfl hn hne hc (hu node scope rfl) h.functions hfun
  | flow f =>
    cases stack with
    | nil => exact h.stack.sites hadds hc rfl rfl (not_evaluates_of_flow rfl) hfun
    | cons frame stack =>
      exact Sited.resume (m := ⟨.flow .continue, stack, store, active, depth, out⟩) h.stack
        settings f hc h.functions hfun
  | failed d =>
    have he (stack : List Frame) :
        ¬ Evaluates ⟨.failed d, stack, store, active, depth, out⟩ := by simp [Evaluates]
    cases stack with
    | nil => exact h.stack.sites hadds hc rfl rfl (he []) hfun
    | cons frame stack =>
      exact Sited.unwind (m := ⟨.failed d, stack, store, active, depth, out⟩) h.stack settings hc
        (he stack) hfun

end

/-! ## Runs -/

theorem carries_underway (settings : Settings) (first : Machine) (k : Nat) :
    Carries (Underway settings first k) (Underway settings first (k + 1))
      (step settings (steps settings k first)) := by
  intro below node hu hs
  rw [← steps_succ] at hs
  exact hu.succ hs

theorem Sites.steps {base : List Activation} (settings : Settings)
    (h : Sites (Underway settings first 0) base first) (k : Nat) :
    Sites (Underway settings first k) base (Machine.steps settings k first) := by
  induction k with
  | zero => exact h
  | succ k ih =>
    rw [steps_succ]
    refine ih.step settings (carries_underway settings first k) fun node scope he frame hs => ?_
    exact (Underway.start he).succ ⟨frame, [], by rw [steps_succ, hs]; rfl⟩

section

variable {under : List Frame → Node → Prop} {s : Store}

theorem sites_ofProgram {source : Source} {program : Program}
    (hp : source.program = .ok program)
    (hf : ∀ f fn, s.heap.function? f = some fn → fn.source.Has fn.body) :
    Sites under [⟨Activation.programName, source, none⟩] (ofProgram s source program) :=
  ⟨.program rfl fun n hn => ⟨program, hp, n, hn, .self n⟩,
    fun node scope he => absurd ⟨node, scope, he⟩ (not_evaluates_of_flow rfl), hf⟩

/-- A call is opened for a function, or there is nothing left to be done. -/
theorem apply_opens (limit : Nat) (m : Machine) (callee : Value) (args : List Value) (span : Span) :
    (apply limit m callee args span).Finished m.stack ∧
        (apply limit m callee args span).active = m.active ∨
      ∃ id f scope, m.store.heap.function? id = some f ∧
        (apply limit m callee args span).control = .eval f.body scope ∧
        (apply limit m callee args span).stack = .call (.function id) scope :: m.stack ∧
        (apply limit m callee args span).active =
          ⟨f.displayName, f.source, some span⟩ :: m.active := by
  have hrefuse (fault : Fault) (vs : List Value) :
      ((m.dropAll vs).fail fault span).Finished m.stack :=
    ⟨rfl, fun ⟨_, _, he⟩ => nomatch he⟩
  unfold apply
  split
  · unfold applyBuiltin
    split
    · exact .inl ⟨hrefuse _ _, rfl⟩
    · dsimp only
      split
      · exact .inl ⟨⟨rfl, not_evaluates_of_flow rfl⟩, rfl⟩
      · exact .inl ⟨⟨rfl, fun ⟨_, _, he⟩ => nomatch he⟩, rfl⟩
  · split
    · unfold applyFunction
      split
      · exact .inl ⟨hrefuse _ _, rfl⟩
      · split
        · exact .inl ⟨hrefuse _ _, rfl⟩
        · exact .inr ⟨_, _, _, ‹_›, rfl, rfl, rfl⟩
    · exact .inl ⟨hrefuse _ _, rfl⟩
  · exact .inl ⟨hrefuse _ _, rfl⟩

theorem sites_ofCall (hf : ∀ f fn, s.heap.function? f = some fn → fn.source.Has fn.body)
    (limit : Nat) (callee : Value) (args : List Value) (span : Span) :
    Sites under [] (ofCall limit s callee args span) := by
  have hadds : s.heap.Adds (fun _ => False) (ofCall limit s callee args span).store.heap :=
    adds_apply limit ⟨.flow .continue, [], s, [], 0, ""⟩ callee args span
  have hfun : ∀ f fn, (ofCall limit s callee args span).store.heap.function? f = some fn →
      fn.source.Has fn.body :=
    fun f fn h => hf f fn ((hadds.function f fn h).resolve_right And.right)
  have hcarry : Carries under under (ofCall limit s callee args span) := fun _ _ hu _ => hu
  have hbase : Sited under s.heap [] [] [] := .base
  rcases apply_opens limit ⟨.flow .continue, [], s, [], 0, ""⟩ callee args span with
    ⟨hdone, ha⟩ | ⟨id, f, scope, hid, hc, hs, ha⟩
  · exact hbase.sites hadds hcarry hdone.1 ha hdone.2 hfun
  · refine ⟨?_, fun node scope' he => ?_, hfun⟩
    · rw [ofCall, hs, ha]
      have hlt : id < s.heap.functions.size := Table.lt_size hid
      refine .call (Nat.lt_of_lt_of_le hlt hadds.size) (fun g hg => ?_) (by simp) (by simp) .base
      have hg := (hadds.function id g hg).resolve_right And.right
      obtain rfl := Option.some.inj (hg.symm.trans hid)
      exact ⟨rfl, rfl⟩
    · obtain ⟨rfl, -⟩ := Control.eval.inj (hc.symm.trans he)
      exact ⟨by simp [ofCall, hs], _, _, ha, hf id f hid⟩

end

end Machine

end Scriptlet

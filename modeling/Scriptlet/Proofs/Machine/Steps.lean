import Scriptlet.Proofs.Machine.Ready
import Scriptlet.Machine.Run

/-!
# Every step keeps a state sound

One lemma for each part of a step says which values the machine must have in
hand for it, and that the state after it is sound.
-/

set_option autoImplicit false

namespace Scriptlet.Machine

variable {reclaim : Bool} {host vs ws : List Value} {m m' : Machine}

namespace Ready

/-! ## Loops -/

theorem finishLoop (h : m.Ready reclaim host vs) (body : Node)
    (hb : body.isBlock = true → vs = []) :
    (m.finishLoop body vs).Sound reclaim host := by
  unfold Machine.finishLoop
  split
  · rename_i hblock
    obtain rfl := hb hblock
    exact h.givePlain rfl
  · exact h.giveList

theorem collect {v : Value} (h : m.Ready reclaim host (v :: (vs ++ ws))) (body : Node)
    (hb : body.isBlock = true → vs = []) :
    (m.collect body vs v).2.Ready reclaim host ((m.collect body vs v).1 ++ ws) ∧
      (m.collect body vs v).2.stack = m.stack ∧
      (body.isBlock = true → (m.collect body vs v).1 = []) := by
  unfold Machine.collect
  split
  · rename_i hblock
    exact ⟨Ready.dropAll [v] h, rfl, hb⟩
  · rename_i hblock
    exact ⟨h, rfl, fun hc => absurd hc hblock⟩

theorem define {v : Value} (h : m.Ready reclaim host (v :: vs)) (scope : ScopeId) (name : String) :
    (m.define scope name v).Ready reclaim host vs := by
  have hs : m.store.Sound (v.ref?.toList ++
      Value.refs (vs ++ (m.stack.flatMap Frame.held ++ host))) := by
    simpa using h.sound
  exact h.restore m.control vs hs.define hs.define_steady

theorem turn (h : m.Ready reclaim host vs) (loop : ForLoop) (pace : Pace)
    (hs : loop.scope = here m.stack) (hb : loop.body.isBlock = true → vs = []) :
    (m.turn loop pace vs).Sound reclaim host := by
  unfold Machine.turn
  dsimp only
  generalize (if pace.step.toFloat > 0.0 then decide (pace.counter.toFloat < pace.limit)
    else decide (pace.counter.toFloat > pace.limit)) = short
  cases short with
  | true =>
    exact (Ready.define (h.plain rfl) loop.scope loop.var).enter (f := .forBody loop pace vs)
      rfl rfl (Frame.fitsIn_loop rfl rfl hs hb) loop.body hs
  | false => exact h.finishLoop loop.body hb

theorem refuseBound (h : m.Ready reclaim host vs) (v : Value) (span : Span) :
    (m.refuseBound v span vs).Sound reclaim host :=
  (dropAll vs (h.perm (by simp))).fail _ _

theorem startFor {start stop step : Value} (h : m.Ready reclaim host [start, stop, step])
    (loop : ForLoop) (hs : loop.scope = here m.stack) :
    (m.startFor loop start stop step).Sound reclaim host := by
  unfold Machine.startFor
  split
  · have hnone : m.Ready reclaim host [] :=
      ⟨h.sound.congr fun r => by simp [Value.ref?], h.called, h.tiled, h.placed⟩
    exact hnone.turn loop _ hs fun _ => rfl
  · exact h.refuseBound _ _
  · exact h.refuseBound _ _
  · exact h.refuseBound _ _

/-! ## Calls -/

/-- Refused values are let go. -/
theorem refuse (h : m.Ready reclaim host vs) (fault : Fault) (span : Span) :
    ((m.dropAll vs).fail fault span).Sound reclaim host :=
  (dropAll vs (h.perm (by simp))).fail fault span

theorem bindAll_sound (scope : ScopeId) {s : Store} {outer : List Ref} {params : List String}
    {args : List Value} (hl : params.length = args.length)
    (hs : s.Sound (Value.refs args ++ outer)) :
    (bindAll scope params args s).Sound outer ∧ s.Steady (bindAll scope params args s) := by
  induction params generalizing s args with
  | nil =>
    obtain rfl : args = [] := List.length_eq_zero_iff.mp hl.symm
    exact ⟨hs, .refl s⟩
  | cons p params ih =>
    cases args with
    | nil => simp at hl
    | cons v args =>
      have hone : s.Sound (v.ref?.toList ++ (Value.refs args ++ outer)) := by simpa using hs
      have hdefine : (s.define scope p v).Sound (Value.refs args ++ outer) := hone.define
      obtain ⟨hs', hst⟩ := ih (by simpa using hl) hdefine
      exact ⟨hs', hone.define_steady.trans hst⟩

/-- The scope of a call is made while the callee is still held. -/
theorem child_sound {f : Function} {id : FunctionId} {args : List Value}
    (h : m.Ready reclaim host (.function id :: args)) (hf : m.store.heap.function? id = some f) :
    (m.store.child f.scope).2.Sound (Value.refs args ++
      Value.refs (.function id :: (m.stack.flatMap Frame.held ++ host))) := by
  have hs := h.sound
  obtain ⟨hd, hh⟩ := (hs.regular.function_standing hf).holds
  have hserial : f.scope.serial < m.store.created := hh.2 ▸ hs.regular.serial_lt _ _ hh.1
  exact (hs.child hserial).congr fun r => by simp; omega

theorem enterCall {f : Function} {id : FunctionId} {args : List Value}
    (h : m.Ready reclaim host (.function id :: args)) (hf : m.store.heap.function? id = some f)
    (hl : f.params.length = args.length) (span : Span) :
    (m.enterCall f (.function id) args span).Sound reclaim host := by
  have hs := h.sound
  have hchild := h.child_sound hf
  obtain ⟨hbound, hst⟩ := bindAll_sound (m.store.child f.scope).1 hl hchild
  have hkeep := (hs.child_keeps f.scope).trans_steady (by rw [Store.child_heap]) hst
  have hcalls : calls (.call (.function id) (m.store.child f.scope).1 :: m.stack) =
      (.function id, (m.store.child f.scope).1) :: calls m.stack := by
    simp [calls, Frame.call?]
  refine ⟨⟨hbound.congr fun r => ?_, fun c hc => ?_, fun hr => ?_,
    Frame.fitsIn_anywhere rfl rfl, h.placed⟩, fun _ _ he => ?_⟩
  · simp [Machine.enterCall, Control.held, Frame.held]
  · rcases List.mem_cons.mp (hcalls ▸ hc) with rfl | hc
    · obtain ⟨f', hf'⟩ := Option.isSome_iff_exists.mp
        (hbound.live_outer (r := .function id) (by simp [Value.ref?]))
      obtain rfl : f' = f := hkeep.function id f f' hf hf'
      obtain ⟨hd', hh', hp⟩ := hst.keeps.holds _ _ (hs.child_holds f'.scope)
      exact ⟨id, f', hd', rfl, hf', hh', hp⟩
    · refine hkeep.called hbound (h.called c hc) fun r hr => ?_
      exact Value.mem_refs.mpr ⟨c.1, by simp [mem_held_of_call hc], hr⟩
  · have ht := hs.child_tiled (h.tiled hr) (fun id hid => ?_) f.scope
    · have := hst.tiled ht
      simpa only [Machine.enterCall, hcalls, List.map_cons] using this
    · obtain ⟨c, hc, rfl⟩ := List.mem_map.mp hid
      obtain ⟨_, _, hd, -, -, hh, -⟩ := h.called c hc
      exact ⟨hd, hh⟩
  · have hcontrol : (m.enterCall f (.function id) args span).control =
        .eval f.body (m.store.child f.scope).1 := rfl
    rw [← (Control.eval.inj (hcontrol.symm.trans he)).2]
    change _ = here (.call (.function id) (m.store.child f.scope).1 :: m.stack)
    simp only [here, hcalls, List.head?_cons, Option.map_some, Option.getD_some]

theorem applyFunction {f : Function} {id : FunctionId} {args : List Value}
    (h : m.Ready reclaim host (.function id :: args)) (hf : m.store.heap.function? id = some f)
    (limit : Nat) (span : Span) :
    (Machine.applyFunction limit m f (.function id) args span).Sound reclaim host := by
  unfold Machine.applyFunction
  split
  · exact h.refuse _ _
  · split
    · exact h.refuse _ _
    · exact h.enterCall hf (not_not.mp ‹_›) span

theorem applyBuiltin {b : Builtin} {args : List Value} (h : m.Ready reclaim host args)
    (span : Span) : (m.applyBuiltin b args span).Sound reclaim host := by
  unfold Machine.applyBuiltin
  split
  · exact h.refuse _ _
  · obtain ⟨hs, hst⟩ := h.sound.builtin b h.live
    dsimp only
    cases hres : (b.apply m.store.heap args).result with
    | ok v =>
      have hs' : Store.Sound { m.store with heap := (b.apply m.store.heap args).heap }
          (Value.refs args ++ Value.refs ([v] ++ (m.stack.flatMap Frame.held ++ host))) :=
        hs.congr fun r => by simp [Store.resultRefs, hres]; omega
      exact (h.restore m.control [v] hs'.dropAll (hst.trans hs'.dropAll_steady)).give
    | error fault =>
      have hs' : Store.Sound { m.store with heap := (b.apply m.store.heap args).heap }
          (Value.refs args ++ Value.refs ([] ++ (m.stack.flatMap Frame.held ++ host))) :=
        hs.congr fun r => by simp [Store.resultRefs, hres]
      exact (h.restore m.control [] hs'.dropAll (hst.trans hs'.dropAll_steady)).fail fault span

theorem apply {callee : Value} {args : List Value} (h : m.Ready reclaim host (callee :: args))
    (limit : Nat) (span : Span) : (Machine.apply limit m callee args span).Sound reclaim host := by
  unfold Machine.apply
  dsimp only
  split
  · rename_i b
    have hargs : m.Ready reclaim host args :=
      ⟨h.sound.congr fun r => by simp [Value.ref?], h.called, h.tiled, h.placed⟩
    exact hargs.applyBuiltin span
  · split
    · exact h.applyFunction ‹_› limit span
    · exact h.refuse _ _
  · exact h.refuse _ _

/-! ## Operators -/

theorem applyBinary {a b : Value} (h : m.Ready reclaim host [a, b]) (op : BinaryOp)
    (rightSpan span : Span) : (m.applyBinary op a b rightSpan span).Sound reclaim host := by
  unfold Machine.applyBinary
  split
  · exact h.refuse _ _
  · split
    · exact h.refuse _ _
    · rename_i c hc
      obtain ⟨hs, hst⟩ := h.sound.make (c := c) fun r hr => by
        obtain ⟨v, hv, hvr⟩ := Value.mem_refs.mp hr
        exact h.sound.live_known h.live (Operator.binary_known hc v hv) r hvr
      have hs' : Store.Sound { m.store with heap := (m.store.heap.make c).2 }
          (Value.refs [a, b] ++ Value.refs ([(m.store.heap.make c).1] ++
            (m.stack.flatMap Frame.held ++ host))) :=
        hs.congr fun r => by simp; omega
      exact (h.restore m.control [(m.store.heap.make c).1] hs'.dropAll
        (hst.trans hs'.dropAll_steady)).give

theorem applyUnary {v : Value} (h : m.Ready reclaim host [v]) (op : UnaryOp) (span : Span) :
    (m.applyUnary op v span).Sound reclaim host := by
  unfold Machine.applyUnary
  split
  · exact h.refuse _ _
  · exact Ready.givePlain (dropAll [v] h) (Operator.unary_known ‹_›)

theorem applyIndex {target place : Value} (h : m.Ready reclaim host [target, place])
    (span : Span) : (m.applyIndex target place span).Sound reclaim host := by
  unfold Machine.applyIndex
  split
  · exact h.refuse _ _
  · rename_i v hv
    have hs := h.sound.keep (h.sound.live_known h.live (Operator.index_known hv))
    have hs' : (m.store.keep v).Sound (Value.refs [target, place] ++
        Value.refs ([v] ++ (m.stack.flatMap Frame.held ++ host))) :=
      hs.congr fun r => by simp; omega
    exact (h.restore m.control [v] hs'.dropAll
      ((Store.keep_steady _ v).trans hs'.dropAll_steady)).give

/-! ## Expressions -/

theorem makeFunction (h : m.Ready reclaim host []) (name : Option String) (params : List Param)
    (body : Node) {scope : ScopeId} (hs : m.store.Standing scope) :
    (m.makeFunction name params body scope).Sound reclaim host := by
  obtain ⟨hv, hsound, hst⟩ :=
    h.sound.defineFunction hs name (params.map Param.name) body m.source
  have hs' : (m.store.defineFunction scope name (params.map Param.name) body m.source).2.Sound
      (Value.refs ([(m.store.defineFunction scope name (params.map Param.name) body m.source).1] ++
        (m.stack.flatMap Frame.held ++ host))) := by
    rw [hv]
    exact hsound.congr fun r => by simp [Value.ref?]
  exact (h.restore m.control [_] hs' hst).give

/-- The scope that code runs in stands. -/
theorem standing_here (h : m.Ready reclaim host vs) : m.store.Standing (here m.stack) := by
  unfold here
  cases hc : calls m.stack with
  | nil => exact h.sound.regular.standing_global
  | cons c cs =>
    obtain ⟨f, fn, hd, -, hf, hh, hp⟩ := h.called c (by simp [hc])
    obtain ⟨above, hchain⟩ := h.sound.regular.function_standing hf
    exact ⟨_, .inside hh hp hchain⟩

theorem begin (h : m.Ready reclaim host []) (node : Node) {scope : ScopeId}
    (hs : scope = here m.stack) : (m.begin node scope).Sound reclaim host := by
  obtain ⟨expr, span⟩ := node
  cases expr with
  | int n => exact h.givePlain rfl
  | float x => exact h.givePlain rfl
  | text t => exact h.givePlain rfl
  | list items =>
    cases items with
    | nil => exact h.giveList
    | cons item rest => exact h.enter rfl rfl (Frame.fitsIn_of_scope rfl rfl hs) item hs
  | var name =>
    simp only [Machine.begin]
    split
    · rename_i v hv
      have hk := h.sound.keep (h.sound.live_get? hv)
      have hs' : (m.store.keep v).Sound
          (Value.refs ([v] ++ (m.stack.flatMap Frame.held ++ host))) :=
        hk.congr fun r => by simp
      exact (h.restore m.control [v] hs' (Store.keep_steady _ v)).give
    · exact h.fail _ _
  | assign name value declare => exact h.enter rfl rfl (Frame.fitsIn_of_scope rfl rfl hs) value hs
  | binary op left right => exact h.enter rfl rfl (Frame.fitsIn_of_scope rfl rfl hs) left hs
  | unary op operand => exact h.enter rfl rfl (Frame.fitsIn_anywhere rfl rfl) operand hs
  | ifElse branches otherwise => exact h.choose branches otherwise hs
  | forTo var start stop step body =>
    exact h.enter rfl rfl (Frame.fitsIn_of_scope rfl rfl hs) start hs
  | whileDo test body =>
    exact h.enter rfl rfl (Frame.fitsIn_loop rfl rfl hs fun _ => rfl) test hs
  | function name params body => exact h.makeFunction name params body (hs ▸ h.standing_here)
  | call callee args => exact h.enter rfl rfl (Frame.fitsIn_of_scope rfl rfl hs) callee hs
  | index target place => exact h.enter rfl rfl (Frame.fitsIn_of_scope rfl rfl hs) target hs
  | «return» value =>
    cases value with
    | none => exact (h.plain (v := .nothing) rfl).signal rfl
    | some value => exact h.enter rfl rfl (Frame.fitsIn_anywhere rfl rfl) value hs
  | «continue» => exact h.signal rfl
  | «break» => exact h.signal rfl
  | block body => exact h.statements body hs

/-! ## Frames -/

theorem resumeValue {frame : Frame} {v : Value} (h : m.Ready reclaim host (v :: frame.held))
    (hc : frame.call? = none) (hf : frame.FitsIn (here m.stack)) (limit : Nat) :
    (Machine.resumeValue limit m frame v).Sound reclaim host := by
  cases frame with
  | listItem done rest scope =>
    have hs : scope = here m.stack := hf.1 scope rfl
    cases rest with
    | nil => exact giveList h
    | cons item rest => exact enter h rfl rfl (Frame.fitsIn_of_scope rfl rfl hs) item hs
  | assign name declare scope =>
    have hk := h.sound.keep (v := v) fun r hr => h.live r (by simp [Option.mem_def.mp hr])
    have hk' : (m.store.keep v).Sound (v.ref?.toList ++
        Value.refs ([v] ++ (m.stack.flatMap Frame.held ++ host))) := hk
    exact (h.restore m.control [v] hk'.assign
      ((Store.keep_steady _ v).trans hk'.assign_steady)).give
  | leftOperand op right scope span =>
    have hs : scope = here m.stack := hf.1 scope rfl
    have hholding : (m.enter (.holding v) right scope).Sound reclaim host :=
      enter h rfl rfl (Frame.fitsIn_anywhere rfl rfl) right hs
    cases op with
    | and =>
      simp only [Machine.resumeValue]
      split
      · exact hholding
      · exact give h
    | or =>
      simp only [Machine.resumeValue]
      split
      · exact give h
      · exact hholding
    | _ => exact enter h rfl rfl (Frame.fitsIn_anywhere rfl rfl) right hs
  | rightOperand op left rightSpan span =>
    exact applyBinary (h.perm (List.Perm.swap left v [])) op rightSpan span
  | operand op span => exact applyUnary h op span
  | condition body rest otherwise scope =>
    have hs : scope = here m.stack := hf.1 scope rfl
    simp only [Machine.resumeValue]
    split
    · exact enter h rfl rfl (Frame.fitsIn_anywhere rfl rfl) body hs
    · exact choose (dropAll [v] h) rest otherwise hs
  | holding w => exact give (dropAll [w] (h.perm (List.Perm.swap w v [])))
  | whileTest loop results =>
    have hs : loop.scope = here m.stack := hf.1 _ rfl
    have hb : loop.body.isBlock = true → results = [] := hf.2 _ rfl
    simp only [Machine.resumeValue]
    split
    · exact enter h rfl rfl (Frame.fitsIn_loop rfl rfl hs hb) loop.body hs
    · exact finishLoop (dropAll [v] h) loop.body hb
  | whileBody loop results test =>
    have hs : loop.scope = here m.stack := hf.1 _ rfl
    have hb : loop.body.isBlock = true → results = [] := hf.2 _ rfl
    have hin : m.Ready reclaim host (v :: (results ++ [test])) :=
      h.perm (List.Perm.cons v (List.perm_append_singleton test results).symm)
    obtain ⟨hr, hstack, hb'⟩ := hin.collect loop.body hb
    have hd := dropAll [test] (hr.perm List.perm_append_comm)
    have hs' : loop.scope = here (m.collect loop.body results v).2.stack := hstack ▸ hs
    exact enter hd rfl rfl (Frame.fitsIn_loop rfl rfl hs' hb') loop.test hs'
  | forStart loop =>
    have hs : loop.scope = here m.stack := hf.1 _ rfl
    exact enter h rfl rfl (Frame.fitsIn_of_scope rfl rfl hs) loop.stop hs
  | forStop loop start =>
    have hs : loop.scope = here m.stack := hf.1 _ rfl
    have hin := h.perm (List.Perm.swap start v [])
    simp only [Machine.resumeValue]
    split
    · exact enter hin rfl rfl (Frame.fitsIn_of_scope rfl rfl hs) _ hs
    · have hone : m.Ready reclaim host [.int 1, start, v] := hin.plain rfl
      exact startFor (hone.perm (List.perm_append_singleton _ [start, v]).symm) loop hs
  | forStep loop start stop =>
    have hs : loop.scope = here m.stack := hf.1 _ rfl
    exact startFor (h.perm (List.perm_append_singleton v [start, stop]).symm) loop hs
  | forBody loop pace results =>
    have hs : loop.scope = here m.stack := hf.1 _ rfl
    have hb : loop.body.isBlock = true → results = [] := hf.2 _ rfl
    have hin : m.Ready reclaim host (v :: (results ++ [])) := h.perm (by simp [Frame.held])
    obtain ⟨hr, hstack, hb'⟩ := hin.collect loop.body hb
    rw [List.append_nil] at hr
    exact turn hr loop _ (hstack ▸ hs) hb'
  | callee args scope span =>
    have hs : scope = here m.stack := hf.1 scope rfl
    cases args with
    | nil => exact apply h limit span
    | cons arg rest => exact enter h rfl rfl (Frame.fitsIn_of_scope rfl rfl hs) arg hs
  | argument callee done rest scope span =>
    have hs : scope = here m.stack := hf.1 scope rfl
    have hin : m.Ready reclaim host (callee :: v :: done) := h.perm (List.Perm.swap callee v done)
    cases rest with
    | nil => exact apply (hin.perm (List.Perm.cons _ (List.reverse_perm _).symm)) limit span
    | cons arg rest => exact enter hin rfl rfl (Frame.fitsIn_of_scope rfl rfl hs) arg hs
  | call callee scope => simp [Frame.call?] at hc
  | indexTarget place scope span =>
    have hs : scope = here m.stack := hf.1 scope rfl
    exact enter h rfl rfl (Frame.fitsIn_anywhere rfl rfl) place hs
  | indexPlace target span => exact applyIndex (h.perm (List.Perm.swap target v [])) span
  | returned => exact signal h rfl
  | block rest scope =>
    exact statements (dropAll [v] h) rest (hf.1 scope rfl)
  | program rest last =>
    have hd := dropAll [last] (h.perm (List.Perm.swap last v []))
    cases rest with
    | nil => exact give hd
    | cons statement rest =>
      have hs : Store.global = here m.stack := hf.1 _ rfl
      exact enter hd rfl rfl (Frame.fitsIn_of_scope rfl rfl hs) statement hs

/-- What the end of a call's scope leaves, whether or not the scope is given back. -/
theorem finish {callee : Value} {scope : ScopeId} {c : Control} {stack : List Frame}
    {store : Store} {active : List Activation} {depth : Nat} {out : String}
    (h : Ready reclaim host vs ⟨c, .call callee scope :: stack, store, active, depth, out⟩) :
    (store.finish reclaim scope).Sound (Value.refs [callee] ++
        Value.refs (vs ++ (stack.flatMap Frame.held ++ host))) ∧
      (∀ d ∈ calls stack, (store.finish reclaim scope).Called d) ∧
      (reclaim = true → (store.finish reclaim scope).Tiled ((calls stack).map Prod.snd)) ∧
      (store.finish reclaim scope).Within store := by
  have hcalls : calls (.call callee scope :: stack) = (callee, scope) :: calls stack := by
    simp [calls, Frame.call?]
  have hsplit (r : Ref) : (Value.refs [callee] ++
      Value.refs (vs ++ (stack.flatMap Frame.held ++ host))).count r =
      (Value.refs (vs ++ ((.call callee scope :: stack).flatMap Frame.held ++ host))).count r := by
    simp [Frame.held]
    omega
  cases reclaim with
  | true =>
    have hsweep := h.sweepable
    rw [hcalls] at hsweep
    obtain ⟨hrel, hwithin⟩ := hsweep.release
    exact ⟨hrel.sound.congr hsplit, hrel.called, fun _ => hrel.tiled, hwithin⟩
  | false =>
    exact ⟨h.sound.congr hsplit, fun d hd => h.called d (by simp [hcalls, hd]),
      (absurd · Bool.false_ne_true), .refl store⟩

/-- The end of a call. -/
theorem endCall {callee : Value} {scope : ScopeId} {c c' : Control} {stack : List Frame}
    {store : Store} {active : List Activation} {depth : Nat} {out : String}
    (h : Ready reclaim host vs ⟨c, .call callee scope :: stack, store, active, depth, out⟩) :
    (Machine.endCall reclaim ⟨c', stack, store, active, depth, out⟩ callee scope).Ready
      reclaim host vs := by
  obtain ⟨hs, hcalled, htiled, -⟩ := h.finish
  have hst := hs.dropAll_steady
  have hdrop : (Machine.endCall reclaim ⟨c', stack, store, active, depth, out⟩ callee scope).store =
      (store.finish reclaim scope).dropAll [callee] := Store.drop_eq_dropAll _ _
  refine ⟨?_, fun d hd => ?_, fun hr => ?_, h.placed.2⟩
  · rw [hdrop]
    exact hs.dropAll
  · have hd : d ∈ calls stack := hd
    rw [hdrop]
    refine hst.keeps.called hs.dropAll (hcalled d hd) fun r hr => ?_
    exact Value.mem_refs.mpr ⟨d.1, by simp [mem_held_of_call hd], hr⟩
  · rw [hdrop]
    exact hst.tiled (htiled hr)

end Ready

end Scriptlet.Machine

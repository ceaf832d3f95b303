import Scriptlet.Proofs.Machine.Sequel
import Scriptlet.Proofs.Machine.Signals
import Scriptlet.Session

/-!
# Programs that send no signals

A program whose statements send no signal evaluates all of them, one after the
other, if it ends without an error, and its value is that of the last.
-/

set_option autoImplicit false

namespace Scriptlet

namespace Machine

variable {settings : Settings} {m e : Machine} {below : List Frame} {statements : List Node}
  {v w last : Value}

/-- From a state that has the statements of a program before it, each gives a value in the global
scope, one after the other; then the program ends. -/
inductive Performs (settings : Settings) : List Node → Machine → List Value → Machine → Prop where
  | ended {m : Machine} {v last : Value} (hc : m.control = .flow (.value v))
      (hs : m.stack = [.program [] last]) : Performs settings [] m [] (step settings m)
  | statement {m e e' : Machine} {n : Node} {rest : List Node} {v w : Value} {values : List Value}
      (hc : (step settings m).control = .eval n Store.global)
      (hs : (step settings m).stack = [.program rest w])
      (hn : Gives settings n Store.global (step settings m) v e)
      (h : Performs settings rest e values e') : Performs settings (n :: rest) m (v :: values) e'

open Classical in
/-- In a run that ends, all that is to be done above a part of the stack gets done. -/
theorem Ends.reaches (h : Ends settings m e) (hs : m.stack = below) :
    ∃ e', Reaches settings below m e' := by
  obtain ⟨count, hrun⟩ := h
  obtain ⟨⟨n, rfl⟩, ho⟩ := runFor_eq_steps hrun
  have hend := finished_of_outcome ho
  have hdone : ∃ j, (steps settings j m).Finished below := by
    by_contra hnever
    have hover : (steps settings n m).Over below m.depth m.active :=
      Over.steps (hs ▸ Over.refl m) fun j _ hj => hnever ⟨j, hj⟩
    obtain ⟨frames, -, hstack, -⟩ := hover
    obtain ⟨-, rfl⟩ := List.append_eq_nil_iff.mp (hstack.symm.trans hend.1)
    exact hnever ⟨n, hend⟩
  exact ⟨_, Nat.find hdone, rfl, Nat.find_spec hdone, fun j hj => Nat.find_min hdone hj⟩

/-- What a run that ends has reached above a part of the stack is on the way to its end. -/
theorem Reaches.ends {k : Machine} (h : Reaches settings below m k) (hb : below ≠ [])
    (he : Ends settings m e) : Ends settings k e := by
  obtain ⟨n, rfl, hk, -⟩ := h
  refine (ends_steps fun i hi => ?_).mp he
  by_contra ho
  have hend := finished_of_outcome (Option.isSome_iff_ne_none.mpr ho)
  obtain ⟨j, rfl⟩ := Nat.exists_eq_add_of_lt hi
  rw [Nat.add_assoc, steps_add, hend.steps_eq] at hk
  exact hb (hk.1.symm.trans hend.1)

/-- What comes to a program from its last statement is its value. -/
theorem Ends.of_last (h : Ends settings m e) (hv : e.outcome? = some (.ok v))
    (hc : m.control = .flow (.value w)) (hs : m.stack = [.program [] last]) :
    e = step settings m ∧ v = w := by
  have hafter := (ends_step (outcome?_of_stack (by simp [hs]))).mp h
  rw [step_value hc hs] at hafter ⊢
  obtain ⟨count, hrun⟩ := hafter
  obtain rfl := runFor_of_outcome hrun rfl
  exact ⟨rfl, (Except.ok.inj (Option.some.inj hv)).symm⟩

/-- A statement that sends no signal gives a value, in a run that ends with one. -/
theorem Ends.gives {n : Node} {scope : ScopeId} {rest : List Node} (h : Ends settings m e)
    (hv : e.outcome? = some (.ok v)) (hc : m.control = .eval n scope)
    (hs : m.stack = [.program rest last]) (hn : ∀ s, ¬ n.Sends s) :
    ∃ x k, Gives settings n scope m x k ∧ Ends settings k e := by
  obtain ⟨k, hk⟩ := h.reaches rfl
  have hnode : Reaches settings m.stack { m with control := .eval n scope } k := by
    rwa [← hc]
  have hends := hk.ends (by simp [hs]) h
  cases hkc : k.control with
  | eval node scope => exact absurd ⟨node, scope, hkc⟩ hk.finished.2
  | failed d =>
    have hks : k.stack = [.program rest last] := hk.finished.1.trans hs
    obtain ⟨count, hrun⟩ := (ends_step (outcome?_of_stack (by simp [hks]))).mp hends
    exact absurd hv (not_ok_of_failed hkc hks hrun)
  | flow f =>
    cases hf : f.signal? with
    | some s => exact absurd (hnode.sends hkc hf) (hn s)
    | none =>
      cases f with
      | value x => exact ⟨x, k, ⟨hnode, hkc⟩, hends⟩
      | _ => simp [Flow.signal?] at hf

/-- A program whose statements send no signal performs them all, if it ends with a value, and its
value is that of the last. -/
theorem Ends.performs (h : Ends settings m e) (hv : e.outcome? = some (.ok v))
    (hc : m.control = .flow (.value w)) (hs : m.stack = [.program statements last])
    (hn : ∀ n ∈ statements, ∀ s, ¬ n.Sends s) :
    ∃ values, Performs settings statements m values e ∧ v = values.getLastD w := by
  induction statements generalizing m w last with
  | nil =>
    obtain ⟨rfl, rfl⟩ := h.of_last hv hc hs
    exact ⟨[], .ended hc hs, rfl⟩
  | cons n rest ih =>
    have hafter := (ends_step (outcome?_of_stack (by simp [hs]))).mp h
    have hnext : (step settings m).control = .eval n Store.global ∧
        (step settings m).stack = [.program rest w] := by
      rw [step_value hc hs]
      exact ⟨rfl, rfl⟩
    obtain ⟨x, k, hx, hk⟩ := hafter.gives hv hnext.1 hnext.2 (hn n (List.mem_cons_self ..))
    obtain ⟨values, hvalues, rfl⟩ := ih hk hx.value (hx.finished.trans hnext.2)
      fun a ha => hn a (List.mem_cons_of_mem _ ha)
    exact ⟨x :: values, .statement hnext.1 hnext.2 hx hvalues, List.getLastD_cons.symm⟩

end Machine

namespace Session

/-- A node that ends with a signal sends it. So a program that sends none, and ends without an
error, performs all of its statements, and has the value of the last. -/
theorem signals_from_statements :
    (∀ (settings : Settings) (m e : Machine) (node : Node) (scope : ScopeId) (f : Flow)
      (s : Signal), Machine.Reaches settings m.stack { m with control := .eval node scope } e →
        e.control = .flow f → f.signal? = some s → node.Sends s) ∧
    ∀ (count : Nat) (session next : Session) (source : Source) (program : Program) (r : Report)
      (v : Value), (∀ n ∈ program.statements, ∀ s, ¬ n.Sends s) →
        session.runProgramFor count source program = some (r, next) → r.result = .ok v →
        ∃ values last, Machine.Performs session.settings program.statements
            (.ofProgram session.store source program) values last ∧
          (r, next) = afterProgram session.settings last ∧ v = values.getLastD .nothing := by
  refine ⟨fun settings m e node scope f s => Machine.Reaches.sends, ?_⟩
  intro count session next source program r v hn hrun hv
  obtain ⟨last, hlast, he⟩ := Option.map_eq_some_iff.mp hrun
  obtain ⟨o, ho⟩ := Option.isSome_iff_exists.mp (Machine.runFor_eq_steps hlast).2
  obtain rfl : o = .ok v := by
    obtain ⟨rfl, -⟩ := Prod.mk.inj he
    simpa [report, ho] using hv
  obtain ⟨values, hvalues, hvalue⟩ := Machine.Ends.performs ⟨count, hlast⟩ ho rfl rfl hn
  exact ⟨values, last, hvalues, he.symm, hvalue⟩

/-- A loop that ends with what its condition sends. -/
def stopping : Node := .mk (.whileDo (.mk .break default) (.mk (.int 1) default)) default

/-- A function that returns, a loop that is left at once, and a call. -/
def leaving : Program :=
  let at0 : Expr → Node := fun e => .mk e default
  ⟨[at0 (.function (some "f") [] (at0 (.return (some (at0 (.int 5)))))),
    at0 (.whileDo (at0 (.int 1)) (at0 .break)),
    at0 (.call (at0 (.var "f")) [])], default⟩

theorem leaving_quiet : ∀ n ∈ leaving.statements, ∀ s, ¬ n.Sends s := by
  simp [leaving, Node.sends_mk, Expr.signal?, Expr.ways, Expr.children, Signal.fromBody]

/-- What the condition of the loop sends is what the loop ends with. What is sent within the
function and within the loop is not sent by the program, which has the value of the call. -/
theorem signals_from_statements_leaving :
    stopping.Sends .break ∧ ∃ values last,
      Machine.Performs ⟨9, true⟩ leaving.statements (.ofProgram .bare default leaving) values last ∧
      values.length = 3 ∧ values.getLastD .nothing = .int 5 := by
  have hreaches : Machine.Reaches ⟨9, true⟩ [] ⟨.eval stopping Store.global, [], .bare, [], 0, ""⟩
      ⟨.flow .break, [], .bare, [], 0, ""⟩ :=
    .next (Machine.not_finished_eval rfl) (.next (Machine.not_finished_eval rfl)
      (.next (fun h => nomatch h.1) (.here (.of_flow rfl rfl))))
  have hrun : (bare 9).runProgramFor 30 default leaving = some _ := rfl
  obtain ⟨values, last, hvalues, -, hvalue⟩ := signals_from_statements.2 30 (bare 9) _ default
    leaving _ _ leaving_quiet hrun rfl
  refine ⟨signals_from_statements.1 _ ⟨.flow .continue, [], .bare, [], 0, ""⟩ _ _ _ _ _ hreaches
    rfl rfl, values, last, hvalues, ?_, hvalue.symm⟩
  cases hvalues with
  | statement _ _ _ h => cases h with
    | statement _ _ _ h => cases h with
      | statement _ _ _ h => cases h; rfl

end Session

end Scriptlet

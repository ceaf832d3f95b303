import Scriptlet.Proofs.Machine.Sites
import Scriptlet.Proofs.Machine.Unplaced

/-!
# A program with further statements

A run of a program that ends with a value, and with no signal at its top, is
also the beginning of a run of the program with further statements. Where the
one has ended, the other holds the value and goes on with these statements.
-/

set_option autoImplicit false

namespace Scriptlet.Machine

variable {settings : Settings} {m k k' b e : Machine} {below : List Frame} {out : String}
  {rest tail : List Node} {n : Node} {v w last : Value}

/-! ## Ends of runs -/

/-- The run that begins in a state ends in another. -/
def Ends (settings : Settings) (m e : Machine) : Prop := ∃ count, runFor settings count m = some e

theorem Ends.outcome (h : Ends settings m e) : e.outcome?.isSome := by
  obtain ⟨count, hrun⟩ := h
  exact (runFor_eq_steps hrun).2

theorem ends_step (h : m.outcome? = none) :
    Ends settings m e ↔ Ends settings (step settings m) e := by
  constructor
  · rintro ⟨count, hrun⟩
    cases count with
    | zero => simp [runFor] at hrun
    | succ count => exact ⟨count, by simpa [runFor, h] using hrun⟩
  · rintro ⟨count, hrun⟩
    exact ⟨count + 1, by simpa [runFor, h] using hrun⟩

theorem ends_steps {j : Nat} (h : ∀ i < j, (steps settings i m).outcome? = none) :
    Ends settings m e ↔ Ends settings (steps settings j m) e := by
  induction j generalizing m with
  | zero => rfl
  | succ j ih =>
    have hnow : m.outcome? = none := h 0 j.succ_pos
    exact (ends_step hnow).trans (ih fun i hi => h (i + 1) (Nat.succ_lt_succ hi))

theorem Ends.unique {e' : Machine} (h : Ends settings m e) (h' : Ends settings m e') : e = e' := by
  obtain ⟨count, hrun⟩ := h
  obtain ⟨count', hrun'⟩ := h'
  induction count generalizing m count' with
  | zero => simp [runFor] at hrun
  | succ count ih =>
    cases count' with
    | zero => simp [runFor] at hrun'
    | succ count' =>
      simp only [runFor] at hrun hrun'
      split at hrun
      · next ho =>
        simp only [ho, if_true] at hrun'
        exact Option.some.inj (hrun.symm.trans hrun')
      · next ho =>
        simp only [ho] at hrun'
        exact ih hrun count' hrun'

/-- Two runs end in states that are related, or neither of them ends. -/
def EndTogether (related : Machine → Machine → Prop) (settings settings' : Settings)
    (m m' : Machine) : Prop :=
  (∀ e, Ends settings m e → ∃ e', Ends settings' m' e' ∧ related e e') ∧
    ∀ e', Ends settings' m' e' → ∃ e, Ends settings m e ∧ related e e'

theorem EndTogether.ends_iff {related : Machine → Machine → Prop} {settings' : Settings}
    {m' : Machine} (h : EndTogether related settings settings' m m') :
    (∃ e, Ends settings m e) ↔ ∃ e', Ends settings' m' e' :=
  ⟨fun ⟨e, he⟩ => (h.1 e he).imp fun _ => And.left,
    fun ⟨e', he⟩ => (h.2 e' he).imp fun _ => And.left⟩

theorem endTogether_of_rel {related : Machine → Machine → Prop} {settings' : Settings}
    {m' : Machine} (h : ∀ count, Option.Rel related (runFor settings count m)
      (runFor settings' count m')) : EndTogether related settings settings' m m' := by
  refine ⟨fun e ⟨count, hrun⟩ => ?_, fun e' ⟨count, hrun'⟩ => ?_⟩
  · have hrel := hrun ▸ h count
    generalize hlast : runFor settings' count m' = last at hrel
    cases hrel with
    | some hr => exact ⟨_, ⟨count, hlast⟩, hr⟩
  · have hrel := hrun' ▸ h count
    generalize hlast : runFor settings count m = last at hrel
    cases hrel with
    | some hr => exact ⟨_, ⟨count, hlast⟩, hr⟩

/-- Steps before an end do not matter. -/
theorem EndTogether.before {related : Machine → Machine → Prop} {settings' : Settings}
    {m' : Machine} {j : Nat}
    (h : EndTogether related settings settings' (steps settings j m) (step settings' m'))
    (hm : ∀ i < j, (steps settings i m).outcome? = none) (hm' : m'.outcome? = none) :
    EndTogether related settings settings' m m' := by
  simpa only [EndTogether, ends_steps hm, ends_step hm'] using h

/-! ## Without anything below -/

theorem Finished.atop (h : m.Finished []) (out : String) : (m.atop [] out).Finished [] := by
  obtain ⟨hs, he⟩ := h
  refine ⟨by simp [Machine.atop, hs], ?_⟩
  rintro ⟨node, scope, hc⟩
  cases hm : m.control with
  | eval n s => exact he ⟨n, s, hm⟩
  | flow f => simp [Machine.atop, hm, Control.unplaced] at hc
  | failed d => simp [Machine.atop, hm, Control.unplaced] at hc

theorem step_atop_nil (settings : Settings) (out : String) (m : Machine) :
    (step settings m).atop [] out = step settings (m.atop [] out) := by
  by_cases h : m.Finished []
  · rw [h.step_eq, (h.atop out).step_eq]
  · exact step_atop [] out m settings h

theorem outcome?_atop_nil (out : String) (m : Machine) :
    (m.atop [] out).outcome? = m.outcome?.map (Except.mapError Diagnostic.unplaced) := by
  obtain ⟨c, stack, s, active, depth, printed⟩ := m
  cases stack <;> cases c <;> rfl

theorem outcome?_of_stack (h : m.stack ≠ []) : m.outcome? = none := by
  obtain ⟨c, stack, s, active, depth, printed⟩ := m
  cases stack with
  | nil => exact absurd rfl h
  | cons frame stack => cases c <;> rfl

/-- Machines that are the same without places still are with another control, atop other work. -/
theorem atop_congr (h : m.atop [] out = k.atop [] out) (c : Control) (below : List Frame) :
    atop below out { m with control := c } = atop below out { k with control := c } := by
  simp only [atop, mk.injEq, List.append_nil] at h ⊢
  obtain ⟨-, hs, hstore, hactive, hdepth, hprinted⟩ := h
  exact ⟨trivial, by rw [hs], hstore, hactive, hdepth, hprinted⟩

/-! ## Below the statement of a program -/

/-- The machine does what `b` does, above the frame of a program and after `out` was printed. -/
def Runs (k : Machine) (out : String) (b : Machine) (rest : List Node) (last : Value) : Prop :=
  k.atop [] out = b.atop [.program (bareAll rest) last] ""

namespace Runs

theorem stack_ne_nil (h : k.Runs out b rest last) : k.stack ≠ [] := by
  intro hk
  have hs := congrArg stack h
  simp [atop, hk] at hs

protected theorem step (h : k.Runs out b rest last) (hb : ¬ b.Finished []) (settings : Settings) :
    (Machine.step settings k).Runs out (Machine.step settings b) rest last := by
  rw [Runs, step_atop_nil, h, step_atop _ _ _ _ hb]

/-- What is on the stack when the statement is done. -/
theorem stack (h : k.Runs out b rest last) (hb : b.stack = []) :
    ∃ nodes, k.stack = [.program nodes last] ∧ bareAll nodes = bareAll rest := by
  have hs : k.stack.map Frame.unplaced ++ [] = b.stack.map Frame.unplaced ++ _ :=
    congrArg Machine.stack h
  rw [hb, List.append_nil, List.map_nil, List.nil_append] at hs
  obtain ⟨frame, tail, hk, hframe, htail⟩ := List.map_eq_cons_iff.mp hs
  obtain rfl := List.map_eq_nil_iff.mp htail
  cases frame <;> simp only [Frame.unplaced, Frame.program.injEq, reduceCtorEq] at hframe
  obtain ⟨hnodes, rfl⟩ := hframe
  exact ⟨_, hk, hnodes⟩

theorem control (h : k.Runs out b rest last) : k.control.unplaced = b.control.unplaced :=
  congrArg Machine.control h

/-- The frame of the program may hold another value. -/
theorem holding (h : k.Runs out b rest last) (hb : b.stack = []) {nodes : List Node}
    (hn : bareAll nodes = bareAll rest) (v : Value) :
    Runs { k with stack := [.program nodes v] } out b rest v := by
  simp only [Runs, atop, mk.injEq] at h ⊢
  obtain ⟨hcontrol, -, hstore, hactive, hdepth, hprinted⟩ := h
  refine ⟨hcontrol, ?_, hstore, hactive, hdepth, hprinted⟩
  simp [hb, Frame.unplaced, hn]

/-- The next statement begins. -/
theorem next (h : k.Runs out b (n :: rest) last) (hb : b.stack = [])
    (hv : b.control = .flow (.value v)) (settings : Settings) :
    (Machine.step settings k).Runs out
      { b.dropAll [last] with control := .eval n Store.global } rest v := by
  obtain ⟨c, stack, s, active, depth, printed⟩ := b
  obtain rfl : stack = [] := hb
  obtain rfl : c = .flow (.value v) := hv
  rw [Runs, step_atop_nil, h]
  have hdrop := s.unplaced_dropAll [last]
  simp only [atop, dropAll, hdrop]
  rfl

/-- The program ends. -/
theorem ended (h : k.Runs out b [] last) (hb : b.stack = [])
    (hv : b.control = .flow (.value v)) (settings : Settings) :
    (Machine.step settings k).atop [] out = (b.dropAll [last]).atop [] "" := by
  obtain ⟨c, stack, s, active, depth, printed⟩ := b
  obtain rfl : stack = [] := hb
  obtain rfl : c = .flow (.value v) := hv
  rw [step_atop_nil, h]
  have hdrop := s.unplaced_dropAll [last]
  simp only [atop, dropAll, hdrop]
  rfl

end Runs

/-! ## The end of a program -/

/-- A signal that no call or loop has taken reaches the top of the program. -/
def Stray (m : Machine) : Prop :=
  ∃ f rest last, m.control = .flow f ∧ m.stack = [.program rest last] ∧ ∀ v, f ≠ .value v

theorem control_flow_of_unplaced {c : Control} {f : Flow} (h : c.unplaced = .flow f) :
    c = .flow f := by
  cases c <;> simp_all [Control.unplaced]

theorem control_failed_of_unplaced {c : Control} {d : Diagnostic} (h : c.unplaced = .failed d) :
    ∃ d', c = .failed d' := by
  cases c <;> simp_all [Control.unplaced]

theorem runFor_of_outcome {count : Nat} (hrun : runFor settings count m = some e)
    (h : m.outcome?.isSome) : e = m := by
  cases count with
  | zero => simp [runFor] at hrun
  | succ count =>
    simp only [runFor, h, if_true, Option.some.injEq] at hrun
    exact hrun.symm

/-- A program that fails at its top does not end with a value. -/
theorem not_ok_of_failed {d : Diagnostic} {nodes : List Node} {count : Nat}
    (hc : k.control = .failed d) (hs : k.stack = [.program nodes last])
    (hrun : runFor settings count (step settings k) = some e) : e.outcome? ≠ some (.ok v) := by
  obtain ⟨c, stack, s, active, depth, printed⟩ := k
  obtain rfl : stack = _ := hs
  obtain rfl : c = _ := hc
  have hfailed : (step settings ⟨.failed d, [.program nodes last], s, active, depth,
      printed⟩).outcome? = some (.error d) := rfl
  obtain rfl := runFor_of_outcome hrun (by rw [hfailed]; rfl)
  simp [hfailed]

/-- A program that ends at its top with a value. -/
theorem ended_ok {count : Nat} (h : m.atop [] out = (b.dropAll [last]).atop [] "")
    (hb : b.stack = []) (hc : b.control = .flow (.value w))
    (hrun : runFor settings count m = some e) (hv : e.outcome? = some (.ok v)) : e = m ∧ w = v := by
  have hstack : m.stack = [] := by
    have hs : m.stack.map Frame.unplaced ++ [] = b.stack.map Frame.unplaced ++ [] :=
      congrArg stack h
    simpa [hb] using hs
  have hcontrol : m.control = .flow (.value w) := by
    have hcontrol : m.control.unplaced = b.control.unplaced := congrArg control h
    exact control_flow_of_unplaced (hcontrol.trans (congrArg _ hc))
  have houtcome : m.outcome? = some (.ok w) := by
    rw [outcome?, hcontrol, hstack]
    rfl
  obtain rfl := runFor_of_outcome hrun (by rw [houtcome]; rfl)
  rw [houtcome] at hv
  exact ⟨rfl, Except.ok.inj (Option.some.inj hv)⟩

/-- Where a program has ended with a value, one that goes on has the same to show, and is about to
go on. -/
theorem Runs.goes_on {count : Nat} (h : k.Runs "" b rest last)
    (h' : k'.Runs "" b (rest ++ n :: tail) last) (hrun : runFor settings count k = some e)
    (hv : e.outcome? = some (.ok v)) (hstray : ∀ j, ¬ (steps settings j k).Stray) :
    ∃ j, (∀ i < j, (steps settings i k').outcome? = none) ∧
      (steps settings j k').Runs "" { e with control := .eval n Store.global } tail v := by
  induction count generalizing k k' b rest last with
  | zero => simp [runFor] at hrun
  | succ count ih =>
    have hnone : k'.outcome? = none := outcome?_of_stack h'.stack_ne_nil
    have hone {j : Nat} (hj : ∀ i < j, (steps settings i (step settings k')).outcome? = none) :
        ∀ i < j + 1, (steps settings i k').outcome? = none := by
      intro i hi
      cases i with
      | zero => exact hnone
      | succ i => exact hj i (Nat.lt_of_succ_lt_succ hi)
    simp only [runFor, outcome?_of_stack h.stack_ne_nil, Option.isSome_none] at hrun
    have hrun : runFor settings count (step settings k) = some e := hrun
    by_cases hb : b.Finished []
    · obtain ⟨nodes, hks, hnodes⟩ := h.stack hb.1
      cases hbc : b.control with
      | eval node scope => exact absurd ⟨node, scope, hbc⟩ hb.2
      | failed d =>
        obtain ⟨d', hkc⟩ := control_failed_of_unplaced (h.control.trans (congrArg _ hbc))
        exact absurd hv (not_ok_of_failed hkc hks hrun)
      | flow f =>
        have hkc := control_flow_of_unplaced (h.control.trans (congrArg _ hbc))
        by_cases hf : ∃ w, f = .value w
        · obtain ⟨w, rfl⟩ := hf
          cases rest with
          | cons n' rest =>
            obtain ⟨j, hj, hruns⟩ := ih (h.next hb.1 hbc settings) (h'.next hb.1 hbc settings) hrun
              fun j => hstray (j + 1)
            exact ⟨j + 1, hone hj, hruns⟩
          | nil =>
            have hend := h.ended hb.1 hbc settings
            obtain ⟨rfl, rfl⟩ := ended_ok hend hb.1 hbc hrun hv
            exact ⟨1, hone (by simp), (h'.next hb.1 hbc settings).trans (atop_congr hend.symm _ _)⟩
        · exact absurd ⟨f, nodes, last, hkc, hks, fun w hw => hf ⟨w, hw⟩⟩ (hstray 0)
    · obtain ⟨j, hj, hruns⟩ := ih (h.step hb settings) (h'.step hb settings) hrun
        fun j => hstray (j + 1)
      exact ⟨j + 1, hone hj, hruns⟩

end Scriptlet.Machine

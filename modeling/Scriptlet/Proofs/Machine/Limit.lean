import Scriptlet.Proofs.Machine.Lockstep
import Scriptlet.Proofs.Machine.Sequel

/-!
# Runs under two limits

Only a call looks at how many calls may be active, and only to fail or not. A
run under a lower limit goes step by step with one under a higher limit, until
it is cut off; from there on it only unwinds, and prints nothing more.
-/

set_option autoImplicit false

namespace Scriptlet

/-- Whether too many calls were active. -/
def Diagnostic.Cut (d : Diagnostic) : Prop := d.name = "MaxRecursionDepth"

namespace Machine

variable {settings : Settings} {low high : Nat} {reclaim : Bool} {m e : Machine} {d : Diagnostic}
  {out : String}

/-! ## What is printed -/

/-- A step prints something more, or nothing. -/
theorem printed_step (settings : Settings) (m : Machine) :
    ∃ more, (step settings m).printed = m.printed ++ more := by
  have hsame : m.atop [] "" = { m with printed := "" }.atop [] m.printed := by simp [atop]
  have hstep := step_atop_nil settings "" m
  rw [hsame, ← step_atop_nil] at hstep
  have hprinted := congrArg Machine.printed hstep
  exact ⟨_, by simpa only [atop, String.empty_append] using hprinted⟩

theorem printed_runFor {count : Nat} (hrun : runFor settings count m = some e) :
    ∃ more, e.printed = m.printed ++ more := by
  induction count generalizing m with
  | zero => simp [runFor] at hrun
  | succ count ih =>
    simp only [runFor] at hrun
    split at hrun
    · obtain rfl := Option.some.inj hrun
      exact ⟨"", by simp⟩
    · obtain ⟨more, hmore⟩ := ih hrun
      obtain ⟨now, hnow⟩ := printed_step settings m
      exact ⟨now ++ more, by rw [hmore, hnow, String.append_assoc]⟩

/-! ## A run that has been cut off -/

/-- The machine unwinds because too many calls were active, and has printed `out`. -/
structure CutAt (out : String) (m : Machine) : Prop where
  failed : ∃ d, m.control = .failed d ∧ d.Cut
  printed : m.printed = out

protected theorem CutAt.step (h : CutAt out m) : CutAt out (step settings m) := by
  obtain ⟨control, stack, store, active, depth, printed⟩ := m
  obtain ⟨⟨d, hcontrol, hd⟩, hprinted⟩ := h
  obtain rfl : control = .failed d := hcontrol
  cases stack with
  | nil => exact ⟨⟨d, rfl, hd⟩, hprinted⟩
  | cons frame stack => cases frame <;> exact ⟨⟨d, rfl, hd⟩, hprinted⟩

theorem CutAt.runFor {count : Nat} (h : CutAt out m) (hrun : runFor settings count m = some e) :
    CutAt out e := by
  induction count generalizing m with
  | zero => simp [Machine.runFor] at hrun
  | succ count ih =>
    simp only [Machine.runFor] at hrun
    split at hrun
    · exact Option.some.inj hrun ▸ h
    · exact ih h.step hrun

/-! ## One step -/

theorem applyFunction_limit (hle : low ≤ high) (m : Machine) (f : Function) (callee : Value)
    (args : List Value) (span : Span) :
    applyFunction low m f callee args span = applyFunction high m f callee args span ∨
      CutAt m.printed (applyFunction low m f callee args span) := by
  simp only [applyFunction]
  split_ifs with hargs hlow hhigh hhigh
  · exact .inl rfl
  · exact .inr ⟨⟨_, rfl, rfl⟩, rfl⟩
  · exact .inr ⟨⟨_, rfl, rfl⟩, rfl⟩
  · exact absurd (hle.trans hhigh) hlow
  · exact .inl rfl

theorem apply_limit (hle : low ≤ high) (m : Machine) (callee : Value) (args : List Value)
    (span : Span) :
    apply low m callee args span = apply high m callee args span ∨
      CutAt m.printed (apply low m callee args span) := by
  cases callee with
  | function id =>
    simp only [apply]
    cases m.store.heap.function? id with
    | some f => exact applyFunction_limit hle m f (.function id) args span
    | none => exact .inl rfl
  | _ => exact .inl rfl

theorem resumeValue_limit (hle : low ≤ high) (m : Machine) (frame : Frame) (v : Value) :
    resumeValue low m frame v = resumeValue high m frame v ∨
      CutAt m.printed (resumeValue low m frame v) := by
  cases frame with
  | callee args scope span =>
    cases args with
    | nil => exact apply_limit hle m v [] span
    | cons arg rest => exact .inl rfl
  | argument callee done rest scope span =>
    cases rest with
    | nil => exact apply_limit hle m callee _ span
    | cons arg rest => exact .inl rfl
  | listItem done rest scope => cases rest <;> exact .inl rfl
  | leftOperand op right scope span => cases op <;> exact .inl rfl
  | program rest last => cases rest <;> exact .inl rfl
  | _ => exact .inl rfl

theorem resume_limit (hle : low ≤ high) (reclaim : Bool) (m : Machine) (frame : Frame)
    (flow : Flow) :
    resume ⟨low, reclaim⟩ m frame flow = resume ⟨high, reclaim⟩ m frame flow ∨
      CutAt m.printed (resume ⟨low, reclaim⟩ m frame flow) := by
  cases flow with
  | value v =>
    by_cases hc : frame.call? = none
    · simp only [resume_value hc]
      exact resumeValue_limit hle m frame v
    · cases frame <;> first | exact .inl rfl | exact absurd rfl hc
  | _ => cases frame <;> exact .inl rfl

/-- A step is the same under a higher limit, unless it is cut off by the lower one. -/
theorem step_limit (hle : low ≤ high) (reclaim : Bool) (m : Machine) :
    step ⟨low, reclaim⟩ m = step ⟨high, reclaim⟩ m ∨ CutAt m.printed (step ⟨low, reclaim⟩ m) := by
  obtain ⟨control, stack, store, active, depth, printed⟩ := m
  cases control with
  | eval node scope => exact .inl rfl
  | flow f =>
    cases stack with
    | nil => exact .inl rfl
    | cons frame stack =>
      exact resume_limit hle reclaim ⟨.flow .continue, stack, store, active, depth, printed⟩ frame f
  | failed d => cases stack <;> exact .inl rfl

/-! ## Whole runs -/

/-- A run that ends under the lower limit ends in the same state under the higher one; or else it
has been cut off, and the other run prints more, if it ends. -/
theorem runFor_limit {count : Nat} (hle : low ≤ high)
    (hrun : runFor ⟨low, reclaim⟩ count m = some e) :
    runFor ⟨high, reclaim⟩ count m = some e ∨
      ∃ out, CutAt out e ∧ ∀ n e', runFor ⟨high, reclaim⟩ n m = some e' →
        ∃ more, e'.printed = out ++ more := by
  induction count generalizing m with
  | zero => simp [runFor] at hrun
  | succ count ih =>
    have hafter {n : Nat} {e' : Machine} (ho : ¬ m.outcome?.isSome)
        (hn : runFor ⟨high, reclaim⟩ n m = some e') :
        ∃ k, runFor ⟨high, reclaim⟩ k (step ⟨high, reclaim⟩ m) = some e' := by
      cases n with
      | zero => simp [runFor] at hn
      | succ n => exact ⟨n, by simpa [runFor, ho] using hn⟩
    simp only [runFor] at hrun ⊢
    split at hrun
    · next ho => exact .inl ((if_pos ho).trans hrun)
    · next ho =>
      rw [if_neg ho]
      rcases step_limit hle reclaim m with hsame | hcut
      · rw [hsame] at hrun
        refine (ih hrun).imp id ?_
        rintro ⟨out, hcut, hmore⟩
        exact ⟨out, hcut, fun n e' hn => (hafter ho hn).elim fun k => hmore k e'⟩
      · exact .inr ⟨m.printed, hcut.runFor hrun, fun n e' hn => printed_runFor hn⟩

end Machine

end Scriptlet

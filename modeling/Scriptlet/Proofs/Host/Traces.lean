import Scriptlet.Proofs.Host.Accounts
import Scriptlet.Proofs.Host.Functions
import Scriptlet.Proofs.Machine.Traces
import Mathlib

/-!
# Where errors point

A session may define functions in one source and call them from another. An
error of a running program points to a node of the source that the innermost
call runs, whichever that is, and its trace tells for each active call where
the next was opened.
-/

set_option autoImplicit false

namespace Scriptlet

/-- Whether the program that is run is the one that its source reads as. -/
def Act.Reading : Act → Prop
  | .execute source program => source.program = .ok program
  | _ => True

namespace Machine

variable {settings : Settings} {first : Machine} {k : Nat} {d : Diagnostic}

/-- The step after state `k` of a run fails. -/
def Raises (settings : Settings) (first : Machine) (k : Nat) (d : Diagnostic) : Prop :=
  (∀ e, (steps settings k first).control ≠ .failed e) ∧
    (steps settings (k + 1) first).control = .failed d

theorem step_failed {m : Machine} (h : m.control = .failed d) (settings : Settings) :
    (step settings m).control = .failed d := by
  obtain ⟨control, stack, store, active, depth, out⟩ := m
  obtain rfl : control = .failed d := h
  cases stack with
  | nil => rfl
  | cons frame stack => cases frame <;> rfl

/-- A run that ends with an error has raised it. -/
theorem raised_of_failed (hf : ∀ e, first.control ≠ .failed e) {n : Nat}
    (hn : (steps settings n first).control = .failed d) : ∃ k, Raises settings first k d := by
  induction n with
  | zero => exact absurd hn (hf d)
  | succ n ih =>
    by_cases hbefore : ∃ e, (steps settings n first).control = .failed e
    · obtain ⟨e, he⟩ := hbefore
      have hsame := step_failed he settings
      rw [← steps_succ, hn] at hsame
      exact ih (he.trans hsame.symm)
    · exact ⟨n, fun e he => hbefore ⟨e, he⟩, hn⟩

end Machine

namespace Host

variable {settings : Settings} {h next : Host}

/-- The hosts that are reached with programs that are read from their sources. -/
inductive Sourced (settings : Settings) : Host → Prop where
  | start (seeded : Bool) : Sourced settings (Host.start seeded settings)
  | act {h next : Host} {a : Act} {count : Nat} {r : Option Report} (hr : Sourced settings h)
      (hp : a.Reading) (ha : h.actFor count a = some (r, next)) : Sourced settings next

theorem Sourced.reached (hr : Sourced settings h) : Reached settings h := by
  induction hr with
  | start seeded => exact .start seeded
  | act _ _ ha ih => exact .act ih ha

/-- All functions of a session come from nodes of the sources that they name. -/
def Rooted (h : Host) : Prop :=
  ∀ f fn, h.session.store.heap.function? f = some fn → fn.source.Has fn.body

theorem Rooted.sites (hh : h.Rooted) {a : Act} (hp : a.Reading) {first : Machine}
    (hf : h.firstState? a = some first) (under : List Frame → Node → Prop) :
    first.Sites under a.around := by
  cases a with
  | run source =>
    obtain ⟨program, hprogram, rfl⟩ := firstState_of_run hf
    exact Machine.sites_ofProgram hprogram hh
  | execute source program =>
    obtain rfl := Option.some.inj hf
    exact Machine.sites_ofProgram hp hh
  | call callee args span =>
    obtain rfl := Option.some.inj hf
    exact Machine.sites_ofCall (Functions.keeping hh _) _ _ _ _
  | _ => simp [firstState?] at hf

/-- A call of that function from another source, on its second line. -/
def caller : Source := ⟨"main", "\nf(0)"⟩

end Host

end Scriptlet

import Scriptlet.Proofs.Host.Reached
import Scriptlet.Proofs.Machine.Definitions

/-!
# The functions of a session

Functions come from runs only. So what holds of the functions of all states of
a run holds of all functions that a session ever has.
-/

set_option autoImplicit false

namespace Scriptlet.Host

variable {P : Function → Prop} {settings : Settings} {h next : Host}

/-- All functions of a session have a property. -/
def Functions (P : Function → Prop) (h : Host) : Prop :=
  ∀ f fn, h.session.store.heap.function? f = some fn → P fn

theorem Functions.adds (hh : h.Functions P) (ha : h.session.store.heap.Adds (fun _ => False)
    next.session.store.heap) : next.Functions P :=
  fun f fn hf => hh f fn ((ha.function f fn hf).resolve_right And.right)

theorem functions_start (seeded : Bool) : (Host.start seeded settings).Functions P := by
  intro f fn hf
  cases seeded with
  | false => simp [start, Store.function?_bare] at hf
  | true =>
    have hadds : Store.bare.heap.Adds (fun _ => False) Store.seeded.heap := Store.adds_seeded
    have hbare := (hadds.function f fn hf).resolve_right And.right
    simp [Store.function?_bare] at hbare

/-- The call of a value that is held begins with no function that was not there. -/
theorem Functions.keeping (hh : h.Functions P) (vs : List Value) :
    Functions P ⟨h.keeping vs, []⟩ :=
  hh.adds (Heap.adds_keepAll ..)

theorem Functions.act (hh : h.Functions P) {a : Act} {count : Nat} {r : Option Report}
    (ha : h.actFor count a = some (r, next))
    (hrun : ∀ first n, h.firstState? a = some first → ∀ f fn,
      (Machine.steps h.session.settings n first).store.heap.function? f = some fn → P fn) :
    next.Functions P := by
  cases leaves_of_actFor ha with
  | refused _ => exact hh
  | @ran _ first n _ hf _ hstore =>
    have hlast := hrun first n hf
    rcases hstore with rfl | rfl
    · exact hlast
    · have hadds := Store.adds_tidy (P := fun _ => False)
        (Machine.steps h.session.settings n first).store h.session.settings.reclaim
      exact fun f fn hfn => hlast f fn ((hadds.function f fn hfn).resolve_right And.right)
  | plain _ => exact hh
  | list items => exact hh.adds ((Heap.adds_keepAll ..).trans (.of_eq rfl))
  | global name => exact hh.adds (Heap.adds_keepAll ..)
  | drop place => exact hh.adds (Heap.adds_drop ..)

end Scriptlet.Host

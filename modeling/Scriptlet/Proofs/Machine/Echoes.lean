import Scriptlet.Proofs.Machine.Lockstep
import Scriptlet.Proofs.Machine.Sequel

/-!
# A run beside one of another text

A run goes beside one whose code stands at other places, that began when some
text was printed already, and in which no scope is given back. Where the first
run is a program that goes on, the frame of the program holds a value during
the next statement, which in the second run the host holds.
-/

set_option autoImplicit false

namespace Scriptlet

theorem Store.Sound.dropAll_within {s : Store} {vs : List Value} {outer : List Ref}
    (hs : s.Sound (Value.refs vs ++ outer)) : (s.dropAll vs).Within s := by
  have hb : s.heap.Balanced (Value.refs vs ++ (outer ++ s.boundRefs)) := by
    simpa using hs.balanced
  exact ⟨fun _ _ h => h, hb.dropAll_shrinks, rfl⟩

namespace Machine

variable {host host' : List Value} {limit : Nat} {out : String} {e k t : Machine}
  {rest nodes : List Node} {v : Value}

/-! ## At other places, after other text -/

/-- The first machine does what the second does, at other places and before `out` was printed. -/
def Echoes (host host' : List Value) (out : String) (e k : Machine) : Prop :=
  ∃ t, Paired host host' e t ∧ t.atop [] "" = k.atop [] out

namespace Echoes

protected theorem step (h : Echoes host host' out e k) :
    Echoes host host' out (Machine.step ⟨limit, true⟩ e) (Machine.step ⟨limit, false⟩ k) := by
  obtain ⟨t, hp, ht⟩ := h
  exact ⟨_, hp.step, by rw [step_atop_nil, step_atop_nil, ht]⟩

theorem outcome? (h : Echoes host host' out e k) :
    e.outcome?.map (Except.mapError Diagnostic.unplaced) =
      k.outcome?.map (Except.mapError Diagnostic.unplaced) := by
  obtain ⟨t, hp, ht⟩ := h
  rw [← hp.mirrors.outcome?, ← outcome?_atop_nil "", ← outcome?_atop_nil out, ht]

/-- Both runs end within as many steps, or neither does. -/
theorem runFor (h : Echoes host host' out e k) (count : Nat) :
    Option.Rel (Echoes host host' out) (Machine.runFor ⟨limit, true⟩ count e)
      (Machine.runFor ⟨limit, false⟩ count k) :=
  runFor_rel (fun _ _ h => by simpa using congrArg Option.isSome h.outcome?)
    (fun _ _ h => h.step) h count

end Echoes

/-! ## While the program's frame holds a value -/

/-- A machine that would be sound at the top of a program whose frame holds nothing. -/
theorem Ready.underProgram {reclaim : Bool} {c d : Control} {s : Store} {active : List Activation}
    {depth : Nat} (h : Ready reclaim host c.held ⟨d, [], s, active, depth, out⟩)
    (hc : ∀ node scope, c ≠ .eval node scope) (nodes : List Node) :
    Sound reclaim host ⟨c, [.program nodes .nothing], s, active, depth, out⟩ := by
  have hs : s.Sound (Value.refs (c.held ++ ([.nothing] ++ host))) :=
    h.sound.congr fun r => by simp [Value.ref?]
  exact ⟨⟨hs, h.called, h.tiled, Frame.fitsIn_of_scope rfl rfl rfl, trivial⟩,
    fun node scope he => absurd he (hc node scope)⟩

/-- Where a statement is done, the value of the one before it may go at once, or stay with the
host of the other machine. -/
theorem Paired.released (h : Paired host host e t) (hs : t.stack = [.program nodes v])
    (hc : ¬ t.Evaluates) :
    ∃ e', Paired host (v :: host) e' { t with stack := [.program nodes .nothing] } ∧
      ∀ settings, Machine.step settings e' = Machine.step settings e := by
  obtain ⟨c, stack, s, active, depth, printed⟩ := e
  obtain ⟨c', stack', s', active', depth', printed'⟩ := t
  obtain ⟨hsound, hsound', hm, -⟩ := h
  obtain rfl : c' = c.kept := hm.control
  obtain rfl : stack' = _ := hs
  have heval (node : Node) (scope : ScopeId) : c ≠ .eval node scope := by
    rintro rfl
    exact hc ⟨node, scope.kept, rfl⟩
  have hkept : c.kept = c := by cases c <;> first | rfl | exact absurd rfl (heval _ _)
  obtain rfl : stack = [.program nodes v] := by
    obtain ⟨frame, tail, rfl, hframe, htail⟩ := List.map_eq_cons_iff.mp hm.stack.symm
    obtain rfl := List.map_eq_nil_iff.mp htail
    cases frame <;> simp only [Frame.kept, reduceCtorEq] at hframe
    rw [hframe]
  rw [hkept] at hsound' ⊢
  obtain ⟨hr, -⟩ := hsound.pop rfl (.flow .continue)
  obtain ⟨hr', -⟩ := hsound'.pop rfl (.flow .continue)
  have hdropped := Ready.dropAll [v] (hr.perm List.perm_append_comm)
  have hheld : Ready false (v :: host) c.held
      ⟨.flow .continue, [], s', active', depth', printed'⟩ :=
    ⟨hr'.sound.congr fun r => by simp [Frame.held], hr'.called, hr'.tiled, hr'.placed⟩
  have hvalue : s.Sound (Value.refs [v] ++ Value.refs (c.held ++ host)) := by
    have hperm := (hr.perm List.perm_append_comm).sound
    simpa [Frame.held] using hperm
  have halike := hm.store.within hvalue.dropAll_within
  refine ⟨⟨c, [.program nodes .nothing], s.dropAll [v], active, depth, printed⟩,
    ⟨hdropped.underProgram heval nodes, hheld.underProgram heval nodes,
      ⟨halike, hkept.symm, rfl, hm.active, hm.depth, hm.printed⟩, ?_⟩, fun settings => ?_⟩
  · rw [Value.refs_cons]
    exact List.subset_append_right ..
  · -- Letting go of nothing changes nothing, so only the value is let go here too.
    cases c with
    | eval node scope => exact absurd rfl (heval node scope)
    | failed d => rfl
    | flow f =>
      cases f with
      | value w => cases nodes <;> rfl
      | _ => rfl

/-- Both do the same statement, while the program's frame in the first run still holds the value
of the statement before it. -/
def Lingers (host : List Value) (out : String) (v : Value) (rest : List Node) (e k : Machine) :
    Prop :=
  ∃ t b, Paired host host e t ∧ t.Runs "" b rest v ∧ k.Runs out b rest .nothing

namespace Lingers

protected theorem step (h : Lingers host out v rest e k) :
    Lingers host out v rest (Machine.step ⟨limit, true⟩ e) (Machine.step ⟨limit, false⟩ k) ∨
      Echoes host (v :: host) out (Machine.step ⟨limit, true⟩ e)
        (Machine.step ⟨limit, false⟩ k) := by
  obtain ⟨t, b, hp, ht, hk⟩ := h
  by_cases hb : b.Finished []
  · right
    obtain ⟨nodes, hstack, hnodes⟩ := ht.stack hb.1
    have hc : ¬ t.Evaluates := by
      rintro ⟨node, scope, hc⟩
      have hcontrol := ht.control
      rw [hc] at hcontrol
      cases hbc : b.control <;> simp [hbc, Control.unplaced] at hcontrol
      exact hb.2 ⟨_, _, hbc⟩
    obtain ⟨e', hp', hstep⟩ := hp.released hstack hc
    have hecho : Echoes host (v :: host) out e' k :=
      ⟨_, hp', (ht.holding hb.1 hnodes .nothing).trans hk.symm⟩
    exact hstep ⟨limit, true⟩ ▸ hecho.step
  · exact .inl ⟨_, _, hp.step, ht.step hb _, hk.step hb _⟩

theorem runFor (h : Lingers host out v rest e k) (count : Nat) :
    Option.Rel (Echoes host (v :: host) out) (Machine.runFor ⟨limit, true⟩ count e)
      (Machine.runFor ⟨limit, false⟩ count k) := by
  induction count generalizing e k with
  | zero => exact .none
  | succ count ih =>
    have hends : e.outcome? = none ∧ k.outcome? = none := by
      obtain ⟨t, b, hp, ht, hk⟩ := h
      rw [← hp.mirrors.outcome?]
      exact ⟨outcome?_of_stack ht.stack_ne_nil, outcome?_of_stack hk.stack_ne_nil⟩
    simp only [Machine.runFor, hends.1, hends.2, Option.isSome_none]
    rcases h.step with h | h
    · exact ih h
    · exact h.runFor count

end Lingers

end Machine

end Scriptlet

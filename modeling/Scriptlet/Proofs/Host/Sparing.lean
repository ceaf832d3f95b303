import Scriptlet.Proofs.Host.Functions
import Scriptlet.Proofs.Machine.Sparing

/-!
# Sessions without re-assignment

In a session in which names are declared and never set again, a call of
whatever function leaves every binding of the scopes that were there before it
as it was.
-/

set_option autoImplicit false

namespace Scriptlet

/-- Whether all statements that an act runs have a property. -/
def Act.Of (P : Node → Prop) : Act → Prop
  | .run source => ∀ program, source.program = .ok program → ∀ n ∈ program.statements, P n
  | .execute _ program => ∀ n ∈ program.statements, P n
  | _ => True

namespace Host

variable {P : Node → Prop} {settings : Settings} {h next : Host}

/-- The hosts that are reached with programs whose statements have a property. -/
inductive Written (P : Node → Prop) (settings : Settings) : Host → Prop where
  | start (seeded : Bool) : Written P settings (Host.start seeded settings)
  | act {h next : Host} {a : Act} {count : Nat} {r : Option Report} (hr : Written P settings h)
      (hp : a.Of P) (ha : h.actFor count a = some (r, next)) : Written P settings next

theorem Written.reached (hr : Written P settings h) : Reached settings h := by
  induction hr with
  | start seeded => exact .start seeded
  | act _ _ ha ih => exact .act ih ha

theorem Functions.code {P : Node → Prop} (hb : h.Functions fun fn => P fn.body) {a : Act}
    (hp : a.Of P) {first : Machine} (hf : h.firstState? a = some first) : first.Code P := by
  cases a with
  | run source =>
    obtain ⟨program, hprogram, rfl⟩ := firstState_of_run hf
    exact Machine.code_ofProgram (hp program hprogram) hb
  | execute source program =>
    obtain rfl := Option.some.inj hf
    exact Machine.code_ofProgram hp hb
  | call callee args span =>
    obtain rfl := Option.some.inj hf
    exact Machine.code_ofCall (hb.keeping _) _ _ _ _
  | _ => simp [firstState?] at hf

theorem Written.bodies (hP : Hereditary P) (hr : Written P settings h) :
    h.Functions fun fn => P fn.body := by
  induction hr with
  | start seeded => exact functions_start seeded
  | act _ hp ha ih =>
    exact ih.act ha fun first n hf => ((ih.code hp hf).steps hP _ n).functions

/-! ## Calls -/

/-- If no name is ever set again, then until a call has ended, with a value or an error, whatever
it calls, no binding of a scope that was there before it changes, and code runs only in scopes that
have been made since. This holds of the calls of a run and of a call by the host. -/
theorem calls_spare_older (hr : Written Node.Declares settings h) {a : Act}
    (hp : a.Of Node.Declares) {first : Machine} (hf : h.firstState? a = some first) :
    (∀ k callee args rest, (Machine.steps settings k first).AboutToCall callee args rest →
      Machine.SparesUntil settings (Machine.steps settings k first).store.created rest
        (Machine.steps settings k first)) ∧
    ∀ callee args span, a = .call callee args span →
      h.session.store.Spares h.session.store.created first.store ∧
      Machine.SparesUntil settings h.session.store.created [] first ∧
      ∀ count r next, h.actFor count a = some (r, next) →
        h.session.store.Spares h.session.store.created next.session.store := by
  have hsettled := hr.reached.settled
  have hsound : first.Sound settings.reclaim h.held := firstState_sound hsettled hf
  have hcode : first.Code Node.Declares :=
    (hr.bodies hereditary_declares).code hp hf
  refine ⟨fun k callee args rest hcall => ?_, ?_⟩
  · exact hcall.sparesUntil (hsound.steps k) (hcode.steps hereditary_declares settings k)
  · rintro callee args span rfl
    let kept := (h.keeping (h.value callee :: args.map h.value)).store
    have hkept : h.session.store.Spares h.session.store.created kept :=
      .of_scopes rfl (Nat.le_of_eq rfl)
    obtain ⟨hopened, hspares⟩ : first.Opened h.session.store.created [] ∧
        kept.Spares h.session.store.created first.store := by
      obtain rfl := Option.some.inj hf
      exact Machine.opened_apply h.session.settings.limit ⟨.flow .continue, [], kept, [], 0, ""⟩
        (h.value callee) (args.map h.value) span
    have hbegin := hkept.trans hspares
    refine ⟨hbegin, hopened.sparesUntil hsound hcode, fun count r next ha => ?_⟩
    cases leaves_of_actFor ha with
    | @ran _ first' n _ hfirst _ hstore =>
      obtain rfl := Option.some.inj (hf.symm.trans hfirst)
      have hlast := hbegin.trans (hopened.steps_nil hsound hcode n)
      rw [hsettled.same] at hstore
      rcases hstore with rfl | rfl
      · exact hlast
      · exact hlast.trans (Store.spares_tidy ..)
    | plain _ => exact .refl _

/-- A function that declares a global name again, in its own scope, and a call of it. -/
def redeclaring : Program :=
  let at0 : Expr → Node := fun e => .mk e default
  ⟨[at0 (.assign "x" (at0 (.int 1)) true),
    at0 (.function (some "f") [⟨"y", default⟩] (at0 (.assign "x" (at0 (.var "y")) true))),
    at0 (.call (at0 (.var "f")) [at0 (.int 2)])], default⟩

theorem redeclaring_declares : ∀ n ∈ redeclaring.statements, n.Declares := by
  simp [redeclaring, Node.declares_mk, Expr.children]

/-- The host that has run it, and holds the value of the call. -/
def redeclared : Host :=
  (((Host.start false ⟨9, true⟩).actFor 30 (.execute default redeclaring)).map Prod.snd).getD
    (Host.start false ⟨9, true⟩)

/-- The call of the program ends after five steps with what the name is bound to in its scope,
while the global name has its value. The host may call the function too. -/
theorem calls_spare_older_redeclared : ∃ first callee args rest,
    (Host.start false ⟨9, true⟩).firstState? (.execute default redeclaring) = some first ∧
    (Machine.steps ⟨9, true⟩ 11 first).AboutToCall callee args rest ∧
    (Machine.steps ⟨9, true⟩ 11 first).store.Spares (Machine.steps ⟨9, true⟩ 11 first).store.created
      (Machine.steps ⟨9, true⟩ 16 first).store ∧
    (Machine.steps ⟨9, true⟩ 16 first).Finished rest ∧
    (Machine.steps ⟨9, true⟩ 16 first).control = .flow (.value (.int 2)) ∧
    (Machine.steps ⟨9, true⟩ 16 first).store.get? Store.global "x" = some (.int 1) ∧
    ∃ h r next, h = redeclared.takeGlobal "f" ∧
      h.actFor 20 (.call 0 [1] default) = some (r, next) ∧
      h.session.store.Spares h.session.store.created next.session.store := by
  have hstart : Written Node.Declares ⟨9, true⟩ (Host.start false ⟨9, true⟩) := .start false
  have hcall : (Machine.steps ⟨9, true⟩ 11 (.ofProgram .bare default redeclaring)).AboutToCall
      (.function 0) ([.int 2] : List Value).reverse [.program [] (.function 0)] := .callWith rfl rfl
  have hlonger : ∀ j < 5, (Machine.steps ⟨9, true⟩ j (Machine.steps ⟨9, true⟩ 11
      (.ofProgram .bare default redeclaring))).stack.length ≠ 1 := by decide +kernel
  have hspares := (calls_spare_older hstart (a := .execute default redeclaring)
    redeclaring_declares rfl).1 11 _ _ _ hcall 5 fun j hj hf =>
      hlonger j hj (congrArg List.length hf.1)
  refine ⟨_, _, _, _, rfl, hcall, hspares.1 0 (Nat.zero_le _), .of_flow rfl rfl, rfl, rfl, ?_⟩
  have hrun : (Host.start false ⟨9, true⟩).actFor 30 (.execute default redeclaring) =
      some (_, redeclared) := rfl
  have hran : Written Node.Declares ⟨9, true⟩ redeclared :=
    .act (a := .execute default redeclaring) hstart redeclaring_declares hrun
  have htake : redeclared.actFor 0 (.global "f") = some (_, redeclared.takeGlobal "f") := rfl
  have hheld : Written Node.Declares ⟨9, true⟩ (redeclared.takeGlobal "f") :=
    .act (a := .global "f") hran trivial htake
  have hcalled : (redeclared.takeGlobal "f").actFor 20 (.call 0 [1] default) = some _ := rfl
  have hspared := (calls_spare_older hheld (a := .call 0 [1] default) trivial rfl).2 0 [1] default rfl
  exact ⟨_, _, _, rfl, hcalled, hspared.2.2 20 _ _ hcalled⟩

end Host

end Scriptlet

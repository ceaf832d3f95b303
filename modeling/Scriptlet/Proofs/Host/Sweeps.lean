import Scriptlet.Proofs.Host.Reached

/-!
# Sweeps are exact

At every moment of a session a sweep gives back just the detached scopes that
no path leads to from a function that is held otherwise than by a binding of a
detached scope. After a program, if no functions are held but by bindings, the
scopes that are left are the global one and those that its functions need.
-/

set_option autoImplicit false

namespace Scriptlet

namespace Store

variable {s s' : Store} {outer : List Ref} {calls : List Call}

/-- A sweep gives back the detached scopes that are not needed, and no others. -/
def SweepsExactly (s : Store) (held : List Ref) : Prop :=
  (∀ id ∈ s.detached.toList,
    s.sweep.scopeAt? id.slot = none ↔ ¬ s.Needed (s.Root held) id) ∧
  ∀ slot sc, s.scopeAt? slot = some sc →
    (∀ id ∈ s.detached.toList, id.slot = slot → s.Needed (s.Root held) id) →
    s.sweep.scopeAt? slot = some sc

theorem Sweepable.sweepsExactly (hs : s.Sweepable outer calls) : s.SweepsExactly outer := by
  have hsw := hs.swept
  refine ⟨fun id hid => ?_, fun slot sc hsc hn => (hsw.scopeAt? slot sc).mpr ⟨hsc, hn⟩⟩
  obtain ⟨hd, hh⟩ := hs.tiled.detached id hid
  obtain ⟨sc, hsc, -⟩ := Option.map_eq_some_iff.mp hh.1
  constructor
  · intro hnone hneed
    have hkept := (hsw.scopeAt? id.slot sc).mpr ⟨hsc, fun d hd' hslot => by
      obtain ⟨_, hh'⟩ := hs.tiled.detached d hd'
      exact hh'.eq hh hslot ▸ hneed⟩
    simp [hnone] at hkept
  · intro hneed
    cases hsome : s.sweep.scopeAt? id.slot with
    | none => rfl
    | some sc' => exact absurd (((hsw.scopeAt? _ _).mp hsome).2 id hid rfl) hneed

/-! ## How many scopes are left -/

theorem live_eq_countP (s : Store) :
    s.live = (List.range s.scopes.size).countP fun slot => (s.scopeAt? slot).isSome := by
  have hlist : s.scopes.toList = (List.range s.scopes.size).map fun slot => s.scopeAt? slot := by
    refine List.ext_getElem (by simp) fun i h₁ h₂ => ?_
    have hi : i < s.scopes.size := by simpa using h₁
    simp [scopeAt?, hi]
  rw [live, ← Array.countP_toList, hlist, List.countP_map]
  rfl

/-- Without active calls there are the global scope and the detached ones. -/
theorem Sweepable.live_eq (hs : s.Sweepable outer []) : s.live = 1 + s.detached.toList.length := by
  have hnodup : (0 :: s.detached.toList.map ScopeId.slot).Nodup := hs.tiled.nodup
  have hperm : ((List.range s.scopes.size).filter fun slot => (s.scopeAt? slot).isSome).Perm
      (0 :: s.detached.toList.map ScopeId.slot) := by
    refine (List.perm_ext_iff_of_nodup (List.nodup_range.filter _) hnodup).mpr fun slot => ?_
    simp only [List.mem_filter, List.mem_range, List.mem_cons, Option.isSome_iff_exists]
    constructor
    · rintro ⟨-, sc, hsc⟩
      exact hs.tiled.covered slot _ (head?_of_scopeAt? hsc)
    · have hthere {id : ScopeId} {hd : Head} (hh : s.Holds id hd) :
          id.slot < s.scopes.size ∧ ∃ sc, s.scopeAt? id.slot = some sc := by
        obtain ⟨sc, hsc, -⟩ := Option.map_eq_some_iff.mp hh.1
        exact ⟨lt_size hsc, sc, hsc⟩
      rintro (rfl | hm)
      · obtain ⟨hd, hh⟩ := hs.sound.regular.outermost
        exact hthere hh
      · obtain ⟨id, hid, rfl⟩ := List.mem_map.mp hm
        obtain ⟨hd, hh⟩ := hs.tiled.detached id hid
        exact hthere hh
  rw [live_eq_countP, List.countP_eq_length_filter, hperm.length_eq]
  simp
  omega

/-- A function that is bound in the global scope. -/
def GlobalFunction (s : Store) (f : FunctionId) : Prop :=
  ∃ sc, s.scope? global = some sc ∧ Value.function f ∈ Bindings.values sc.bindings

/-- If functions are held by bindings only, a sweep finds its way from the global ones. -/
theorem Sweepable.root_global (hs : s.Sweepable outer []) (houter : ∀ f, Ref.function f ∉ outer)
    (hlists : ∀ id xs f, s.heap.list? id = some xs → Value.function f ∉ xs.toList)
    {f : FunctionId} (hf : s.Root outer f) : s.GlobalFunction f := by
  rcases hf with hf | ⟨id, xs, hx, hf⟩ | ⟨slot, sc, hsc, hn, hf⟩
  · exact absurd hf (houter f)
  · exact absurd hf (hlists id xs f hx)
  · rcases hs.tiled.covered slot _ (head?_of_scopeAt? hsc) with rfl | hm
    · exact ⟨sc, hsc, hf⟩
    · obtain ⟨id, hid, he⟩ := List.mem_map.mp hm
      exact absurd ⟨id, hid, he⟩ hn

/-- A needed scope stays as it is. -/
theorem Swept.scope?_needed (h : s.Swept outer s') (hs : s.Sweepable outer calls) {id : ScopeId}
    {sc : Scope} (hn : s.Needed (s.Root outer) id) (hsc : s.scope? id = some sc) :
    s'.scope? id = some sc := by
  obtain ⟨hd, hh⟩ := (hs.sound.needed_standing hn).holds
  refine (h.scopeAt? id.slot sc).mpr ⟨hsc, fun d hd' hslot => ?_⟩
  obtain ⟨_, hh'⟩ := hs.tiled.detached d hd'
  exact hh'.eq hh hslot ▸ hn

/-- What the global functions need, they still need after a sweep. -/
theorem Swept.needed (h : s.Swept outer s') (hs : s.Sweepable outer [])
    (houter : ∀ f, Ref.function f ∉ outer)
    (hlists : ∀ id xs f, s.heap.list? id = some xs → Value.function f ∉ xs.toList) {id : ScopeId}
    (hn : s.Needed (s.Root outer) id) : s'.Needed s'.GlobalFunction id := by
  have hfunction {slot : Nat} {sc : Scope} {f : FunctionId} {fn : Function}
      (hsc : s'.scopeAt? slot = some sc) (hb : Value.function f ∈ Bindings.values sc.bindings)
      (hf : s.heap.function? f = some fn) : s'.heap.function? f = some fn := by
    obtain ⟨fn', hfn'⟩ := Option.isSome_iff_exists.mp (h.sound.live_bound hsc hb rfl)
    have := h.shrinks.function f fn' hfn'
    exact Option.some.inj (this.symm.trans hf) ▸ hfn'
  induction hn with
  | root hr hf =>
    obtain ⟨sc, hsc, hb⟩ := hs.root_global houter hlists hr
    have h0 : ∀ d ∈ s.detached.toList, d.slot ≠ 0 := fun d hd he =>
      (List.nodup_cons.mp hs.tiled.nodup).1 (he ▸ List.mem_map_of_mem (by simpa using hd))
    have hsc' : s'.scopeAt? 0 = some sc :=
      (h.scopeAt? 0 sc).mpr ⟨hsc, fun d hd he => absurd he (h0 d hd)⟩
    exact .root ⟨sc, hsc', hb⟩ (hfunction hsc' hb hf)
  | around hn hsc hp ih => exact .around ih (h.scope?_needed hs hn hsc) hp
  | bound hn hsc hb hf ih =>
    have hsc' := h.scope?_needed hs hn hsc
    exact .bound ih hsc' hb (hfunction hsc' hb hf)

/-- After a sweep that found functions in bindings only, the detached scopes are those that the
global functions need. -/
theorem Swept.mem_detached_iff (h : s.Swept outer s') (hs : s.Sweepable outer [])
    (houter : ∀ f, Ref.function f ∉ outer)
    (hlists : ∀ id xs f, s.heap.list? id = some xs → Value.function f ∉ xs.toList) (id : ScopeId) :
    id ∈ s'.detached.toList ↔ id ≠ global ∧ s'.Needed s'.GlobalFunction id := by
  have hs' := h.sweepable hs
  have h0 := (List.nodup_cons.mp hs'.tiled.nodup).1
  constructor
  · intro hid
    refine ⟨fun he => h0 ?_, h.needed hs houter hlists ((h.detached id).mp hid).2⟩
    exact List.mem_map.mpr ⟨id, by simpa using hid, by rw [he]; rfl⟩
  · rintro ⟨hne, hn⟩
    obtain ⟨hd, hh⟩ := (h.sound.needed_standing hn).holds
    rcases hs'.tiled.covered _ _ hh.1 with he | hm
    · obtain ⟨g, hg⟩ := h.sound.regular.outermost
      exact absurd (hh.eq hg he) hne
    · obtain ⟨d, hd', he⟩ := List.mem_map.mp hm
      have hd' : d ∈ s'.detached.toList := by simpa using hd'
      obtain ⟨_, hh'⟩ := hs'.tiled.detached d hd'
      exact hh'.eq hh he ▸ hd'

end Store

namespace Host

variable {limit : Nat} {h : Host}

theorem Passes.sweepable {m : Machine} (hm : h.Passes ⟨limit, true⟩ m) :
    m.store.Sweepable (Value.refs (m.held ++ h.held)) (Machine.calls m.stack) := by
  have hheld : m.control.held ++ (m.stack.flatMap Frame.held ++ h.held) = m.held ++ h.held := by
    simp [Machine.held]
  exact hheld ▸ hm.sound.ready.sweepable

/-- At the end of a call its scope has just been detached. -/
theorem Passes.sweepable_ended {m : Machine} (hm : h.Passes ⟨limit, true⟩ m) {callee : Value}
    {scope : ScopeId} {stack : List Frame} (hstack : m.stack = .call callee scope :: stack) :
    ({ m.store with detached := m.store.detached.push scope } : Store).Sweepable
      (Value.refs (m.held ++ h.held)) (Machine.calls stack) := by
  have hcalls : Machine.calls m.stack = (callee, scope) :: Machine.calls stack := by
    simp [hstack, Machine.calls, Frame.call?]
  exact (hcalls ▸ hm.sweepable).detach

/-- Sweeps are exact between acts, in every state of a run, and at the end of a call, when its
scope has just been detached. A program that leaves no function in a list, and whose result is
none, leaves the scopes that the global functions need. -/
theorem sweeps_exactly (hr : Reached ⟨limit, true⟩ h) :
    h.session.store.SweepsExactly (Value.refs h.held) ∧
    (∀ m, h.Passes ⟨limit, true⟩ m →
      m.store.SweepsExactly (Value.refs (m.held ++ h.held)) ∧
      ∀ callee scope stack, m.stack = .call callee scope :: stack →
        Store.SweepsExactly { m.store with detached := m.store.detached.push scope }
          (Value.refs (m.held ++ h.held))) ∧
    ∀ count source program m,
      Machine.runFor ⟨limit, true⟩ count (.ofProgram h.session.store source program) = some m →
      (∀ id xs f, m.store.heap.list? id = some xs → Value.function f ∉ xs.toList) →
      (∀ f, Value.function f ∉ (Session.afterProgram ⟨limit, true⟩ m).1.values ++ h.held) →
      ∃ needed : List ScopeId, needed.Nodup ∧
        (∀ id, id ∈ needed ↔ id ≠ Store.global ∧
          (Session.afterProgram ⟨limit, true⟩ m).2.store.Needed
            (Session.afterProgram ⟨limit, true⟩ m).2.store.GlobalFunction id) ∧
        (Session.afterProgram ⟨limit, true⟩ m).2.live = 1 + needed.length := by
  have hsettled := hr.settled
  refine ⟨hsettled.idle.sweepable.sweepsExactly, fun m hm => ⟨hm.sweepable.sweepsExactly,
    fun callee scope stack hstack => (hm.sweepable_ended hstack).sweepsExactly⟩,
    fun count source program m hm hlists hfree => ?_⟩
  · obtain ⟨⟨n, rfl⟩, ho⟩ := Machine.runFor_eq_steps hm
    have hs := (((hsettled.idle.ofProgram source program).steps n).report_idle ho).sweepable
    have hsw := hs.swept
    have houter (f : FunctionId) (hf : Ref.function f ∈ Value.refs ((Session.report (Machine.steps
        ⟨limit, true⟩ n (.ofProgram h.session.store source program))).values ++ h.held)) :
        False := by
      obtain ⟨v, hv, hvr⟩ := Value.mem_refs.mp hf
      have hvf : v = .function f := by cases v <;> simp_all [Value.ref?]
      exact hfree f (hvf ▸ hv)
    exact ⟨_, ((hsw.sweepable hs).nodup_slots).of_map, hsw.mem_detached_iff hs houter hlists,
      (hsw.sweepable hs).live_eq⟩

/-- A call that makes a function bound to a name in the scope that it lies in, and then a number. -/
def selfReference : Program :=
  let at0 : Expr → Node := fun e => .mk e default
  ⟨[at0 (.call (at0 (.function none [] (at0 (.function (some "f") [] (at0 (.var "f")))))) []),
    at0 (.int 1)], default⟩

/-- The scope and the function in it hold each other, and both go. -/
theorem sweeps_exactly_selfReference : ∃ m : Machine,
    Machine.runFor ⟨1000, true⟩ 20 (.ofProgram .bare default selfReference) = some m ∧
    m.store.live = 2 ∧ (Session.afterProgram ⟨1000, true⟩ m).2.live = 1 ∧
    ∃ needed : List ScopeId, needed.Nodup ∧
      (∀ id, id ∈ needed ↔ id ≠ Store.global ∧
        (Session.afterProgram ⟨1000, true⟩ m).2.store.Needed
          (Session.afterProgram ⟨1000, true⟩ m).2.store.GlobalFunction id) ∧
      (Session.afterProgram ⟨1000, true⟩ m).2.live = 1 + needed.length := by
  have hrun : Machine.runFor ⟨1000, true⟩ 20 (.ofProgram .bare default selfReference) =
    some (Machine.steps ⟨1000, true⟩ 10 (.ofProgram .bare default selfReference)) := rfl
  refine ⟨_, hrun, rfl, by decide +kernel,
    (sweeps_exactly (.start false)).2.2 20 default selfReference _ hrun
      (fun id xs f hx => ?_) fun f hf => ?_⟩
  · have hnone : ∀ id, (Machine.steps ⟨1000, true⟩ 10
        (.ofProgram .bare default selfReference)).store.heap.list? id = none := fun _ => rfl
    rw [hnone] at hx
    simp at hx
  · have hvalues : (Session.afterProgram ⟨1000, true⟩ (Machine.steps ⟨1000, true⟩ 10
        (.ofProgram .bare default selfReference))).1.values ++ (Host.start false
          ⟨1000, true⟩).held = [.int 1] := rfl
    rw [hvalues] at hf
    simp [Value.int] at hf

end Host

end Scriptlet

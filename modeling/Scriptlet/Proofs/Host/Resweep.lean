import Scriptlet.Proofs.Host.Sweeps
import Scriptlet.Proofs.Store.Backlog

/-!
# Sweeping again

A sweep finds out once what holds functions from outside, and lists are among
that. So it can leave a scope that only a list needs which goes with another
scope of the same sweep. Every other scope that is left has a pin, and the
next sweep gives back just the scopes that such lists needed. If there are
none, the next sweep changes nothing.
-/

set_option autoImplicit false

namespace Scriptlet

namespace Store

variable {s s' : Store} {outer : List Ref} {calls : List Call}

/-- A function that is held from outside, by a list that a sweep leaves, or by a binding of a scope
that is not detached. -/
def LastingRoot (s : Store) (outer : List Ref) (f : FunctionId) : Prop :=
  Ref.function f ∈ outer ∨
  (∃ id xs, s.sweep.heap.list? id = some xs ∧ Value.function f ∈ xs.toList) ∨
  ∃ slot sc, s.scopeAt? slot = some sc ∧ ¬ s.IsDetached slot ∧
    Value.function f ∈ Bindings.values sc.bindings

/-- What a sweep leaves for the next one. -/
structure SweptFor (s : Store) (held : List Ref) : Prop where
  pinned : ∀ id ∈ s.sweep.detached.toList, s.Needed (s.LastingRoot held) id →
    ∃ p, s.sweep.livePin? id = some p
  again : ∀ id ∈ s.sweep.detached.toList,
    s.sweep.sweep.scopeAt? id.slot = none ↔ ¬ s.Needed (s.LastingRoot held) id
  settled : (∀ id ∈ s.sweep.detached.toList, s.Needed (s.LastingRoot held) id) →
    s.sweep.sweep = s.sweep
  lists : (∀ id xs f, s.heap.list? id = some xs → Value.function f ∈ xs.toList →
      s.sweep.heap.list? id = some xs) →
    ∀ id ∈ s.sweep.detached.toList, s.Needed (s.LastingRoot held) id

/-! ## Pins -/

theorem Sound.livePin?_function (hs : s.Sound outer) {f : FunctionId} {fn : Function}
    (hf : s.heap.function? f = some fn) : s.livePin? fn.scope = some fn.pin := by
  obtain ⟨q, hq, he⟩ := hs.regular.defined f fn hf
  obtain ⟨hd, hh, -⟩ := hs.regular.pinned _ q hq
  exact (hs.regular.livePin?_iff (he ▸ hh)).mpr ⟨q, hq, he⟩

/-- The scope around one with a pin has a pin. -/
theorem Sound.livePin?_around (hs : s.Sound outer) {id parent : ScopeId} {hd : Head} {p : PinId}
    (hh : s.Holds id hd) (hp : s.livePin? id = some p) (hpar : hd.parent = some parent) :
    ∃ p', s.livePin? parent = some p' := by
  obtain ⟨-, q, hq, rfl⟩ := hs.regular.livePin? hh hp
  obtain ⟨hd', hh', -, hfit⟩ := hs.regular.pinned p q hq
  obtain rfl : hd' = hd := Option.some.inj (hh'.1.symm.trans hh.1)
  rcases hfit with ⟨hnone, -⟩ | ⟨above, b, -, hb, hpar'⟩
  · cases hnone.symm.trans hpar
  · obtain rfl := Option.some.inj (hpar'.symm.trans hpar)
    obtain ⟨_, hhb, -⟩ := hs.regular.pinned above b hb
    exact ⟨above, (hs.regular.livePin?_iff hhb).mpr ⟨b, hb, rfl⟩⟩

/-- Whatever is needed has a pin. -/
theorem Sound.needed_pinned (hs : s.Sound outer) {root : FunctionId → Prop} {id : ScopeId}
    (hn : s.Needed root id) : ∃ p, s.livePin? id = some p := by
  induction hn with
  | root _ hf => exact ⟨_, hs.livePin?_function hf⟩
  | bound _ _ _ hf _ => exact ⟨_, hs.livePin?_function hf⟩
  | around hn hsc hpar ih =>
    obtain ⟨p, hp⟩ := ih
    obtain ⟨hd, hh⟩ := (hs.needed_standing hn).holds
    have hhead : hd = _ := Option.some.inj (hh.1.symm.trans (head?_of_scopeAt? hsc))
    exact hs.livePin?_around hh hp (hhead ▸ hpar)

/-! ## What is needed after a sweep -/

theorem Needed.mono {root root' : FunctionId → Prop} (h : ∀ f, root f → root' f) {id : ScopeId}
    (hn : s.Needed root id) : s.Needed root' id := by
  induction hn with
  | root hr hf => exact .root (h _ hr) hf
  | around _ hs hp ih => exact .around ih hs hp
  | bound _ hs hb hf ih => exact .bound ih hs hb hf

theorem Sweepable.root_of_lasting (hs : s.Sweepable outer calls) (f : FunctionId)
    (hf : s.LastingRoot outer f) : s.Root outer f :=
  hf.imp_right fun h => h.imp_left fun ⟨id, xs, hx, hm⟩ =>
    ⟨id, xs, hs.swept.shrinks.list id xs hx, hm⟩

/-- Outside the detached scopes a sweep changes no bindings. -/
theorem Sweepable.undetached_iff (hs : s.Sweepable outer calls) {slot : Nat} {sc : Scope} :
    s.sweep.scopeAt? slot = some sc ∧ ¬ s.sweep.IsDetached slot ↔
      s.scopeAt? slot = some sc ∧ ¬ s.IsDetached slot := by
  have hsw := hs.swept
  rw [hsw.scopeAt?]
  constructor
  · rintro ⟨⟨hsc, hn⟩, hd⟩
    exact ⟨hsc, fun ⟨d, hdet, he⟩ => hd ⟨d, (hsw.detached d).mpr ⟨hdet, hn d hdet he⟩, he⟩⟩
  · rintro ⟨hsc, hd⟩
    exact ⟨⟨hsc, fun d hdet he => absurd ⟨d, hdet, he⟩ hd⟩,
      fun ⟨d, hdet, he⟩ => hd ⟨d, ((hsw.detached d).mp hdet).1, he⟩⟩

theorem Sweepable.sweep_root_iff (hs : s.Sweepable outer calls) {f : FunctionId} :
    s.sweep.Root outer f ↔ s.LastingRoot outer f := by
  refine or_congr_right (or_congr_right ⟨?_, ?_⟩)
  · rintro ⟨slot, sc, hsc, hd, hf⟩
    obtain ⟨hsc, hd⟩ := hs.undetached_iff.mp ⟨hsc, hd⟩
    exact ⟨slot, sc, hsc, hd, hf⟩
  · rintro ⟨slot, sc, hsc, hd, hf⟩
    obtain ⟨hsc, hd⟩ := hs.undetached_iff.mpr ⟨hsc, hd⟩
    exact ⟨slot, sc, hsc, hd, hf⟩

theorem Sound.root_live (hs : s.Sound outer) {f : FunctionId} (hf : s.Root outer f) :
    s.heap.Live (.function f) := by
  rcases hf with hf | ⟨id, xs, hx, hf⟩ | ⟨slot, sc, hsc, -, hf⟩
  · exact hs.live_outer hf
  · have hitem : Value.function f ∈ (s.heap.items id).toList := by simpa [Heap.items, hx] using hf
    exact hs.live_item hitem rfl
  · exact hs.live_bound hsc hf rfl

/-- A function that is left is what it was. -/
theorem Swept.function (h : s.Swept outer s') {f : FunctionId} {fn : Function}
    (hf : s.heap.function? f = some fn) (hlive : s'.heap.Live (.function f)) :
    s'.heap.function? f = some fn := by
  obtain ⟨fn', hfn'⟩ := Option.isSome_iff_exists.mp hlive
  have hsame := (h.shrinks.function f fn' hfn').symm.trans hf
  exact Option.some.inj hsame ▸ hfn'

/-- The scopes that are needed after a sweep are those that were needed without the lists that it
let go. -/
theorem Sweepable.sweep_needed_iff (hs : s.Sweepable outer calls) {id : ScopeId} :
    s.sweep.Needed (s.sweep.Root outer) id ↔ s.Needed (s.LastingRoot outer) id := by
  have hsw := hs.swept
  constructor
  · intro hn
    induction hn with
    | root hr hf => exact .root (hs.sweep_root_iff.mp hr) (hsw.shrinks.function _ _ hf)
    | around _ hsc hp ih => exact .around ih ((hsw.scopeAt? _ _).mp hsc).1 hp
    | bound _ hsc hb hf ih =>
      exact .bound ih ((hsw.scopeAt? _ _).mp hsc).1 hb (hsw.shrinks.function _ _ hf)
  · intro hn
    have hscope {id : ScopeId} {sc : Scope} (hn : s.Needed (s.LastingRoot outer) id)
        (hsc : s.scope? id = some sc) : s.sweep.scope? id = some sc :=
      hsw.scope?_needed hs (hn.mono hs.root_of_lasting) hsc
    induction hn with
    | root hr hf =>
      have hr' := hs.sweep_root_iff.mpr hr
      exact .root hr' (hsw.function hf (hsw.sound.root_live hr'))
    | around hn hsc hp ih => exact .around ih (hscope hn hsc) hp
    | bound hn hsc hb hf ih =>
      have hsc' := hscope hn hsc
      exact .bound ih hsc' hb (hsw.function hf (hsw.sound.live_bound hsc' hb rfl))

/-! ## The next sweep -/

theorem nextSweep_sweep (s : Store) :
    s.sweep.nextSweep = max (2 * s.sweep.detached.size) leastSweep := by
  have hbacklog : s.sweep.backlog = _ := backlog_freeSlots _ _
  obtain ⟨hd, hn⟩ := Prod.mk.inj hbacklog
  rw [hd, hn, List.size_toArray]

/-- A sweep that finds all detached scopes needed changes nothing but when the next one is. -/
theorem Sweepable.sweep_of_needed (hs : s.Sweepable outer calls)
    (hn : ∀ id ∈ s.detached.toList, s.Needed (s.Root outer) id)
    (hnext : s.nextSweep = max (2 * s.detached.size) leastSweep) : s.sweep = s := by
  have hgone : s.decided false = [] := List.eq_nil_iff_forall_not_mem.mpr fun id hid => by
    obtain ⟨hid, hiff⟩ := hs.mem_decided.mp hid
    exact absurd (hiff.mp (hn id hid)) (by decide)
  have hnodup := hs.nodup_slots.of_map
  have hkept : s.decided true = s.detached.toList := by
    refine (s.decided_sublist true).eq_of_length (List.Perm.length_eq ?_)
    refine (List.perm_ext_iff_of_nodup (hnodup.sublist (s.decided_sublist true)) hnodup).mpr ?_
    intro id
    rw [hs.mem_decided]
    exact ⟨And.left, fun hid => ⟨hid, by simp [hn id hid]⟩⟩
  rw [hs.sweep_eq, hgone, hkept]
  simp [← hnext]

theorem Sweepable.sweptFor (hs : s.Sweepable outer calls) : s.SweptFor outer := by
  have hsw := hs.swept
  have hs' := hsw.sweepable hs
  refine ⟨fun id _ hn => hsw.sound.needed_pinned (hs.sweep_needed_iff.mpr hn),
    fun id hid => ?_, fun hn => ?_, fun hlists id hid => ?_⟩
  · rw [hs'.sweepsExactly.1 id hid, hs.sweep_needed_iff]
  · exact hs'.sweep_of_needed (fun id hid => hs.sweep_needed_iff.mpr (hn id hid)) s.nextSweep_sweep
  · refine ((hsw.detached id).mp hid).2.mono fun f hf => ?_
    exact hf.imp_right fun h => h.imp_left fun ⟨l, xs, hx, hm⟩ => ⟨l, xs, hlists l xs f hx hm, hm⟩

end Store

namespace Host

open Machine

variable {limit : Nat} {h : Host}

/-- What a sweep leaves for the next one between acts, in every state of a run, and at the end of a
call, when its scope has just been detached. -/
theorem sweeps_settle (hr : Reached ⟨limit, true⟩ h) :
    h.session.store.SweptFor (Value.refs h.held) ∧
    ∀ m, h.Passes ⟨limit, true⟩ m →
      m.store.SweptFor (Value.refs (m.held ++ h.held)) ∧
      ∀ callee scope stack, m.stack = .call callee scope :: stack →
        Store.SweptFor { m.store with detached := m.store.detached.push scope }
          (Value.refs (m.held ++ h.held)) := by
  refine ⟨hr.settled.idle.sweepable.sweptFor, fun m hm => ⟨hm.sweepable.sweptFor, ?_⟩⟩
  intro callee scope stack hstack
  exact (hm.sweepable_ended hstack).sweptFor

/-- A call whose function, made in a call itself, is bound in the global scope. -/
def keeper : Program :=
  let at0 : Expr → Node := fun e => .mk e default
  let maker := at0 (.function none [] (at0 (.function none [] (at0 (.int 1)))))
  ⟨[at0 (.assign "f" (at0 (.call maker [])) true), at0 (.int 1)], default⟩

/-- The scope that the function lies in stays, with its pin, and is left by the next sweep. -/
theorem sweeps_settle_keeper :
    let m := steps ⟨1000, true⟩ 30 (.ofProgram (Host.start false ⟨1000, true⟩).session.store default
      keeper)
    m.outcome?.isSome ∧ m.store.sweep.detached = #[⟨1, 1⟩] ∧
      (∃ p, m.store.sweep.livePin? ⟨1, 1⟩ = some p) ∧ m.store.sweep.sweep = m.store.sweep := by
  intro m
  have hpasses : (Host.start false ⟨1000, true⟩).Passes ⟨1000, true⟩ m :=
    ⟨.start false, .execute default keeper, _, 30, rfl, rfl⟩
  have hleft : m.store.sweep.detached = #[⟨1, 1⟩] := by decide +kernel
  have hsettles := ((sweeps_settle (.start false)).2 m hpasses).1
  have hlists : ∀ id, m.store.heap.list? id = none := fun _ => rfl
  have hneeded := hsettles.lists fun id xs f hx _ => by
    rw [hlists] at hx
    cases hx
  exact ⟨rfl, hleft, hsettles.pinned _ (by simp [hleft]) (hneeded _ (by simp [hleft])),
    hsettles.settled hneeded⟩

/-- A call binds a list of a function that another call made, and a function of its own. -/
def boxed : Program :=
  let at0 : Expr → Node := fun e => .mk e default
  let one := at0 (.int 1)
  let make := at0 (.function (some "make") [] (at0 (.list [at0 (.function none [] one)])))
  let box := at0 (.function (some "box") [] (at0 (.block
    [at0 (.function (some "own") [] one),
      at0 (.assign "l" (at0 (.call (at0 (.var "make")) [])) true), one])))
  ⟨[make, box, at0 (.call (at0 (.var "box")) [])], default⟩

/-- A sweep leaves a scope that nothing refers to any more, and only the next one gives it back. -/
theorem boxed_swept_twice :
    let m := steps ⟨1000, true⟩ 60 (.ofProgram (Host.start false ⟨1000, true⟩).session.store default
      boxed)
    (Host.start false ⟨1000, true⟩).Passes ⟨1000, true⟩ m ∧ m.outcome?.isSome ∧
      (∃ id ∈ m.store.sweep.detached.toList, m.store.sweep.livePin? id = none) ∧
      m.store.sweep.live = 2 ∧ m.store.sweep.sweep.live = 1 := by
  intro m
  have hleft : m.store.sweep.detached = #[⟨2, 2⟩] := by decide +kernel
  refine ⟨⟨.start false, .execute default boxed, _, 60, rfl, rfl⟩, rfl, ⟨⟨2, 2⟩, ?_, ?_⟩, ?_, ?_⟩
  · simp [hleft]
  · decide +kernel
  · decide +kernel
  · decide +kernel

end Host

end Scriptlet

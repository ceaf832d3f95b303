import Scriptlet.Proofs.Store.Operations

/-!
# Functions and new scopes

A function takes a pin of its scope along, the one that is there or a new one
with a pin of the scope around above it. A new scope lies in a slot that was
empty.
-/

set_option autoImplicit false

namespace Scriptlet

theorem ScopeId.eq_of_slot {a b : ScopeId} (hslot : a.slot = b.slot)
    (hserial : a.serial = b.serial) : a = b := by
  cases a
  cases b
  simp_all

/-- A scope without regard to its pin. -/
def Scope.plain (sc : Scope) : Scope := { sc with pin := none }

namespace Store

variable {s s' : Store} {outer : List Ref}

/-- The stores differ in pins only. -/
structure SamePlain (s s' : Store) : Prop where
  plain : ∀ slot, (s'.scopeAt? slot).map Scope.plain = (s.scopeAt? slot).map Scope.plain
  size : s'.scopes.size = s.scopes.size
  lists : s'.heap.lists = s.heap.lists
  functions : s'.heap.functions = s.heap.functions
  created : s'.created = s.created
  detached : s'.detached = s.detached
  nextSweep : s'.nextSweep = s.nextSweep
  free : s'.free = s.free

namespace SamePlain

theorem refl (s : Store) : s.SamePlain s :=
  ⟨fun _ => rfl, rfl, rfl, rfl, rfl, rfl, rfl, rfl⟩

theorem trans {s'' : Store} (a : s.SamePlain s') (b : s'.SamePlain s'') : s.SamePlain s'' :=
  ⟨fun slot => (b.plain slot).trans (a.plain slot), b.size.trans a.size, b.lists.trans a.lists,
    b.functions.trans a.functions, b.created.trans a.created, b.detached.trans a.detached,
    b.nextSweep.trans a.nextSweep, b.free.trans a.free⟩

theorem steady (h : s.SamePlain s') : s.Steady s' := by
  refine ⟨fun slot => ?_, h.created, h.detached, h.nextSweep, h.free, by rw [h.functions],
    fun f fn hf _ => ?_⟩
  · have hl := congrArg (Option.map fun sc : Scope => (sc.serial, sc.parent)) (h.plain slot)
    simpa [head?, Scope.head, Scope.plain, Function.comp_def] using hl
  · simpa only [Heap.function?, h.functions] using hf

theorem boundRefs (h : s.SamePlain s') : s'.boundRefs = s.boundRefs := by
  refine boundRefs_congr h.size fun slot => ?_
  have hb := congrArg (Option.map fun sc : Scope => Bindings.values sc.bindings) (h.plain slot)
  simp only [Option.map_map, Function.comp_def, Scope.plain] at hb
  simp only [valuesAt, hb]

end SamePlain

/-- A chain has no more scopes than there are slots. -/
theorem Regular.chain_length (hr : s.Regular) {id : ScopeId} {chain : List ScopeId}
    (hc : s.Chain id chain) : chain.length ≤ s.scopes.size := by
  have hslots : ∀ {id : ScopeId} {chain : List ScopeId}, s.Chain id chain →
      ∀ slot ∈ chain.map ScopeId.slot, slot < s.scopes.size := by
    intro id chain hc
    induction hc with
    | global there _ =>
      obtain ⟨sc, hsc, -⟩ := Option.map_eq_some_iff.mp there.1
      simpa using lt_size hsc
    | inside there _ _ ih =>
      obtain ⟨sc, hsc, -⟩ := Option.map_eq_some_iff.mp there.1
      simpa using ⟨lt_size hsc, by simpa using ih⟩
  have hsub : chain.map ScopeId.slot ⊆ List.range s.scopes.size := fun slot hm =>
    List.mem_range.mpr (hslots hc slot hm)
  simpa using ((hr.chain_nodup hc).subperm hsub).length_le

/-- A scope with a pin that is there has that pin for its own. -/
theorem Regular.livePin? (hr : s.Regular) {id : ScopeId} {hd : Head} (hh : s.Holds id hd)
    {p : PinId} (hp : s.livePin? id = some p) :
    hd.pin = some p ∧ ∃ q, s.heap.pin? p = some q ∧ q.scope = id := by
  obtain ⟨sc, hsc, rfl⟩ := Option.map_eq_some_iff.mp hh.1
  simp only [Store.livePin?, scope?_eq, hsc, Option.filter_eq_some_iff] at hp
  obtain ⟨hpin, hlive⟩ := hp
  obtain ⟨q, hq⟩ := Option.isSome_iff_exists.mp hlive
  have hslot := (hr.latest _ _ _ hh.1 hpin).2 q hq
  obtain ⟨hd', hh', -⟩ := hr.pinned p q hq
  have hser := hh'.2
  rw [Holds, hslot, hh.1] at hh'
  obtain rfl := Option.some.inj hh'.1
  exact ⟨hpin, q, hq, ScopeId.eq_of_slot hslot (hser.symm.trans hh.2)⟩

/-- A scope without a pin that is there is pinned by none. -/
theorem Regular.not_pinned (hr : s.Regular) {id : ScopeId} (hn : s.livePin? id = none) {p : PinId}
    {q : Pin} (hq : s.heap.pin? p = some q) : q.scope.slot ≠ id.slot := by
  intro hslot
  obtain ⟨hd, hh, hp, -⟩ := hr.pinned p q hq
  have h := hh.1
  rw [hslot] at h
  obtain ⟨sc, hsc, rfl⟩ := Option.map_eq_some_iff.mp h
  simp [Store.livePin?, scope?_eq, hsc, Option.filter_eq_none_iff] at hn
  exact absurd hq (by rw [hn p hp]; simp)

/-! ## A new pin -/

theorem newPin_eq {id : ScopeId} {sc : Scope} (h : s.scope? id = some sc)
    (hser : sc.serial = id.serial) (parent : Option PinId) :
    s.newPin id parent = (s.heap.pins.size,
      { s.setScope id.slot (some { sc with pin := some s.heap.pins.size }) with
        heap := (s.heap.newPin ⟨id, parent⟩).2 }) := by
  simp only [newPin, h]
  cases id
  simp only at hser
  subst hser
  rfl

theorem newPin_samePlain {id : ScopeId} {sc : Scope} (h : s.scope? id = some sc)
    (hser : sc.serial = id.serial) (parent : Option PinId) :
    s.SamePlain (s.newPin id parent).2 := by
  rw [newPin_eq h hser]
  refine ⟨fun slot => ?_, size_setScope .., rfl, rfl, rfl, rfl, rfl, rfl⟩
  change ((s.setScope _ _).scopeAt? slot).map _ = _
  rw [scopeAt?_setScope]
  split_ifs with hi
  · rw [hi.1, ← scope?_eq, h]
    rfl
  · rfl

theorem newPin_head? {id : ScopeId} {sc : Scope} (h : s.scope? id = some sc)
    (hser : sc.serial = id.serial) (parent : Option PinId) (slot : Nat) :
    (s.newPin id parent).2.head? slot =
      if slot = id.slot then some { sc.head with pin := some s.heap.pins.size }
      else s.head? slot := by
  rw [newPin_eq h hser]
  change ((s.setScope _ _).scopeAt? slot).map _ = _
  rw [scopeAt?_setScope]
  by_cases hi : slot = id.slot
  · simp [hi, lt_size h, Scope.head]
  · simp [hi, head?]

theorem SamePlain.freeExact (h : s.SamePlain s') (hf : s.FreeExact) : s'.FreeExact := by
  refine ⟨h.free ▸ hf.1, fun slot => ?_⟩
  have hn : s'.scopeAt? slot = none ↔ s.scopeAt? slot = none := by
    have := congrArg Option.isNone (h.plain slot)
    constructor <;> intro hx <;> simpa [hx] using this
  rw [h.free, h.size, hn]
  exact hf.2 slot

theorem PinFits.mono {h h' : Heap} {q : Pin} {hd : Head} (hf : PinFits h q hd)
    (hp : ∀ p b, h.pin? p = some b → h'.pin? p = some b) : PinFits h' q hd :=
  hf.imp_right fun ⟨a, b, ha, hb, he⟩ => ⟨a, b, ha, hp a b hb, he⟩

theorem Sound.newPin {id : ScopeId} {sc : Scope} {parent : Option PinId}
    (hs : s.Sound ((parent.map Ref.pin).toList ++ outer)) (h : s.scope? id = some sc)
    (hser : sc.serial = id.serial) (hn : ∀ p q, s.heap.pin? p = some q → q.scope.slot ≠ id.slot)
    (hfit : PinFits s.heap ⟨id, parent⟩ sc.head) :
    (s.newPin id parent).2.Sound (.pin s.heap.pins.size :: outer) := by
  have hplain := newPin_samePlain h hser parent
  have hhead := newPin_head? h hser parent
  have hlinks := hplain.steady.links
  have hheap : (s.newPin id parent).2.heap = (s.heap.newPin ⟨id, parent⟩).2 := by
    rw [newPin_eq h hser]
  have hpin (p : PinId) : (s.newPin id parent).2.heap.pin? p =
      if p = s.heap.pins.size then some ⟨id, parent⟩ else s.heap.pin? p := by
    rw [hheap, Heap.newPin_pin?]
  have hold (p : PinId) (q : Pin) (hq : s.heap.pin? p = some q) :
      (s.newPin id parent).2.heap.pin? p = some q := by
    rw [hpin, if_neg (Nat.ne_of_lt (Table.lt_size hq)), hq]
  have hr := hs.regular
  have hback {slot : Nat} {hd : Head} (hd' : (s.newPin id parent).2.head? slot = some hd) :
      ∃ hd₀, s.head? slot = some hd₀ ∧ hd₀.serial = hd.serial ∧ hd₀.parent = hd.parent := by
    rw [hhead] at hd'
    split_ifs at hd' with hi
    · obtain rfl := Option.some.inj hd'
      exact ⟨sc.head, by rw [hi]; exact head?_of_scopeAt? h, rfl, rfl⟩
    · exact ⟨hd, hd', rfl, rfl⟩
  refine ⟨⟨?_, ?_, ?_, ?_, ?_, hplain.freeExact hr.free, ?_, ?_, ?_⟩, ?_⟩
  · obtain ⟨hd, hh⟩ := hr.outermost
    obtain ⟨hd', hh', -⟩ := hplain.steady.keeps.holds _ _ hh
    exact ⟨hd', hh'⟩
  · intro slot hd hd'
    obtain ⟨hd₀, h₀, -, hpar⟩ := hback hd'
    exact hpar ▸ hr.parentless slot hd₀ h₀
  · intro slot hd hd'
    obtain ⟨hd₀, h₀, hse, -⟩ := hback hd'
    have := hr.serial_lt slot hd₀ h₀
    rw [hplain.created]
    omega
  · intro i j a b ha hb he
    obtain ⟨a₀, ha₀, hsa, -⟩ := hback ha
    obtain ⟨b₀, hb₀, hsb, -⟩ := hback hb
    exact hr.serial_inj i j a₀ b₀ ha₀ hb₀ (by omega)
  · intro slot hd p hd' hp
    obtain ⟨hd₀, h₀, hse, hpar⟩ := hback hd'
    have := hr.parent_lt slot hd₀ p h₀ (hpar.trans hp)
    omega
  · intro p q hq
    rw [hpin] at hq
    split_ifs at hq with hp
    · obtain rfl := Option.some.inj hq
      refine ⟨{ sc.head with pin := some s.heap.pins.size }, ⟨by rw [hhead]; simp, hser⟩, by
        rw [hp], ?_⟩
      exact hfit.mono hold
    · obtain ⟨hd, hh, hpp, hf⟩ := hr.pinned p q hq
      refine ⟨hd, ⟨?_, hh.2⟩, hpp, hf.mono hold⟩
      rw [hhead, if_neg (hn p q hq)]
      exact hh.1
  · intro f fn hf
    have hf' : s.heap.function? f = some fn := by
      simpa only [Heap.function?, hplain.functions] using hf
    obtain ⟨q, hq, he⟩ := hr.defined f fn hf'
    exact ⟨q, hold _ _ hq, he⟩
  · intro slot hd p hd' hp
    have hsize : (s.newPin id parent).2.heap.pins.size = s.heap.pins.size + 1 := by
      rw [hheap]
      exact Table.size_add ..
    rw [hhead] at hd'
    rw [hsize]
    split_ifs at hd' with hi
    · obtain rfl := Option.some.inj hd'
      obtain rfl := Option.some.inj hp
      exact ⟨Nat.lt_succ_self _, fun q hq => by
        rw [hpin, if_pos rfl] at hq; exact (Option.some.inj hq) ▸ hi.symm⟩
    · obtain ⟨hlt, hslot⟩ := hr.latest slot hd p hd' hp
      refine ⟨Nat.lt_succ_of_lt hlt, fun q hq => hslot q ?_⟩
      rwa [hpin, if_neg (Nat.ne_of_lt hlt)] at hq
  · have hb : s.heap.Balanced (Pin.refs ⟨id, parent⟩ ++ (outer ++ s.boundRefs)) := by
      simpa [Pin.refs] using hs.balanced
    rw [hheap, hplain.boundRefs]
    exact hb.newPin

/-! ## Capturing a scope -/

/-- What capturing a scope leaves: its pin, held from outside, and new pins only on the way out. -/
structure Captured (s : Store) (id : ScopeId) (chain : List ScopeId) (outer : List Ref)
    (r : PinId × Store) : Prop where
  sound : r.2.Sound (.pin r.1 :: outer)
  pinned : ∃ q, r.2.heap.pin? r.1 = some q ∧ q.scope = id
  only : ∀ p q, r.2.heap.pin? p = some q → s.heap.pin? p = some q ∨ q.scope ∈ chain
  same : s.SamePlain r.2

theorem Sound.captured_live {id : ScopeId} {hd : Head} {chain : List ScopeId} {p : PinId}
    (hs : s.Sound outer) (hh : s.Holds id hd) (hp : s.livePin? id = some p) :
    s.Captured id chain outer (p, { s with heap := s.heap.retain (.pin p) }) := by
  obtain ⟨-, q, hq, he⟩ := hs.regular.livePin? hh hp
  have hlive : s.heap.Live (.pin p) := Option.isSome_iff_exists.mpr ⟨q, hq⟩
  refine ⟨hs.of_shrinks (s.heap.retain_shrinks _) (hs.balanced.retain hlive), ?_, ?_, ?_⟩
  · exact ⟨q, by simpa [Heap.retain_pin?] using hq, he⟩
  · intro p' q' hq'
    exact .inl (by simpa [Heap.retain_pin?] using hq')
  · exact ⟨fun _ => rfl, rfl, rfl, rfl, rfl, rfl, rfl, rfl⟩

theorem Sound.captured_new {s₁ : Store} {id : ScopeId} {hd : Head} {above : List ScopeId}
    (parent : Option PinId) (hs : s₁.Sound ((parent.map Ref.pin).toList ++ outer))
    (hsame : s.SamePlain s₁)
    (honly : ∀ p q, s₁.heap.pin? p = some q → s.heap.pin? p = some q ∨ q.scope ∈ above)
    (hh : s₁.Holds id hd) (hn : ∀ p q, s₁.heap.pin? p = some q → q.scope.slot ≠ id.slot)
    (hfit : PinFits s₁.heap ⟨id, parent⟩ hd) :
    s.Captured id (id :: above) outer (s₁.newPin id parent) := by
  obtain ⟨sc, hsc, rfl⟩ := Option.map_eq_some_iff.mp hh.1
  have hnew := newPin_eq hsc hh.2 parent
  have hsound := hs.newPin hsc hh.2 hn hfit
  refine ⟨by rw [hnew] at hsound ⊢; exact hsound, ⟨⟨id, parent⟩, ?_, rfl⟩, fun p q hq => ?_,
    hsame.trans (newPin_samePlain hsc hh.2 parent)⟩
  · rw [hnew]
    simp [Heap.newPin_pin?]
  · rw [hnew] at hq
    simp only [Heap.newPin_pin?] at hq
    split_ifs at hq with h
    · obtain rfl := Option.some.inj hq
      exact .inr (by simp)
    · exact (honly p q hq).imp_right fun hm => List.mem_cons_of_mem _ hm

theorem Sound.captureFor {id : ScopeId} {chain : List ScopeId} (hc : s.Chain id chain)
    {reach : Nat} (hl : chain.length ≤ reach) (hs : s.Sound outer) :
    s.Captured id chain outer (s.captureFor reach id) := by
  induction hc generalizing reach with
  | @global hd there outermost =>
    obtain ⟨reach, rfl⟩ : ∃ n, reach = n + 1 := ⟨reach - 1, by simp at hl; omega⟩
    obtain ⟨sc, hsc, rfl⟩ := Option.map_eq_some_iff.mp there.1
    simp only [Store.captureFor]
    cases hp : s.livePin? global with
    | some p => exact hs.captured_live there hp
    | none =>
      have hpar : (s.scope? global).bind Scope.parent = none := by
        rw [scope?_eq, hsc]
        exact outermost
      simp only [hpar]
      exact Sound.captured_new none hs (.refl s) (fun p q hq => .inl hq) there
        (fun p q => hs.regular.not_pinned hp) (.inl ⟨outermost, rfl⟩)
  | @inside id parent hd above there around rest ih =>
    obtain ⟨reach, rfl⟩ : ∃ n, reach = n + 1 := ⟨reach - 1, by simp at hl; omega⟩
    obtain ⟨sc, hsc, rfl⟩ := Option.map_eq_some_iff.mp there.1
    simp only [Store.captureFor]
    cases hp : s.livePin? id with
    | some p => exact hs.captured_live there hp
    | none =>
      have hpar : (s.scope? id).bind Scope.parent = some parent := by
        rw [scope?_eq, hsc]
        exact around
      simp only [hpar]
      have hcap := @ih reach (by simpa using hl)
      obtain ⟨q, hq, he⟩ := hcap.pinned
      obtain ⟨hd', hh', hpar'⟩ := hcap.same.steady.keeps.holds _ _ there
      have hnodup := hs.regular.chain_nodup (.inside there around rest)
      refine Sound.captured_new (some _) hcap.sound hcap.same hcap.only hh'
        (fun p q hq => ?_) (.inr ⟨_, q, rfl, hq, by rw [hpar', around, he]⟩)
      rcases hcap.only p q hq with hq | hq
      · exact hs.regular.not_pinned hp hq
      · intro hslot
        exact (List.nodup_cons.mp hnodup).1 (hslot ▸ List.mem_map_of_mem hq)

theorem Sound.capture {id : ScopeId} {chain : List ScopeId} (hs : s.Sound outer)
    (hc : s.Chain id chain) : s.Captured id chain outer (s.capture id) :=
  hs.captureFor hc ((hs.regular.chain_length hc).trans (Nat.le_succ _))

/-! ## Functions -/

/-- What making a function leaves. -/
structure Made (s : Store) (outer : List Ref) (r : Value × Store) : Prop where
  value : r.1 = .function s.heap.functions.size
  sound : r.2.Sound (.function s.heap.functions.size :: outer)
  steady : s.Steady r.2

theorem newFunction_function? (s : Store) (id : ScopeId) (name : Option String)
    (params : List String) (body : Node) (source : Source) (f : FunctionId) :
    (s.newFunction id name params body source).2.heap.function? f =
      if f = (s.capture id).2.heap.functions.size then
        some ⟨name, params, body, source, id, (s.capture id).1⟩
      else (s.capture id).2.heap.function? f :=
  Heap.newFunction_function? ..

theorem Sound.newFunction {id : ScopeId} (hs : s.Sound outer) (hid : s.Standing id)
    (name : Option String) (params : List String) (body : Node) (source : Source) :
    s.Made outer (s.newFunction id name params body source) := by
  obtain ⟨chain, hc⟩ := hid
  have hcap := hs.capture hc
  obtain ⟨q, hq, he⟩ := hcap.pinned
  have hfun := hcap.same.functions
  have hsteady := hcap.same.steady
  have hb : (s.capture id).2.heap.Balanced
      (.pin (s.capture id).1 :: (outer ++ (s.capture id).2.boundRefs)) := hcap.sound.balanced
  have hsize : (s.capture id).2.heap.functions.size = s.heap.functions.size := by rw [hfun]
  have hr := hcap.sound.regular
  refine ⟨by rw [← hsize]; rfl, ?_, ?_⟩
  · rw [← hsize]
    refine ⟨⟨hr.outermost, hr.parentless, hr.serial_lt, hr.serial_inj, hr.parent_lt, hr.free,
      hr.pinned, fun f fn hf => ?_, hr.latest⟩, Heap.Balanced.newFunction
        (f := ⟨name, params, body, source, id, (s.capture id).1⟩) hb⟩
    have hf' := (newFunction_function? s id name params body source f).symm.trans hf
    split_ifs at hf' with h
    · obtain rfl := Option.some.inj hf'
      exact ⟨q, hq, he⟩
    · exact hr.defined f fn hf'
  · refine hsteady.trans ⟨fun _ => rfl, rfl, rfl, rfl, rfl, ?_, fun f fn hf hlt => ?_⟩
    · exact (Nat.le_succ _).trans_eq (Table.size_add ..).symm
    · rw [newFunction_function?, if_neg (Nat.ne_of_lt hlt)] at hf
      exact hf

theorem Sound.defineFunction {id : ScopeId} (hs : s.Sound outer) (hid : s.Standing id)
    (name : Option String) (params : List String) (body : Node) (source : Source) :
    s.Made outer (s.defineFunction id name params body source) := by
  have hmade := hs.newFunction hid name params body source
  cases name with
  | none => exact hmade
  | some name =>
    obtain ⟨hv, hsound, hsteady⟩ := hmade
    have hkeep := hsound.keep (v := .function s.heap.functions.size) fun r hr =>
      hsound.live_outer (by simp [Option.mem_some_iff.mp hr])
    simp only [Store.defineFunction, hv]
    exact ⟨rfl, hkeep.define, hsteady.trans ((keep_steady _ _).trans hkeep.define_steady)⟩

/-! ## New scopes -/

theorem head?_child (hf : s.FreeExact) (parent : ScopeId) (slot : Nat) :
    (s.child parent).2.head? slot =
      if slot = (s.child parent).1.slot then some ⟨s.created, some parent, none⟩
      else s.head? slot := by
  simp only [head?, (scopeAt?_child hf parent).2 slot]
  split <;> rfl

theorem child_slot_ne (hf : s.FreeExact) (parent : ScopeId) {slot : Nat} {hd : Head}
    (hh : s.head? slot = some hd) : slot ≠ (s.child parent).1.slot := by
  rintro rfl
  simp [head?, (scopeAt?_child hf parent).1] at hh

theorem Sound.child {parent : ScopeId} (hs : s.Sound outer) (hp : parent.serial < s.created) :
    (s.child parent).2.Sound outer := by
  have hr := hs.regular
  have hhead := head?_child hr.free parent
  have hold {slot : Nat} {hd : Head} (hh : s.head? slot = some hd) :
      (s.child parent).2.head? slot = some hd := by
    rw [hhead, if_neg (child_slot_ne hr.free parent hh), hh]
  have hheap := child_heap s parent
  have hcreated := child_created s parent
  obtain ⟨g, hg⟩ := hr.outermost
  refine ⟨⟨⟨g, hold hg.1, hg.2⟩, ?_, ?_, ?_, ?_, child_freeExact hr.free parent, ?_, ?_, ?_⟩, ?_⟩
  · intro slot hd hh
    rw [hhead] at hh
    split_ifs at hh with hi
    · obtain rfl := Option.some.inj hh
      have : slot ≠ 0 := fun h0 => child_slot_ne hr.free parent hg.1 (h0.symm.trans hi)
      simp [this]
    · exact hr.parentless slot hd hh
  · intro slot hd hh
    rw [hhead] at hh
    rw [hcreated]
    split_ifs at hh with hi
    · obtain rfl := Option.some.inj hh
      exact Nat.lt_succ_self _
    · exact Nat.lt_succ_of_lt (hr.serial_lt slot hd hh)
  · intro i j a b ha hb he
    rw [hhead] at ha hb
    split_ifs at ha hb with hi hj hj
    · exact hi.trans hj.symm
    · obtain rfl := Option.some.inj ha
      exact absurd (hr.serial_lt j b hb) (by simp [← he])
    · obtain rfl := Option.some.inj hb
      exact absurd (hr.serial_lt i a ha) (by simp [he])
    · exact hr.serial_inj i j a b ha hb he
  · intro slot hd p hh hpar
    rw [hhead] at hh
    split_ifs at hh with hi
    · obtain rfl := Option.some.inj hh
      obtain rfl := Option.some.inj hpar
      exact hp
    · exact hr.parent_lt slot hd p hh hpar
  · rw [hheap]
    intro p q hq
    obtain ⟨hd, hh, hpp, hf⟩ := hr.pinned p q hq
    exact ⟨hd, ⟨hold hh.1, hh.2⟩, hpp, hf⟩
  · rw [hheap]
    exact hr.defined
  · rw [hheap]
    intro slot hd p hh hpp
    rw [hhead] at hh
    split_ifs at hh with hi
    · obtain rfl := Option.some.inj hh
      simp at hpp
    · exact hr.latest slot hd p hh hpp
  · rw [hheap]
    exact hs.balanced.congr fun r => by simp [boundRefs_child hr.free parent r]

theorem Sound.child_keeps (hs : s.Sound outer) (parent : ScopeId) :
    s.Keeps (s.child parent).2 := by
  refine ⟨fun id hd hh => ⟨hd, ⟨?_, hh.2⟩, rfl⟩, fun f fn fn' h h' => ?_⟩
  · rw [head?_child hs.regular.free, if_neg (child_slot_ne hs.regular.free parent hh.1)]
    exact hh.1
  · rw [child_heap] at h'
    exact Option.some.inj (h'.symm.trans h)

theorem Sound.child_holds (hs : s.Sound outer) (parent : ScopeId) :
    (s.child parent).2.Holds (s.child parent).1 ⟨s.created, some parent, none⟩ :=
  ⟨by rw [head?_child hs.regular.free, if_pos rfl], (child_id_serial s parent).symm⟩

end Store

end Scriptlet

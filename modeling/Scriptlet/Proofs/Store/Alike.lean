import Scriptlet.Proofs.Store.Reclaim
import Scriptlet.Proofs.Value.Agree
import Scriptlet.Proofs.Value.Effects

/-!
# A store that gives no scope back

A store in which scopes are given back is compared with one in which every
scope stays, and lies in the slot of its number. The second has all that the
first has, and more may be held in it. Each operation done to both keeps it so,
and look-ups find the same in both.
-/

set_option autoImplicit false

namespace Scriptlet.Store

variable {s s' t t' : Store} {outer outer' : List Ref}

/-- More is held if more is held besides. -/
theorem append_subset_append (made : List Ref) (ho : outer ⊆ outer') :
    made ++ outer ⊆ made ++ outer' :=
  List.append_subset.mpr
    ⟨List.subset_append_left .., fun _ hr => List.mem_append_right made (ho hr)⟩

structure Alike (s s' : Store) : Prop where
  heap : s.heap.Agrees s'.heap
  created : s'.created = s.created
  scope : ∀ slot sc, s.scopeAt? slot = some sc →
    ∃ p, s'.scopeAt? sc.serial = some ⟨sc.serial, sc.parent.map ScopeId.kept, sc.bindings, p⟩
  free : s'.free = []
  size : s'.scopes.size = s'.created

namespace Alike

theorem of_heap (ha : s.Alike s') {h h' : Heap} (hh : h.Agrees h') :
    Alike { s with heap := h } { s' with heap := h' } :=
  ⟨hh, ha.created, ha.scope, ha.free, ha.size⟩

theorem holds (ha : s.Alike s') {id : ScopeId} {hd : Head} (hh : s.Holds id hd) :
    ∃ p, s'.Holds id.kept ⟨hd.serial, hd.parent.map ScopeId.kept, p⟩ := by
  obtain ⟨sc, hsc, rfl⟩ := Option.map_eq_some_iff.mp hh.1
  obtain ⟨p, hp⟩ := ha.scope id.slot sc hsc
  have hser : sc.serial = id.serial := hh.2
  have hslot : id.kept.slot = sc.serial := hser.symm
  refine ⟨p, ?_, hser⟩
  rw [hslot, head?_of_scopeAt? hp]
  rfl

theorem chain (ha : s.Alike s') {id : ScopeId} {above : List ScopeId} (hc : s.Chain id above) :
    s'.Chain id.kept (above.map ScopeId.kept) := by
  induction hc with
  | global there outermost =>
    obtain ⟨p, hp⟩ := ha.holds there
    exact .global hp (by simp [outermost])
  | inside there around _ ih =>
    obtain ⟨p, hp⟩ := ha.holds there
    exact .inside hp (by simp [around]) ih

theorem standing (ha : s.Alike s') {id : ScopeId} (h : s.Standing id) : s'.Standing id.kept := by
  obtain ⟨above, hc⟩ := h
  exact ⟨_, ha.chain hc⟩

/-! ## Look-ups -/

theorem findFor (ha : s.Alike s') {id : ScopeId} {above : List ScopeId} (hc : s.Chain id above)
    {n n' : Nat} (hn : above.length ≤ n) (hn' : above.length ≤ n') (name : String) :
    s'.findFor name n' id.kept = (s.findFor name n id).map fun p => (p.1.kept, p.2) := by
  induction hc generalizing n n' with
  | @global hd there outermost =>
    obtain ⟨n, rfl⟩ : ∃ k, n = k + 1 := ⟨n - 1, by simp at hn; omega⟩
    obtain ⟨n', rfl⟩ : ∃ k, n' = k + 1 := ⟨n' - 1, by simp at hn'; omega⟩
    obtain ⟨sc, hsc, rfl⟩ := Option.map_eq_some_iff.mp there.1
    obtain ⟨p, hp⟩ := ha.scope _ sc hsc
    have hser : sc.serial = global.serial := there.2
    rw [hser] at hp
    have hpar : sc.parent = none := outermost
    simp only [Store.findFor, scope?_eq, show s.scopeAt? global.slot = some sc from hsc,
      show s'.scopeAt? global.kept.slot = some _ from hp, hpar]
    cases Bindings.get? name sc.bindings <;> rfl
  | @inside id parent hd above there around rest ih =>
    obtain ⟨n, rfl⟩ : ∃ k, n = k + 1 := ⟨n - 1, by simp at hn; omega⟩
    obtain ⟨n', rfl⟩ : ∃ k, n' = k + 1 := ⟨n' - 1, by simp at hn'; omega⟩
    obtain ⟨sc, hsc, rfl⟩ := Option.map_eq_some_iff.mp there.1
    obtain ⟨p, hp⟩ := ha.scope _ sc hsc
    have hser : sc.serial = id.serial := there.2
    rw [hser] at hp
    have hpar : sc.parent = some parent := around
    have hrest := ih (by simpa using hn) (by simpa using hn')
    simp only [Store.findFor, scope?_eq, show s.scopeAt? id.slot = some sc from hsc,
      show s'.scopeAt? id.kept.slot = some _ from hp, hpar, Option.map_some]
    cases Bindings.get? name sc.bindings with
    | none => exact hrest
    | some v => rfl

theorem find? (ha : s.Alike s') (hs : s.Regular) (hs' : s'.Regular) {id : ScopeId}
    (h : s.Standing id) (name : String) :
    s'.find? id.kept name = (s.find? id name).map fun p => (p.1.kept, p.2) := by
  obtain ⟨above, hc⟩ := h
  have hlen := hs'.chain_length (ha.chain hc)
  rw [List.length_map] at hlen
  exact ha.findFor hc (hs.chain_length hc) hlen name

theorem get? (ha : s.Alike s') (hs : s.Regular) (hs' : s'.Regular) {id : ScopeId}
    (h : s.Standing id) (name : String) : s'.get? id.kept name = s.get? id name := by
  rw [get?_eq, get?_eq, ha.find? hs hs' h name, Option.map_map]
  rfl

theorem owner? (ha : s.Alike s') (hs : s.Regular) (hs' : s'.Regular) {id : ScopeId}
    (h : s.Standing id) (name : String) :
    s'.owner? id.kept name = (s.owner? id name).map ScopeId.kept := by
  rw [owner?_eq, owner?_eq, ha.find? hs hs' h name, Option.map_map, Option.map_map]
  rfl

/-! ## Dropping values -/

theorem boundRefs (ha : s.Alike s') {r : Ref} (hr : r ∈ s.boundRefs) : r ∈ s'.boundRefs := by
  obtain ⟨slot, sc, v, hsc, hv, hvr⟩ := mem_boundRefs.mp hr
  obtain ⟨p, hp⟩ := ha.scope slot sc hsc
  exact mem_boundRefs.mpr ⟨sc.serial, _, v, hp, hv, hvr⟩

/-- What stays in the first store stays in the second, where the same and more is held. -/
theorem dropAll {vs : List Value} (ha : s.Alike s') (hs : s.Sound (Value.refs vs ++ outer))
    (hs' : s'.Sound (Value.refs vs ++ outer')) (ho : outer ⊆ outer') :
    (s.dropAll vs).Alike (s'.dropAll vs) := by
  have hb : s.heap.Balanced (Value.refs vs ++ (outer ++ s.boundRefs)) := by
    simpa using hs.balanced
  have hb' : s'.heap.Balanced (Value.refs vs ++ (outer' ++ s'.boundRefs)) := by
    simpa using hs'.balanced
  have hafter : (s.heap.dropAll vs).Balanced (outer ++ s.boundRefs) := hb.dropAll
  have hshrinks := hb.dropAll_shrinks
  have hlive {r : Ref} (hr : (s.heap.dropAll vs).Live r) (hp : ∀ p, r ≠ .pin p) :
      s'.heap.Live r :=
    ha.heap.live (hshrinks.live hr) hp
  have hsupported : s'.heap.Supported (outer' ++ s'.boundRefs)
      fun r => (s.heap.dropAll vs).Live r ∧ ∀ p, r ≠ .pin p := by
    rintro r ⟨hr, hp⟩
    refine ⟨hlive hr hp, ?_⟩
    rcases hafter.mem_of_live hr with hm | hm
    · left
      rcases List.mem_append.mp hm with hm | hm
      · exact List.mem_append_left _ (ho hm)
      · exact List.mem_append_right _ (ha.boundRefs hm)
    · right
      obtain ⟨u, hu, hru⟩ := Heap.mem_inner.mp hm
      rw [hshrinks.links_eq hu] at hru
      cases u with
      | list id =>
        refine ⟨.list id, ⟨hu, by simp⟩, ?_⟩
        have hitems := ha.heap.items (hshrinks.live hu)
        simpa only [Heap.links, hitems] using hru
      | function f =>
        obtain ⟨fn, hf⟩ := Option.isSome_iff_exists.mp (hshrinks.live hu)
        have hpin : r = .pin fn.pin := by simpa [Heap.links, hf] using hru
        exact absurd hpin (hp _)
      | pin q =>
        obtain ⟨pn, hq⟩ := Option.isSome_iff_exists.mp (hshrinks.live hu)
        have hpin : r ∈ pn.refs := by simpa [Heap.links, hq] using hru
        obtain ⟨k, -, hk⟩ : ∃ k, pn.parent = some k ∧ .pin k = r := by
          simpa [Pin.refs] using hpin
        exact absurd hk.symm (hp k)
  have hstay := hsupported.dropAll hb'
  refine ha.of_heap (ha.heap.of_shrinks hshrinks hb'.dropAll_shrinks ?_)
  intro r hr hp
  exact (hstay r ⟨hr, hp⟩).1

/-- Operands are let go while what was made of them is held. -/
theorem dropOperands {vs rest rest' : List Value} {made : List Ref} (ha : s.Alike s')
    (hs : s.Sound (made ++ Value.refs (vs ++ rest)))
    (hs' : s'.Sound (made ++ Value.refs (vs ++ rest'))) (hr : Value.refs rest ⊆ Value.refs rest') :
    (s.dropAll vs).Alike (s'.dropAll vs) := by
  have hsplit (ws : List Value) (r : Ref) : (Value.refs vs ++ (made ++ Value.refs ws)).count r =
      (made ++ Value.refs (vs ++ ws)).count r := by
    simp
    omega
  exact ha.dropAll (hs.congr (hsplit rest)) (hs'.congr (hsplit rest'))
    (append_subset_append made hr)

theorem keep (ha : s.Alike s') (v : Value) : (s.keep v).Alike (s'.keep v) :=
  ha.of_heap (ha.heap.keep v)

theorem keepAll (ha : s.Alike s') (vs : List Value) : (s.keepAll vs).Alike (s'.keepAll vs) :=
  ha.of_heap (ha.heap.keepAll vs)

theorem newList (ha : s.Alike s') (items : Array Value) :
    (s.newList items).2.Alike (s'.newList items).2 :=
  ha.of_heap (ha.heap.newList items)

/-! ## Bindings -/

theorem rebind (ha : s.Alike s') (hs : s.Regular) {slot : Nat} {sc sc' : Scope}
    (h : s.scopeAt? slot = some sc) (h' : s'.scopeAt? sc.serial = some sc')
    (hp : sc'.parent = sc.parent.map ScopeId.kept) (hser : sc'.serial = sc.serial) (b : Bindings) :
    (s.rebind slot sc b).Alike (s'.rebind sc.serial sc' b) := by
  refine ⟨ha.heap, ha.created, ?_, ha.free, (size_setScope ..).trans ha.size⟩
  intro i si hi
  rw [Store.rebind, scopeAt?_setScope] at hi
  split_ifs at hi with hslot
  · obtain rfl := Option.some.inj hi
    refine ⟨sc'.pin, ?_⟩
    rw [Store.rebind, scopeAt?_setScope, if_pos ⟨rfl, lt_size h'⟩, hser, hp]
  · obtain ⟨p, hsi⟩ := ha.scope i si hi
    have hne : si.serial ≠ sc.serial := by
      intro he
      have := hs.serial_inj i slot _ _ (head?_of_scopeAt? hi) (head?_of_scopeAt? h) he
      exact hslot ⟨this, lt_size h⟩
    refine ⟨p, ?_⟩
    rw [Store.rebind, scopeAt?_setScope, if_neg fun hc => hne hc.1, hsi]

theorem define (ha : s.Alike s') {id : ScopeId} {hd : Head} (hh : s.Holds id hd) {name : String}
    {v : Value} (hs : s.Sound (v.ref?.toList ++ outer))
    (hs' : s'.Sound (v.ref?.toList ++ outer')) (ho : outer ⊆ outer') :
    (s.define id name v).Alike (s'.define id.kept name v) := by
  obtain ⟨sc, hsc, rfl⟩ := Option.map_eq_some_iff.mp hh.1
  obtain ⟨p, hp⟩ := ha.scope id.slot sc hsc
  obtain ⟨sc', hsc', hpar, hser, hbind⟩ : ∃ sc', s'.scopeAt? sc.serial = some sc' ∧
      sc'.parent = sc.parent.map ScopeId.kept ∧ sc'.serial = sc.serial ∧
      sc'.bindings = sc.bindings := ⟨_, hp, rfl, rfl, rfl⟩
  have hre := ha.rebind hs.regular hsc hsc' hpar hser (Bindings.put name v sc.bindings)
  have hslot : sc.serial = id.kept.slot := hh.2
  rw [hslot] at hre hsc'
  have hsound' : (s'.rebind id.kept.slot sc' (Bindings.put name v sc'.bindings)).Sound
      (Value.refs (Bindings.get? name sc'.bindings).toList ++ outer') := hs'.rebind_put hsc'
  rw [hbind] at hsound'
  rw [define_eq (show s.scope? id = some sc from hsc),
    define_eq (show s'.scope? id.kept = some sc' from hsc'), hbind]
  exact hre.dropAll (hs.rebind_put hsc) hsound' ho

theorem findFor_standing {name : String} {n : Nat} {id owner : ScopeId} {v : Value}
    (h : s.Standing id) (hf : s.findFor name n id = some (owner, v)) : s.Standing owner := by
  induction n generalizing id with
  | zero => simp [Store.findFor] at hf
  | succ n ih =>
    obtain ⟨hd, hh⟩ := h.holds
    obtain ⟨sc, hsc, rfl⟩ := Option.map_eq_some_iff.mp hh.1
    simp only [Store.findFor, scope?_eq, hsc] at hf
    split at hf
    · obtain ⟨rfl, -⟩ := Prod.mk.inj (Option.some.inj hf)
      exact h
    · split at hf
      · simp at hf
      · exact ih (h.around hh ‹_›) hf

theorem assign (ha : s.Alike s') {id : ScopeId} (hid : s.Standing id) (declare : Bool)
    (name : String) {v : Value} (hs : s.Sound (v.ref?.toList ++ outer))
    (hs' : s'.Sound (v.ref?.toList ++ outer')) (ho : outer ⊆ outer') :
    (s.assign declare id name v).Alike (s'.assign declare id.kept name v) := by
  obtain ⟨hd, hh⟩ := hid.holds
  cases declare with
  | true => exact ha.define hh hs hs' ho
  | false =>
    have howner := ha.owner? hs.regular hs'.regular hid name
    simp only [Store.assign, Store.set, howner]
    cases howns : s.owner? id name with
    | none => exact ha.define hh hs hs' ho
    | some owner =>
      rw [owner?_eq] at howns
      obtain ⟨⟨_, w⟩, hf, rfl⟩ := Option.map_eq_some_iff.mp howns
      obtain ⟨hd', hh'⟩ := (findFor_standing hid hf).holds
      exact ha.define hh' hs hs' ho

/-! ## Functions and new scopes -/

theorem of_samePlain (ha : s.Alike s') (h : s.SamePlain t) (h' : s'.SamePlain t') :
    t.Alike t' := by
  have hheap : t.heap.Agrees t'.heap := by
    refine ⟨?_, ?_, ?_, ?_⟩
    · rw [h'.lists, h.lists, ha.heap.lists_size]
    · rw [h'.functions, h.functions, ha.heap.functions_size]
    · intro id xs hx
      simp only [Heap.list?, h'.lists, h.lists] at hx ⊢
      exact ha.heap.list id xs hx
    · intro f fn hf
      simp only [Heap.function?, h'.functions, h.functions] at hf ⊢
      exact ha.heap.function f fn hf
  refine ⟨hheap, ?_, ?_, h'.free.trans ha.free, ?_⟩
  · rw [h'.created, h.created, ha.created]
  · intro slot sc hsc
    have hplain := h.plain slot
    rw [hsc] at hplain
    obtain ⟨sc₀, hsc₀, he⟩ := Option.map_eq_some_iff.mp hplain.symm
    simp only [Scope.plain, Scope.mk.injEq] at he
    obtain ⟨hser, hpar, hbind, -⟩ := he
    obtain ⟨p, hp⟩ := ha.scope slot sc₀ hsc₀
    have hplain' := h'.plain sc₀.serial
    rw [hp] at hplain'
    obtain ⟨sc₁, hsc₁, he'⟩ := Option.map_eq_some_iff.mp hplain'
    refine ⟨sc₁.pin, ?_⟩
    rw [← hser, hsc₁, ← hpar, ← hbind]
    obtain ⟨n, par, b, q⟩ := sc₁
    simp only [Scope.plain, Scope.mk.injEq] at he'
    rw [he'.1, he'.2.1, he'.2.2.1]
  · rw [h'.size, h'.created, ha.size]

theorem newFunction (ha : s.Alike s') (hs : s.Sound outer) (hs' : s'.Sound outer') {id : ScopeId}
    (hid : s.Standing id) (name : Option String) (params : List String) (body : Node)
    (source : Source) :
    (s.newFunction id name params body source).2.Alike
      (s'.newFunction id.kept name params body source).2 := by
  obtain ⟨above, hc⟩ := hid
  have hcap := ha.of_samePlain (hs.capture hc).same (hs'.capture (ha.chain hc)).same
  exact hcap.of_heap (hcap.heap.newFunction ⟨name, params, body, source, id, (s.capture id).1⟩
    (s'.capture id.kept).1)

theorem defineFunction (ha : s.Alike s') (hs : s.Sound outer) (hs' : s'.Sound outer')
    (ho : outer ⊆ outer') {id : ScopeId} (hid : s.Standing id) (name : Option String)
    (params : List String) (body : Node) (source : Source) :
    (s'.defineFunction id.kept name params body source).1 =
        (s.defineFunction id name params body source).1 ∧
      (s.defineFunction id name params body source).2.Alike
        (s'.defineFunction id.kept name params body source).2 := by
  have hvalue : (s'.defineFunction id.kept name params body source).1 =
      (s.defineFunction id name params body source).1 := by
    rw [(hs'.defineFunction (ha.standing hid) name params body source).value,
      (hs.defineFunction hid name params body source).value, ha.heap.functions_size]
  refine ⟨hvalue, ?_⟩
  have hnew := ha.newFunction hs hs' hid name params body source
  cases name with
  | none => exact hnew
  | some name =>
    have hmade := hs.newFunction hid (some name) params body source
    have hmade' := hs'.newFunction (ha.standing hid) (some name) params body source
    have hsound' := hmade'.sound
    rw [ha.heap.functions_size] at hsound'
    have hkeep := hmade.sound.keep (v := .function s.heap.functions.size) fun r hr =>
      hmade.sound.live_outer (by simp [Option.mem_some_iff.mp hr])
    have hkeep' := hsound'.keep (v := .function s.heap.functions.size) fun r hr =>
      hsound'.live_outer (by simp [Option.mem_some_iff.mp hr])
    obtain ⟨hd, hh⟩ := hid.holds
    obtain ⟨hd₁, hh₁, -⟩ := hmade.steady.keeps.holds _ _ hh
    obtain ⟨hd₂, hh₂, -⟩ := (keep_steady _ (.function s.heap.functions.size)).keeps.holds _ _ hh₁
    have hdef : ((s.newFunction id (some name) params body source).2.keep
          (.function s.heap.functions.size)).define id name (.function s.heap.functions.size)
        |>.Alike (((s'.newFunction id.kept (some name) params body source).2.keep
          (.function s.heap.functions.size)).define id.kept name
          (.function s.heap.functions.size)) :=
      (hnew.keep (.function s.heap.functions.size)).define hh₂ hkeep hkeep'
        (List.cons_subset_cons _ ho)
    have hv' : (s'.newFunction id.kept (some name) params body source).1 =
        .function s.heap.functions.size := hmade'.value.trans (by rw [ha.heap.functions_size])
    simp only [Store.defineFunction, hmade.value, hv']
    exact hdef

theorem child (ha : s.Alike s') (hs : s.Regular) (parent : ScopeId) :
    (s'.child parent.kept).1 = (s.child parent).1.kept ∧
      (s.child parent).2.Alike (s'.child parent.kept).2 := by
  have hid : (s'.child parent.kept).1 = ⟨s'.scopes.size, s'.created⟩ := by
    simp [Store.child, ha.free]
  have hstore : (s'.child parent.kept).2 = { s' with
      scopes := s'.scopes.push (some ⟨s'.created, some parent.kept, [], none⟩),
      created := s'.created + 1 } := by
    simp [Store.child, ha.free]
  have hat (i : Nat) : (s'.child parent.kept).2.scopeAt? i =
      if i = s'.scopes.size then some ⟨s'.created, some parent.kept, [], none⟩
      else s'.scopeAt? i := by
    rw [hstore]
    by_cases hi : i = s'.scopes.size <;> simp [scopeAt?, Array.getElem?_push, hi]
  refine ⟨?_, ?_, ?_, ?_, ?_, ?_⟩
  · rw [hid, ScopeId.kept, child_id_serial, ha.size, ha.created]
  · rw [child_heap, child_heap]
    exact ha.heap
  · rw [child_created, child_created, ha.created]
  · intro slot sc hsc
    rw [(scopeAt?_child hs.free parent).2] at hsc
    rw [hat, ha.size, ha.created]
    split_ifs at hsc with hslot
    · obtain rfl := Option.some.inj hsc
      exact ⟨none, by simp⟩
    · obtain ⟨p, hp⟩ := ha.scope slot sc hsc
      have hlt : sc.serial < s.created := hs.serial_lt slot _ (head?_of_scopeAt? hsc)
      exact ⟨p, by rw [if_neg (Nat.ne_of_lt hlt), hp]⟩
  · rw [hstore]
    exact ha.free
  · rw [hstore]
    simp [ha.size]

theorem within (ha : s.Alike s') (h : t.Within s) : t.Alike s' := by
  have hheap : t.heap.Agrees s'.heap := by
    apply ha.heap.of_shrinks h.shrinks (.refl _)
    intro r hr hp
    exact ha.heap.live (h.shrinks.live hr) hp
  exact ⟨hheap, ha.created.trans h.created.symm,
    fun slot sc hsc => ha.scope slot sc (h.scopeAt? slot sc hsc), ha.free, ha.size⟩

end Alike

end Scriptlet.Store

import Scriptlet.Proofs.Store.Clients

/-!
# Looking names up

Where every scope has a path outward to the global one, a name is looked up
along that path, whichever of the walks does it. A binding changes what is
found only from scopes whose path comes to it first, and a new scope finds
what the scope around it finds.
-/

set_option autoImplicit false

namespace Scriptlet.Store

variable {s s' : Store} {id k : ScopeId} {slot : Nat} {path : List Nat}
  {name : String} {v : Value}

/-- The slots from a scope outward, each of the scope around the one before, to the global scope,
around which there is none. -/
inductive Path (s : Store) : Nat → List Nat → Prop where
  | outermost {sc : Scope} (there : s.scopeAt? global.slot = some sc) (hp : sc.parent = none) :
      Path s global.slot [global.slot]
  | inside {slot : Nat} {sc : Scope} {parent : ScopeId} {above : List Nat}
      (there : s.scopeAt? slot = some sc) (hp : sc.parent = some parent)
      (rest : Path s parent.slot above) : Path s slot (slot :: above)

/-- From every scope a path of scopes leads to the global one. -/
def Rooted (s : Store) : Prop := ∀ slot sc, s.scopeAt? slot = some sc → ∃ path, s.Path slot path

/-- What a name is bound to in the scope in a slot itself. -/
def boundAt? (s : Store) (name : String) (slot : Nat) : Option Value :=
  (s.scopeAt? slot).bind fun sc => Bindings.get? name sc.bindings

def binds (s : Store) (name : String) (slot : Nat) : Bool := (s.boundAt? name slot).isSome

/-! ## Paths -/

namespace Path

theorem unique (h : s.Path slot path) {other : List Nat} (h' : s.Path slot other) :
    path = other := by
  induction h generalizing other with
  | outermost there hp =>
    cases h' with
    | outermost _ _ => rfl
    | inside there' hp' _ =>
      obtain rfl := Option.some.inj (there.symm.trans there')
      simp [hp] at hp'
  | inside there hp _ ih =>
    cases h' with
    | outermost there' hp' =>
      obtain rfl := Option.some.inj (there.symm.trans there')
      simp [hp] at hp'
    | inside there' hp' rest' =>
      obtain rfl := Option.some.inj (there.symm.trans there')
      obtain rfl := Option.some.inj (hp.symm.trans hp')
      rw [ih rest']

/-- From each slot of a path its rest leads on. -/
theorem onward (h : s.Path slot path) {i : Nat} (hi : i ∈ path) :
    ∃ rest, s.Path i rest ∧ rest.length ≤ path.length := by
  induction h with
  | outermost there hp =>
    obtain rfl := List.mem_singleton.mp hi
    exact ⟨_, .outermost there hp, le_refl _⟩
  | inside there hp rest ih =>
    rcases List.mem_cons.mp hi with rfl | hi
    · exact ⟨_, .inside there hp rest, le_refl _⟩
    · obtain ⟨onward, hpath, hle⟩ := ih hi
      exact ⟨onward, hpath, Nat.le_succ_of_le hle⟩

theorem nodup (h : s.Path slot path) : path.Nodup := by
  induction h with
  | outermost => exact List.nodup_singleton _
  | inside there hp rest ih =>
    refine List.nodup_cons.mpr ⟨fun hmem => ?_, ih⟩
    obtain ⟨onward, hpath, hle⟩ := rest.onward hmem
    obtain rfl := hpath.unique (.inside there hp rest)
    exact Nat.not_succ_le_self _ hle

theorem there (h : s.Path slot path) {i : Nat} (hi : i ∈ path) :
    ∃ sc, s.scopeAt? i = some sc := by
  obtain ⟨rest, hpath, -⟩ := h.onward hi
  cases hpath with
  | outermost there _ => exact ⟨_, there⟩
  | inside there _ _ => exact ⟨_, there⟩

theorem eq_cons (h : s.Path slot path) : ∃ above, path = slot :: above := by
  cases h <;> exact ⟨_, rfl⟩

/-- A path meets no slot twice, so it is no longer than there are slots. -/
theorem length_le (h : s.Path slot path) : path.length ≤ s.scopes.size := by
  have hsub : path ⊆ List.range s.scopes.size := fun i hi =>
    List.mem_range.mpr ((h.there hi).elim fun _ => Store.lt_size)
  simpa using (h.nodup.subperm hsub).length_le

/-- Where the scopes of a path are the same, with the same scopes around them, so is the path. -/
theorem congr (h : s.Path slot path)
    (he : ∀ i ∈ path, (s'.scopeAt? i).map Scope.parent = (s.scopeAt? i).map Scope.parent) :
    s'.Path slot path := by
  have hstep {i : Nat} {sc : Scope} (there : s.scopeAt? i = some sc)
      (hi : (s'.scopeAt? i).map Scope.parent = (s.scopeAt? i).map Scope.parent) :
      ∃ sc', s'.scopeAt? i = some sc' ∧ sc'.parent = sc.parent := by
    rw [there] at hi
    exact Option.map_eq_some_iff.mp hi
  induction h with
  | outermost there hp =>
    obtain ⟨sc', there', hsame⟩ := hstep there (he _ (List.mem_singleton_self _))
    exact .outermost there' (hsame.trans hp)
  | inside there hp _ ih =>
    obtain ⟨sc', there', hsame⟩ := hstep there (he _ (List.mem_cons_self ..))
    exact .inside there' (hsame.trans hp) (ih fun i hi => he i (List.mem_cons_of_mem _ hi))

/-! ## Walks -/

theorem getFor_eq (h : s.Path slot path) {reach : Nat} (hreach : path.length ≤ reach)
    (hid : id.slot = slot) : s.getFor name reach id = path.findSome? (s.boundAt? name) := by
  induction h generalizing id reach with
  | @outermost sc there hp =>
    have hb : s.boundAt? name global.slot = Bindings.get? name sc.bindings := by
      rw [boundAt?, there]
      rfl
    cases reach with
    | zero => exact absurd hreach (Nat.not_succ_le_zero _)
    | succ reach =>
      simp only [getFor, scope?_eq, hid, there, hp, List.findSome?_cons, hb]
      cases Bindings.get? name sc.bindings <;> rfl
  | @inside slot sc parent above there hp _ ih =>
    have hb : s.boundAt? name slot = Bindings.get? name sc.bindings := by
      rw [boundAt?, there]
      rfl
    cases reach with
    | zero => exact absurd hreach (Nat.not_succ_le_zero _)
    | succ reach =>
      simp only [getFor, scope?_eq, hid, there, hp, List.findSome?_cons, hb]
      cases Bindings.get? name sc.bindings with
      | some v => rfl
      | none => exact ih (Nat.le_of_succ_le_succ hreach) rfl

theorem ownerFor_eq (h : s.Path slot path) {reach : Nat} (hreach : path.length ≤ reach)
    (hid : id.slot = slot) :
    (s.ownerFor name reach id).map ScopeId.slot = path.find? (s.binds name) := by
  induction h generalizing id reach with
  | @outermost sc there hp =>
    have hb : s.binds name global.slot = (Bindings.get? name sc.bindings).isSome := by
      rw [binds, boundAt?, there]
      rfl
    cases reach with
    | zero => exact absurd hreach (Nat.not_succ_le_zero _)
    | succ reach =>
      simp only [ownerFor, scope?_eq, hid, there, hp, List.find?_cons, hb]
      cases Bindings.get? name sc.bindings with
      | some v => exact congrArg some hid
      | none => rfl
  | @inside slot sc parent above there hp _ ih =>
    have hb : s.binds name slot = (Bindings.get? name sc.bindings).isSome := by
      rw [binds, boundAt?, there]
      rfl
    cases reach with
    | zero => exact absurd hreach (Nat.not_succ_le_zero _)
    | succ reach =>
      simp only [ownerFor, scope?_eq, hid, there, hp, List.find?_cons, hb]
      cases Bindings.get? name sc.bindings with
      | some v => exact congrArg some hid
      | none => exact ih (Nat.le_of_succ_le_succ hreach) rfl

/-- A look-up finds the first binding on the path. -/
theorem get?_eq (h : s.Path id.slot path) (name : String) :
    s.get? id name = path.findSome? (s.boundAt? name) :=
  h.getFor_eq h.length_le rfl

/-- A name belongs to the first scope on the path that binds it. -/
theorem owner?_eq (h : s.Path id.slot path) (name : String) :
    (s.owner? id name).map ScopeId.slot = path.find? (s.binds name) :=
  h.ownerFor_eq h.length_le rfl

end Path

theorem contains_eq (s : Store) (id : ScopeId) (name : String) :
    s.contains id name = (s.get? id name).isSome := by
  rw [contains, s.get?_eq, s.owner?_eq]
  cases s.find? id name <;> rfl

/-! ## Bindings -/

/-- One store is another with one binding more, or changed. -/
structure Rebinds (s s' : Store) (name : String) (slot : Nat) (v : Value) : Prop where
  bound : ∀ n i, s'.boundAt? n i = if n = name ∧ i = slot then some v else s.boundAt? n i
  parents : ∀ i, (s'.scopeAt? i).map Scope.parent = (s.scopeAt? i).map Scope.parent

theorem define_rebinds {sc : Scope} (h : s.scope? id = some sc) (name : String) (v : Value) :
    s.Rebinds (s.define id name v) name id.slot v := by
  have hslots (i : Nat) : (s.define id name v).scopeAt? i =
      if i = id.slot then some { sc with bindings := Bindings.put name v sc.bindings }
      else s.scopeAt? i := by
    rw [define_eq h]
    exact (scopeAt?_setScope s id.slot i _).trans (by simp [lt_size h])
  refine ⟨fun n i => ?_, fun i => ?_⟩
  · by_cases hi : i = id.slot
    · subst hi
      have hs : s.scopeAt? id.slot = some sc := h
      simp [boundAt?, hslots, hs, Bindings.get?_put]
    · simp [boundAt?, hslots, hi]
  · rw [hslots]
    split
    · next hi =>
      subst hi
      have hs : s.scopeAt? id.slot = some sc := h
      rw [hs]
      rfl
    · rfl

theorem Path.find?_mem {i : Nat} (h : path.find? (s.binds name) = some i) :
    path.findSome? (s.boundAt? name) = s.boundAt? name i := by
  induction path with
  | nil => cases h
  | cons j path ih =>
    simp only [List.find?_cons, List.findSome?_cons] at h ⊢
    cases hb : s.boundAt? name j with
    | some w =>
      rw [binds, hb] at h
      obtain rfl : j = i := Option.some.inj h
      exact hb.symm
    | none =>
      rw [binds, hb] at h
      exact ih h

namespace Rebinds

theorem boundAt?_self (h : s.Rebinds s' name slot v) : s'.boundAt? name slot = some v := by
  simp [h.bound]

theorem onPath (h : s.Rebinds s' name slot v) {i : Nat} (hp : s.Path i path) : s'.Path i path :=
  hp.congr fun i _ => h.parents i

theorem find?_of_head (h : s.Rebinds s' name slot v) (above : List Nat) :
    (slot :: above).find? (s'.binds name) = some slot := by
  simp [binds, h.boundAt?_self]

theorem find?_of_find? (h : s.Rebinds s' name slot v) (hf : path.find? (s.binds name) = some slot) :
    path.find? (s'.binds name) = some slot := by
  induction path with
  | nil => cases hf
  | cons i path ih =>
    by_cases hi : i = slot
    · subst hi
      exact h.find?_of_head path
    · have hsame : s'.binds name i = s.binds name i := by simp [binds, h.bound, hi]
      simp only [List.find?_cons, hsame] at hf ⊢
      cases hb : s.binds name i with
      | true =>
        rw [hb] at hf
        exact absurd (Option.some.inj hf) hi
      | false => exact ih (by simpa [hb] using hf)

/-- What is found changes only for the name, and only where the changed binding comes first. -/
theorem comes_first (h : s.Rebinds s' name slot v) {n : String}
    (hne : path.findSome? (s'.boundAt? n) ≠ path.findSome? (s.boundAt? n)) :
    n = name ∧ path.find? (s'.binds n) = some slot := by
  have hn : n = name := by
    by_contra hn
    have hsame : s'.boundAt? n = s.boundAt? n := funext fun i => by simp [h.bound, hn]
    exact hne (by rw [hsame])
  subst hn
  refine ⟨rfl, ?_⟩
  induction path with
  | nil => exact absurd rfl hne
  | cons i path ih =>
    by_cases hi : i = slot
    · subst hi
      simp [binds, h.bound]
    · have hsame : s'.boundAt? n i = s.boundAt? n i := by simp [h.bound, hi]
      simp only [List.findSome?_cons, List.find?_cons, binds, hsame] at hne ⊢
      cases hb : s.boundAt? n i with
      | some w => simp [hb] at hne
      | none => exact ih (by simpa [hb] using hne)

end Rebinds

/-- What it does to look-ups to bind a name in a slot: it is found there from a scope, no other
binding changes, and what is found changes only for the name, from where that slot is now the first
to bind it. -/
structure Writes (s s' : Store) (id : ScopeId) (name : String) (slot : Nat) (v : Value) : Prop where
  rebinds : s.Rebinds s' name slot v
  found : s'.get? id name = some v
  elsewhere : ∀ k n, s.occupied k → s'.get? k n ≠ s.get? k n →
    n = name ∧ ∃ path, s'.Path k.slot path ∧ path.find? (s'.binds name) = some slot

theorem Rooted.pathOf (hr : s.Rooted) (h : s.occupied id) : ∃ path, s.Path id.slot path := by
  obtain ⟨sc, hsc⟩ := Option.isSome_iff_exists.mp h
  exact hr _ sc hsc

theorem Rebinds.writes (h : s.Rebinds s' name slot v) (hr : s.Rooted)
    (hp : s.Path id.slot path) (hfirst : path.find? (s'.binds name) = some slot) :
    s.Writes s' id name slot v := by
  refine ⟨h, ?_, fun k n hk hne => ?_⟩
  · rw [(h.onPath hp).get?_eq, Path.find?_mem hfirst, h.boundAt?_self]
  · obtain ⟨outward, hout⟩ := hr.pathOf hk
    rw [hout.get?_eq, (h.onPath hout).get?_eq] at hne
    obtain ⟨rfl, hcomes⟩ := h.comes_first hne
    exact ⟨rfl, outward, h.onPath hout, hcomes⟩

theorem define_writes (hr : s.Rooted) (h : s.occupied id) (name : String) (v : Value) :
    s.Writes (s.define id name v) id name id.slot v := by
  obtain ⟨sc, hsc⟩ := Option.isSome_iff_exists.mp h
  obtain ⟨path, hp⟩ := hr.pathOf h
  have hbound := define_rebinds hsc name v
  obtain ⟨above, rfl⟩ := hp.eq_cons
  exact hbound.writes hr hp (hbound.find?_of_head above)

/-- A name is set in the first scope on the path that binds it, or else in the first of all. -/
theorem set_writes (hr : s.Rooted) (hp : s.Path id.slot path) (name : String) (v : Value) :
    s.Writes (s.set id name v) id name ((path.find? (s.binds name)).getD id.slot) v := by
  have howner := hp.owner?_eq name
  unfold set
  cases ho : s.owner? id name with
  | none =>
    rw [ho] at howner
    rw [← howner]
    obtain ⟨above, rfl⟩ := hp.eq_cons
    obtain ⟨sc, hsc⟩ := hp.there (List.mem_cons_self ..)
    exact define_writes hr (Option.isSome_iff_exists.mpr ⟨sc, hsc⟩) name v
  | some owner =>
    rw [ho] at howner
    obtain ⟨sc, hsc⟩ := hp.there (List.mem_of_find?_eq_some howner.symm)
    have hbound : s.Rebinds (s.define owner name v) name owner.slot v := define_rebinds hsc name v
    rw [← howner]
    exact hbound.writes hr hp (hbound.find?_of_find? howner.symm)

/-! ## New scopes -/

/-- What it does to look-ups to make a scope: from it is found what is found from its parent, and
from the scopes that were there what was found before. -/
structure Opens (s : Store) (parent : ScopeId) : Prop where
  there : (s.child parent).2.occupied (s.child parent).1
  inherits : ∀ name, (s.child parent).2.get? (s.child parent).1 name = s.get? parent name
  elsewhere : ∀ k name, s.occupied k → (s.child parent).2.get? k name = s.get? k name

theorem child_opens (hr : s.Rooted) (hf : s.NextFree) {parent : ScopeId} (h : s.occupied parent) :
    s.Opens parent := by
  obtain ⟨hempty, hslots⟩ := hf.scopeAt?_child parent
  have hsame {i : Nat} {path : List Nat} (hp : s.Path i path) :
      ∀ j ∈ path, (s.child parent).2.scopeAt? j = s.scopeAt? j := by
    intro j hj
    rw [hslots, if_neg]
    rintro rfl
    obtain ⟨sc, hsc⟩ := hp.there hj
    cases hempty.symm.trans hsc
  have hpath {i : Nat} {path : List Nat} (hp : s.Path i path) : (s.child parent).2.Path i path :=
    hp.congr fun j hj => by rw [hsame hp j hj]
  have hfind {i : Nat} {path : List Nat} (hp : s.Path i path) (name : String) :
      path.findSome? ((s.child parent).2.boundAt? name) = path.findSome? (s.boundAt? name) := by
    rw [← List.head?_filterMap, ← List.head?_filterMap, List.filterMap_congr fun j hj => ?_]
    rw [boundAt?, hsame hp j hj, boundAt?]
  have hnew : (s.child parent).2.scopeAt? (s.child parent).1.slot =
      some ⟨s.created, some parent, [], none⟩ := by rw [hslots, if_pos rfl]
  refine ⟨Option.isSome_iff_exists.mpr ⟨_, hnew⟩, fun name => ?_, fun k name hk => ?_⟩
  · obtain ⟨path, hp⟩ := hr.pathOf h
    have hinside : (s.child parent).2.Path (s.child parent).1.slot (_ :: path) :=
      .inside hnew rfl (hpath hp)
    rw [hinside.get?_eq, hp.get?_eq, List.findSome?_cons, hfind hp]
    simp [boundAt?, hnew, Bindings.get?]
  · obtain ⟨path, hp⟩ := hr.pathOf hk
    rw [(hpath hp).get?_eq, hp.get?_eq, hfind hp]

/-- In a store of rooted scopes a name is set where it belongs and defined where it is asked for,
and either changes one binding and what is found of it; a name is there if it has a value. If the
slot that is used next is empty, a new scope changes nothing for others. -/
theorem scope_chain_laws (hr : s.Rooted) :
    (∀ id name v, s.occupied id →
      (∃ path, s.Path id.slot path ∧
        s.Writes (s.set id name v) id name ((path.find? (s.binds name)).getD id.slot) v) ∧
      s.Writes (s.define id name v) id name id.slot v) ∧
    (∀ id name, s.contains id name = (s.get? id name).isSome) ∧
    (s.NextFree → ∀ parent, s.occupied parent → s.Opens parent) := by
  refine ⟨fun id name v h => ⟨?_, define_writes hr h name v⟩, s.contains_eq,
    fun hf parent h => child_opens hr hf h⟩
  obtain ⟨path, hp⟩ := hr.pathOf h
  exact ⟨path, hp, set_writes hr hp name v⟩

/-! ## Rooted stores -/

/-- The path from a slot, if it takes no more than `reach` steps. -/
def climb (s : Store) : (reach : Nat) → (slot : Nat) → Option (List Nat)
  | 0, _ => none
  | reach + 1, slot =>
    match s.scopeAt? slot with
    | none => none
    | some sc =>
      match sc.parent with
      | none => if slot = global.slot then some [slot] else none
      | some parent => (climb s reach parent.slot).map (slot :: ·)

theorem climb_path {reach : Nat} (h : s.climb reach slot = some path) : s.Path slot path := by
  induction reach generalizing slot path with
  | zero => cases h
  | succ reach ih =>
    unfold climb at h
    split at h
    · cases h
    · next sc there =>
      split at h
      · next hp =>
        split_ifs at h with hs
        subst hs
        obtain rfl := Option.some.inj h
        exact .outermost there hp
      · next parent hp =>
        obtain ⟨above, habove, rfl⟩ := Option.map_eq_some_iff.mp h
        exact .inside there hp (ih habove)

theorem rooted_of_climb (h : ∀ slot < s.scopes.size, (s.scopeAt? slot).isSome →
    (s.climb s.scopes.size slot).isSome) : s.Rooted := by
  intro slot sc hsc
  obtain ⟨path, hpath⟩ := Option.isSome_iff_exists.mp (h slot (lt_size hsc) (by simp [hsc]))
  exact ⟨path, climb_path hpath⟩

/-- A name that is bound in the global scope and in a scope inside it, in which there is one more.
Two slots have been given back, and one of them is used again. -/
def shadowing : Store :=
  serveAll [.define global "x" (.int 1), .child global, .define ⟨1, 1⟩ "x" (.int 2),
    .child ⟨1, 1⟩, .child global, .child global, .release ⟨4, 4⟩, .release ⟨3, 3⟩,
    .child global] bare

/-- The name is set in the middle scope, and found as before from the scope in the used slot. -/
theorem scope_chain_laws_shadowing :
    shadowing.Rooted ∧ shadowing.NextFree ∧ shadowing.occupied ⟨2, 2⟩ ∧
    shadowing.Writes (shadowing.set ⟨2, 2⟩ "x" (.int 3)) ⟨2, 2⟩ "x" 1 (.int 3) ∧
    (shadowing.set ⟨2, 2⟩ "x" (.int 3)).get? ⟨3, 5⟩ "x" = some (.int 1) ∧
    (shadowing.child ⟨2, 2⟩).1 = ⟨4, 6⟩ ∧ shadowing.Opens ⟨2, 2⟩ := by
  have hr : shadowing.Rooted := rooted_of_climb (by decide +kernel)
  have hf : shadowing.NextFree := by
    intro slot hslot
    obtain rfl : 4 = slot := Option.some.inj hslot
    exact ⟨by decide +kernel, rfl⟩
  obtain ⟨hwrite, -, hopen⟩ := scope_chain_laws hr
  obtain ⟨⟨path, hp, hset⟩, -⟩ := hwrite ⟨2, 2⟩ "x" (.int 3) (by decide +kernel)
  have hclimb : shadowing.climb 3 2 = some [2, 1, 0] := rfl
  obtain rfl : path = [2, 1, 0] := hp.unique (climb_path hclimb)
  exact ⟨hr, hf, by decide +kernel, hset, rfl, rfl, hopen hf ⟨2, 2⟩ (by decide +kernel)⟩

/-- A pinned scope is ended twice, unpinned, and swept. Its slot is used again, and a scope inside
the new one takes a slot that has been given back in between. -/
def overlapping : Store :=
  serveAll [.child global, .child global, .capture ⟨1, 1⟩, .release ⟨1, 1⟩, .release ⟨1, 1⟩,
    .dropPin 1, .sweep, .child global, .define ⟨1, 3⟩ "y" (.int 1), .release ⟨2, 2⟩,
    .child ⟨1, 3⟩] bare

/-- A new scope then takes the place of the scope around the inner one, which loses what it found
there. -/
theorem overlapping_child_disturbs : overlapping.Rooted ∧ overlapping.occupied global ∧
    overlapping.occupied ⟨2, 4⟩ ∧ (overlapping.child global).1.slot ≠ 2 ∧
    (overlapping.get? ⟨2, 4⟩ "y").isSome ∧
    (overlapping.child global).2.get? ⟨2, 4⟩ "y" = none :=
  ⟨rooted_of_climb (by decide +kernel), by decide +kernel, by decide +kernel, by decide +kernel,
    by decide +kernel, by decide +kernel⟩

end Scriptlet.Store

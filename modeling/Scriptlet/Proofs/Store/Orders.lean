import Scriptlet.Proofs.Heap.Settling
import Scriptlet.Proofs.Store.Marking
import Scriptlet.Proofs.Store.Tally

/-!
# Sweeps in any order

A sweep enumerates the bindings of scopes and a table of the functions bound
in them, in whatever orders. While the table is there it holds its functions,
each once, and when it goes it lets go of them. Marking takes the latest place
that was noted and notes those that follow it. None of this shows in what a
sweep leaves: the table has the same functions with the same counts and leaves
no trace, the counters are lowered as often, marking reaches what paths lead
to, and values may be let go in any order.
-/

set_option autoImplicit false

namespace Scriptlet

namespace Sweep

/-- Orders to enumerate the bindings of each slot and the table of bound functions in. -/
structure Orders where
  bindings : Nat → Bindings → Bindings
  table : List (FunctionId × Nat) → List (FunctionId × Nat)
  bindings_perm : ∀ slot b, (bindings slot b).Perm b
  table_perm : ∀ t, (table t).Perm t

instance : Inhabited Orders := ⟨⟨fun _ => id, id, fun _ => .refl, .refl⟩⟩

/-- The bindings of a scope in the order in which they are enumerated. -/
def bindingsIn (o : Orders) (s : Store) (id : ScopeId) : Bindings :=
  o.bindings id.slot (((s.scope? id).map Scope.bindings).getD [])

/-- The references that a table of functions holds. -/
def heldBy (table : List (FunctionId × Nat)) : List Ref := table.map fun e => .function e.1

/-- Enters a bound function into a table. A function that is new there is held by the table. -/
def enter : Heap × List (FunctionId × Nat) → FunctionId → Heap × List (FunctionId × Nat)
  | (h, table), f =>
    if f ∈ table.map Prod.fst then
      (h, table.map fun e => if e.1 = f then (f, e.2 + 1) else e)
    else (h.retain (.function f), (f, 1) :: table)

/-- The table of the functions bound in detached scopes, and the heap while the table is there. -/
def tableIn (o : Orders) (s : Store) (f : Field) : Heap × List (FunctionId × Nat) :=
  (f.ids.toList.flatMap fun id => functionsOf (bindingsIn o s id)).foldl enter (s.heap, [])

/-- The places whose pins are referred to by functions that only detached scopes and the table
hold. -/
def functionPlacesIn (o : Orders) (s : Store) (f : Field) : List Nat :=
  let t := tableIn o s f
  (o.table t.2).filterMap fun e =>
    if t.1.refs (.function e.1) - 1 = e.2 then
      (s.heap.function? e.1).bind fun fn => pinPlace? s f fn.pin
    else none

/-- The store when the table has gone, and what it held with it. -/
def untabled (o : Orders) (s : Store) (f : Field) : Store :=
  let t := tableIn o s f
  { s with heap := t.1.release (heldBy (o.table t.2)) }

def outsideIn (o : Orders) (s : Store) (f : Field) : Array Nat :=
  (parentPlaces s f ++ functionPlacesIn o s f).foldl (fun a i => a.modify i (· - 1))
    (pinCounts s f)

def successorsIn (o : Orders) (s : Store) (f : Field) (place : Nat) : List Nat :=
  match f.ids[place]? with
  | none => []
  | some id =>
    match s.scope? id with
    | none => []
    | some scope =>
      (scope.parent.bind fun p => f.place? p.slot).toList
        ++ (functionsOf (bindingsIn o s id)).filterMap fun fn =>
          (s.heap.function? fn).bind fun fn => f.place? fn.scope.slot

theorem unmarked_set {seen : Array Bool} {i : Nat} (h : seen[i]? = some false) :
    unmarked (seen.setIfInBounds i true) < unmarked seen := by
  have hmark : mark (seen, []) i = (seen.setIfInBounds i true, [i]) := by simp [mark, h]
  have hcount := (mark_spec seen [] i).2.2.2
  rw [hmark] at hcount
  simp at hcount
  omega

/-- Marks all that can be reached from the places on a stack. -/
def trail (next : Nat → List Nat) (seen : Array Bool) : List Nat → Array Bool
  | [] => seen
  | i :: stack =>
    if _ : seen[i]? = some false then
      trail next (seen.setIfInBounds i true) ((next i).reverse ++ stack)
    else trail next seen stack
termination_by stack => (unmarked seen, stack.length)
decreasing_by
  · exact Prod.Lex.left _ _ (unmarked_set ‹_›)
  · exact Prod.Lex.right _ (Nat.lt_succ_self _)

/-- For each detached scope, whether it stays. -/
def reachedIn (o : Orders) (s : Store) (f : Field) (out : Array Nat) : Array Bool :=
  let roots := (List.range f.ids.size).filter fun i => 0 < out.getD i 0
  trail (successorsIn o s f) (Array.replicate f.ids.size false) roots.reverse

end Sweep

namespace Store

/-- Gives a slot back, and then what was bound in it, one value after the other. -/
def freeSlotIn (o : Sweep.Orders) (s : Store) (id : ScopeId) : Store :=
  let old := Sweep.bindingsIn o s id
  let s := { s with scopes := s.scopes.setIfInBounds id.slot none, free := id.slot :: s.free }
  (Bindings.values old).foldl drop s

/-- Sweeps with bindings and the table enumerated in the given orders. -/
def sweepIn (o : Sweep.Orders) (s : Store) : Store :=
  let f := Sweep.field s
  let out := Sweep.outsideIn o s f
  let s := Sweep.untabled o s f
  let stays := Sweep.reachedIn o s f out
  let marked := f.ids.toList.zip stays.toList
  let kept := (marked.filter Prod.snd).map Prod.fst
  let gone := (marked.filter fun m => !m.2).map Prod.fst
  let s := { s with detached := kept.toArray, nextSweep := max (2 * kept.length) leastSweep }
  gone.foldl (freeSlotIn o) s

end Store

namespace Sweep

variable {o : Orders} {s : Store} {f : Field}

/-! ## The table -/

/-- What holds while functions are entered: the counts are those of the functions entered so far,
and the heap has one reference more to each of them. -/
structure Tabled (h : Heap) (fs : List FunctionId) (t : Heap × List (FunctionId × Nat)) : Prop where
  nodup : (t.2.map Prod.fst).Nodup
  counted : ∀ f c, (f, c) ∈ t.2 ↔ 0 < c ∧ c = fs.count f
  held : t.1 = h.retainAll (heldBy t.2)

variable {h : Heap} {fs : List FunctionId} {t : Heap × List (FunctionId × Nat)}

theorem Tabled.mem_keys (ht : Tabled h fs t) (f : FunctionId) : f ∈ t.2.map Prod.fst ↔ f ∈ fs := by
  simp only [List.mem_map, Prod.exists, exists_and_right, exists_eq_right, ht.counted]
  rw [← List.count_pos_iff]

theorem heldBy_eq (table : List (FunctionId × Nat)) :
    heldBy table = (table.map Prod.fst).map .function := by simp [heldBy]

theorem heldBy_perm {table table' : List (FunctionId × Nat)} (hp : table.Perm table') :
    (heldBy table).Perm (heldBy table') :=
  hp.map _

theorem Tabled.refs (ht : Tabled h fs t) {e : FunctionId × Nat} (he : e ∈ t.2) :
    t.1.refs (.function e.1) - 1 = h.refs (.function e.1) := by
  have hnodup : (heldBy t.2).Nodup :=
    heldBy_eq t.2 ▸ ht.nodup.map fun _ _ h => Ref.function.inj h
  have hsub := h.retainAll_refs_sub hnodup (.function e.1)
  have hmem : Ref.function e.1 ∈ heldBy t.2 := List.mem_map.mpr ⟨e, he, rfl⟩
  rwa [if_pos hmem, ← ht.held] at hsub

theorem Tabled.enter (ht : Tabled h fs t) (f : FunctionId) :
    Tabled h (fs ++ [f]) (Sweep.enter t f) := by
  obtain ⟨h', table⟩ := t
  have hcount (g : FunctionId) : (fs ++ [f]).count g = fs.count g + if g = f then 1 else 0 := by
    by_cases hg : g = f <;> simp [hg, Ne.symm]
  by_cases hf : f ∈ fs
  · have hkey : f ∈ table.map Prod.fst := (ht.mem_keys f).mpr hf
    have he : Sweep.enter (h', table) f =
        (h', table.map fun e => if e.1 = f then (f, e.2 + 1) else e) := if_pos hkey
    have hkeys : (table.map fun e => if e.1 = f then (f, e.2 + 1) else e).map Prod.fst =
        table.map Prod.fst := by
      rw [List.map_map]
      refine List.map_congr_left fun e _ => ?_
      by_cases hef : e.1 = f <;> simp [hef]
    rw [he]
    refine ⟨hkeys ▸ ht.nodup, fun g c => ?_, ?_⟩
    · rw [hcount, List.mem_map]
      constructor
      · rintro ⟨⟨k, d⟩, hkd, hgc⟩
        obtain ⟨hd, rfl⟩ := (ht.counted k d).mp hkd
        by_cases hk : k = f <;> simp only [hk, if_true, if_false, Prod.mk.injEq] at hgc
        · obtain ⟨rfl, rfl⟩ := hgc
          simp
        · obtain ⟨rfl, rfl⟩ := hgc
          simp [hk, hd]
      · rintro ⟨hc, rfl⟩
        by_cases hg : g = f
        · subst hg
          exact ⟨(g, fs.count g), (ht.counted g _).mpr ⟨List.count_pos_iff.mpr hf, rfl⟩, by simp⟩
        · simp only [hg, if_false, Nat.add_zero] at hc ⊢
          exact ⟨(g, fs.count g), (ht.counted g _).mpr ⟨hc, rfl⟩, by simp [hg]⟩
    · rw [heldBy_eq, hkeys, ← heldBy_eq]
      exact ht.held
  · have hkey : f ∉ table.map Prod.fst := mt (ht.mem_keys f).mp hf
    have he : Sweep.enter (h', table) f = (h'.retain (.function f), (f, 1) :: table) := if_neg hkey
    have hzero : fs.count f = 0 := List.count_eq_zero.mpr hf
    rw [he]
    refine ⟨List.nodup_cons.mpr ⟨hkey, ht.nodup⟩, fun g c => ?_,
      congrArg (Heap.retain · (.function f)) ht.held⟩
    rw [hcount, List.mem_cons, ht.counted]
    by_cases hg : g = f
    · subst hg
      simp [hzero]
      omega
    · simp [hg]

theorem Tabled.foldl (ht : Tabled h fs t) (gs : List FunctionId) :
    Tabled h (fs ++ gs) (gs.foldl Sweep.enter t) := by
  induction gs generalizing fs t with
  | nil => simpa using ht
  | cons g gs ih => simpa using ih (ht.enter g)

/-! ## The counters -/

theorem bound_perm (o : Orders) (s : Store) (f : Field) :
    (f.ids.toList.flatMap fun id => functionsOf (bindingsIn o s id)).Perm
      (f.ids.toList.flatMap (boundIn s)) :=
  List.Perm.flatMap_left _ fun id _ => (o.bindings_perm id.slot _).filterMap _

theorem tabled (o : Orders) (s : Store) (f : Field) :
    Tabled s.heap (f.ids.toList.flatMap fun id => functionsOf (bindingsIn o s id))
      (tableIn o s f) := by
  have hstart : Tabled s.heap [] (s.heap, []) := ⟨by simp, by simp; omega, rfl⟩
  exact hstart.foldl _

/-- The table has the functions and counts of the tally. -/
theorem table_perm_tally (o : Orders) (s : Store) (f : Field) :
    (tableIn o s f).2.Perm (tally (f.ids.toList.flatMap (boundIn s)).mergeSort) := by
  have htable := tabled o s f
  obtain ⟨hnodup, hmem⟩ := tally_mergeSort (f.ids.toList.flatMap (boundIn s))
  have hnodup' := htable.nodup
  refine (List.perm_ext_iff_of_nodup hnodup'.of_map hnodup.of_map).mpr ?_
  rintro ⟨g, c⟩
  rw [htable.counted, hmem, (bound_perm o s f).count_eq]

/-- What goes with the table does not depend on the orders. -/
theorem untabled_unordered (o p : Orders) (s : Store) (f : Field) :
    untabled o s f = untabled p s f := by
  have hsame : (tableIn o s f).2.Perm (tableIn p s f).2 :=
    (table_perm_tally o s f).trans (table_perm_tally p s f).symm
  have hheld : (heldBy (o.table (tableIn o s f).2)).Perm (heldBy (p.table (tableIn p s f).2)) :=
    heldBy_perm ((o.table_perm _).trans (hsame.trans (p.table_perm _).symm))
  rw [untabled, untabled, (tabled o s f).held, (tabled p s f).held,
    Heap.retainAll_perm s.heap (heldBy_perm hsame), Heap.release_perm _ hheld]

/-- Nothing goes with the table if every function is referred to. -/
theorem untabled_eq (o : Orders) {s : Store} (f : Field)
    (hused : ∀ g, s.heap.Live (.function g) → 0 < s.heap.refs (.function g)) :
    untabled o s f = s := by
  have hheld : ∀ r ∈ heldBy (tableIn o s f).2, s.heap.Live r → 0 < s.heap.refs r := by
    intro r hr
    obtain ⟨e, -, rfl⟩ := List.mem_map.mp hr
    exact hused e.1
  rw [untabled, (tabled o s f).held, Heap.release_perm _ (heldBy_perm (o.table_perm _)),
    Heap.release_retainAll hheld]

theorem functionPlacesIn_perm (o : Orders) (s : Store) (f : Field) :
    (functionPlacesIn o s f).Perm (functionPlaces s f) := by
  have hsame : (tableIn o s f).2.filterMap (fun e =>
      if (tableIn o s f).1.refs (.function e.1) - 1 = e.2 then
        (s.heap.function? e.1).bind fun fn => pinPlace? s f fn.pin
      else none) = (tableIn o s f).2.filterMap fun e =>
      if s.heap.refs (.function e.1) = e.2 then
        (s.heap.function? e.1).bind fun fn => pinPlace? s f fn.pin
      else none :=
    List.filterMap_congr fun e he => by rw [(tabled o s f).refs he]
  have htally := (table_perm_tally o s f).filterMap fun e =>
    if s.heap.refs (.function e.1) = e.2 then
      (s.heap.function? e.1).bind fun fn => pinPlace? s f fn.pin
    else none
  rw [← hsame] at htally
  exact ((o.table_perm _).filterMap _).trans htally

theorem outsideIn_eq (o : Orders) (s : Store) (f : Field) : outsideIn o s f = outside s f := by
  refine Array.ext_getElem? fun i => ?_
  rw [outsideIn, outside, getElem?_foldl_modify, getElem?_foldl_modify, List.count_append,
    List.count_append, (functionPlacesIn_perm o s f).count_eq]

/-! ## Marking -/

theorem successorsIn_perm (o : Orders) (s : Store) (f : Field) (i : Nat) :
    (successorsIn o s f i).Perm (successors s f i) := by
  unfold successorsIn successors
  cases f.ids[i]? with
  | none => exact .refl _
  | some id =>
    cases hsc : s.scope? id with
    | none => simp [hsc]
    | some scope =>
      simp only [Option.bind_some, hsc, bindingsIn, Option.map_some, Option.getD_some]
      exact (((o.bindings_perm id.slot scope.bindings).filterMap _).filterMap _).append_left _

/-- What holds while places are taken from the stack: what is marked is led to, and so is what is
on the stack; what follows a marked place is marked or on the stack. -/
structure Trailing (next : Nat → List Nat) (root : Nat → Prop) (size : Nat) (stack : List Nat)
    (seen : Array Bool) : Prop where
  all : seen.size = size
  sound : ∀ i, Marked seen i → Path next root i
  noted : ∀ i ∈ stack, Path next root i ∧ i < size
  roots : ∀ i, root i → Marked seen i ∨ i ∈ stack
  closed : ∀ i, Marked seen i → ∀ j ∈ next i, Marked seen j ∨ j ∈ stack

variable {next : Nat → List Nat} {root : Nat → Prop} {size i : Nat} {stack : List Nat}
  {seen : Array Bool}

theorem marked_set (h : seen[i]? = some false) (j : Nat) :
    Marked (seen.setIfInBounds i true) j ↔ Marked seen j ∨ j = i := by
  have hmark : mark (seen, []) i = (seen.setIfInBounds i true, [i]) := by simp [mark, h]
  have hspec := (mark_spec seen [] i).2.1 j
  rw [hmark] at hspec
  rw [hspec]
  exact or_congr_right ⟨And.left, fun he => ⟨he, he ▸ (Array.getElem?_eq_some_iff.mp h).1⟩⟩

theorem Trailing.push (hnext : ∀ i, ∀ j ∈ next i, j < size) (h : seen[i]? = some false)
    (ht : Trailing next root size (i :: stack) seen) :
    Trailing next root size ((next i).reverse ++ stack) (seen.setIfInBounds i true) := by
  obtain ⟨hall, hsound, hnoted, hroots, hclosed⟩ := ht
  have hi := (hnoted i (by simp)).1
  have hstack {j : Nat} (hj : Marked seen j ∨ j ∈ i :: stack) :
      Marked (seen.setIfInBounds i true) j ∨ j ∈ (next i).reverse ++ stack := by
    rw [marked_set h]
    simp only [List.mem_cons, List.mem_append] at hj ⊢
    tauto
  refine ⟨by simp [hall], fun j hj => ?_, fun j hj => ?_, fun j hj => hstack (hroots j hj),
    fun j hj k hk => ?_⟩
  · rcases (marked_set h j).mp hj with hj | rfl
    · exact hsound j hj
    · exact hi
  · rcases List.mem_append.mp hj with hj | hj
    · have hj := List.mem_reverse.mp hj
      exact ⟨.step hi hj, hnext i j hj⟩
    · exact hnoted j (List.mem_cons_of_mem _ hj)
  · rcases (marked_set h j).mp hj with hj | rfl
    · exact hstack (hclosed j hj k hk)
    · exact .inr (List.mem_append_left _ (List.mem_reverse.mpr hk))

theorem Trailing.skip (h : ¬ seen[i]? = some false)
    (ht : Trailing next root size (i :: stack) seen) : Trailing next root size stack seen := by
  obtain ⟨hall, hsound, hnoted, hroots, hclosed⟩ := ht
  have hi : Marked seen i := by
    have hlt : i < seen.size := hall ▸ (hnoted i (by simp)).2
    simpa [Marked, hlt] using h
  have hstack {j : Nat} (hj : Marked seen j ∨ j ∈ i :: stack) : Marked seen j ∨ j ∈ stack := by
    rcases hj with hj | hj
    · exact .inl hj
    · exact (List.mem_cons.mp hj).imp_left fun he => by rwa [he]
  exact ⟨hall, hsound, fun j hj => hnoted j (List.mem_cons_of_mem _ hj),
    fun j hj => hstack (hroots j hj), fun j hj k hk => hstack (hclosed j hj k hk)⟩

theorem Trailing.trail (hnext : ∀ i, ∀ j ∈ next i, j < size)
    (ht : Trailing next root size stack seen) :
    Trailing next root size [] (Sweep.trail next seen stack) := by
  fun_induction Sweep.trail next seen stack with
  | case1 seen => exact ht
  | case2 seen i stack h ih => exact ih (ht.push hnext h)
  | case3 seen i stack h ih => exact ih (ht.skip h)

theorem Trailing.marked_iff (ht : Trailing next root size [] seen) (i : Nat) :
    Marked seen i ↔ Path next root i := by
  refine ⟨ht.sound i, fun h => ?_⟩
  induction h with
  | root hi => exact (ht.roots _ hi).resolve_right (by simp)
  | step _ hj ih => exact (ht.closed _ ih _ hj).resolve_right (by simp)

theorem Path.congr {next' : Nat → List Nat} {root' : Nat → Prop}
    (hnext : ∀ i j, j ∈ next i → j ∈ next' i) (hroot : ∀ i, root i → root' i) {i : Nat}
    (h : Path next root i) : Path next' root' i := by
  induction h with
  | root hi => exact .root (hroot _ hi)
  | step _ hj ih => exact .step ih (hnext _ _ hj)

theorem eq_of_marked {seen seen' : Array Bool} (hsize : seen.size = seen'.size)
    (h : ∀ i, Marked seen i ↔ Marked seen' i) : seen = seen' := by
  refine Array.ext hsize fun i hi hi' => ?_
  have hiff := h i
  rw [Marked, Marked, Array.getElem?_eq_getElem hi, Array.getElem?_eq_getElem hi',
    Option.some.injEq, Option.some.injEq] at hiff
  exact Bool.eq_iff_iff.mpr hiff

/-- The place of a slot is one of the places there are. -/
theorem place?_lt {slot : Nat} (h : (field s).place? slot = some i) : i < (field s).ids.size := by
  have hplaces : ∀ slot i : Nat, (field s).placeOf[slot]? = some (some i) → i < (field s).ids.size := by
    refine List.foldlRecOn (motive := fun a : Array (Option Nat) => ∀ slot i : Nat,
      a[slot]? = some (some i) → i < (field s).ids.size)
      (s.detached.filter s.occupied).toList.zipIdx _
      (fun slot i hi => ?_) fun a ha p hp slot i hi => ?_
    · simp [Array.getElem?_replicate] at hi
    · rw [Array.getElem?_setIfInBounds] at hi
      split_ifs at hi with hslot hlt
      · obtain rfl := Option.some.inj (Option.some.inj hi)
        exact (List.snd_lt_of_mem_zipIdx hp).trans_eq Array.length_toList
      · exact ha slot i hi
  exact hplaces slot i (Option.join_eq_some_iff.mp h)

theorem successors_lt (s : Store) (i j : Nat) (hj : j ∈ successors s (field s) i) :
    j < (field s).ids.size := by
  unfold successors at hj
  split at hj
  · cases hj
  · rcases List.mem_append.mp hj with hj | hj
    · obtain ⟨p, -, hp⟩ := Option.bind_eq_some_iff.mp (Option.mem_toList.mp hj)
      exact place?_lt hp
    · obtain ⟨f, -, hf⟩ := List.mem_filterMap.mp hj
      obtain ⟨fn, -, hfn⟩ := Option.bind_eq_some_iff.mp hf
      exact place?_lt hfn

/-- Marking with a stack marks what marking round by round does. -/
theorem reachedIn_eq (o : Orders) (s : Store) (out : Array Nat) :
    reachedIn o s (field s) out =
      let roots := (List.range (field s).ids.size).filter fun i => 0 < out.getD i 0
      let (seen, found) := roots.foldl mark (Array.replicate (field s).ids.size false, [])
      spread (successors s (field s)) (field s).ids.size found seen := by
  have hmem (i j : Nat) : j ∈ successorsIn o s (field s) i ↔ j ∈ successors s (field s) i :=
    (successorsIn_perm o s (field s) i).mem_iff
  set roots := (List.range (field s).ids.size).filter fun i => 0 < out.getD i 0 with hroots
  have hlt (i : Nat) (hi : i ∈ roots) : i < (field s).ids.size :=
    List.mem_range.mp (List.mem_filter.mp hi).1
  have hnone (i : Nat) : ¬ Marked (Array.replicate (field s).ids.size false) i := by
    simp [Marked, Array.getElem?_replicate]
  have htrail : Trailing (successorsIn o s (field s)) (· ∈ roots) (field s).ids.size []
      (reachedIn o s (field s) out) := by
    refine Trailing.trail (fun i j hj => successors_lt s i j ((hmem i j).mp hj))
      ⟨by simp, fun i hi => absurd hi (hnone i), fun i hi => ?_, fun i hi => ?_,
        fun i hi => absurd hi (hnone i)⟩
    · have hi := List.mem_reverse.mp hi
      exact ⟨.root hi, hlt i hi⟩
    · exact .inr (List.mem_reverse.mpr hi)
  have hspread := marked_spread_iff (successors_lt s) hlt
  refine eq_of_marked (htrail.all.trans ?_) fun i => ?_
  · rw [size_spread, (mark_foldl_spec _ _ _).1, Array.size_replicate]
  · refine (htrail.marked_iff i).trans (Iff.trans ?_ (hspread i).symm)
    exact ⟨Path.congr (fun i j => (hmem i j).mp) fun _ => id,
      Path.congr (fun i j => (hmem i j).mpr) fun _ => id⟩

end Sweep

namespace Store

theorem foldl_drop (s : Store) (vs : List Value) : vs.foldl drop s = s.dropAll vs := by
  have hheap (vs : List Value) (s : Store) :
      vs.foldl drop s = { s with heap := vs.foldl Heap.drop s.heap } := by
    induction vs generalizing s with
    | nil => rfl
    | cons v vs ih => exact ih (s.drop v)
  rw [hheap, Heap.foldl_drop]
  rfl

theorem freeSlotIn_eq (o : Sweep.Orders) (s : Store) (id : ScopeId) :
    s.freeSlotIn o id = s.freeSlot id := by
  have hperm : (Bindings.values (Sweep.bindingsIn o s id)).Perm
      (Bindings.values (((s.scope? id).map Scope.bindings).getD [])) :=
    (o.bindings_perm id.slot _).map Prod.snd
  simp only [freeSlotIn, freeSlot, foldl_drop, dropAll, Heap.dropAll_perm _ hperm]

/-- What a sweep leaves does not depend on the orders in which it enumerates bindings and bound
functions. If every function is referred to, it is what the sweep without a table leaves. -/
theorem sweep_unordered (s : Store) (o p : Sweep.Orders) :
    s.sweepIn o = s.sweepIn p ∧
      ((∀ f, s.heap.Live (.function f) → 0 < s.heap.refs (.function f)) → s.sweepIn o = s.sweep) := by
  have hfree (o : Sweep.Orders) : freeSlotIn o = freeSlot :=
    funext fun s => funext fun id => freeSlotIn_eq o s id
  have hreached (out : Array Nat) :
      Sweep.reachedIn o (Sweep.untabled o s (Sweep.field s)) (Sweep.field s) out =
        Sweep.reachedIn p (Sweep.untabled o s (Sweep.field s)) (Sweep.field s) out :=
    (Sweep.reachedIn_eq o (Sweep.untabled o s (Sweep.field s)) out).trans
      (Sweep.reachedIn_eq p (Sweep.untabled o s (Sweep.field s)) out).symm
  refine ⟨?_, fun hused => ?_⟩
  · simp only [sweepIn, Sweep.outsideIn_eq, hfree, hreached, Sweep.untabled_unordered p o]
  · simp only [sweepIn, Sweep.outsideIn_eq, hfree, Sweep.untabled_eq o _ hused,
      Sweep.reachedIn_eq o s]
    rfl

/-- Of two detached scopes one binds its own function and a list of the other's. -/
def listed : Store :=
  let fn (place : Nat) (scope : ScopeId) : Function :=
    ⟨none, [], .mk .break default, default, scope, place⟩
  { heap :=
      { lists := ⟨#[some ⟨1, #[.function 1]⟩]⟩
        functions := ⟨#[some ⟨1, fn 0 ⟨1, 1⟩⟩, some ⟨1, fn 1 ⟨2, 2⟩⟩]⟩
        pins := ⟨#[some ⟨1, ⟨1, 1⟩, none⟩, some ⟨1, ⟨2, 2⟩, none⟩]⟩ }
    scopes := #[some ⟨0, none, [], none⟩,
      some ⟨1, some global, [("f", .function 0), ("l", .list 0)], some 0⟩,
      some ⟨2, some global, [("n", .int 1)], some 1⟩]
    free := []
    detached := #[⟨1, 1⟩, ⟨2, 2⟩]
    nextSweep := leastSweep
    created := 3 }

/-- Everything the other way round, the second scope stays and the slot of the first is free. -/
theorem sweep_unordered_reversed :
    let o : Sweep.Orders :=
      ⟨fun _ => List.reverse, List.reverse, fun _ => List.reverse_perm, List.reverse_perm⟩
    (∀ f, listed.heap.Live (.function f) → 0 < listed.heap.refs (.function f)) ∧
      listed.sweepIn o = listed.sweepIn default ∧ (listed.sweepIn o).detached = #[⟨2, 2⟩] ∧
      (listed.sweepIn o).free = [1] := by
  intro o
  have hused : ∀ f, listed.heap.Live (.function f) → 0 < listed.heap.refs (.function f) := by
    intro f hf
    match f with
    | 0 | 1 => decide
    | _ + 2 => cases hf
  obtain ⟨hsame, hsweep⟩ := sweep_unordered listed o default
  refine ⟨hused, hsame, ?_, ?_⟩
  · rw [hsweep hused]
    decide +kernel
  · rw [hsweep hused]
    decide +kernel

end Store

end Scriptlet

import Scriptlet.Proofs.Heap.Holding

/-!
# References given back in any order

Giving back two references commutes: each changes the count of its own thing
only, and what goes leaves the same references behind. So it makes no
difference in which order references are given back, nor whether those that
are left by what goes come before the others or after them. References that
are taken for a while and then given back leave no trace.
-/

set_option autoImplicit false

namespace Scriptlet

variable {α : Type}

/-- What is left of a cell with one reference less. -/
def Counted.fewer (c : Counted α) : Option (Counted α) :=
  if c.refs ≤ 1 then none else some ⟨c.refs - 1, c.item⟩

/-- What goes from a cell with its last reference. -/
def Counted.gone (c : Counted α) : Option α := if c.refs ≤ 1 then some c.item else none

namespace Table

theorem release_eq (t : Table α) (id : Nat) :
    t.release id = ((t.cell? id).bind Counted.gone,
      ⟨t.cells.setIfInBounds id ((t.cell? id).bind Counted.fewer)⟩) := by
  cases hc : t.cell? id with
  | none =>
    have hsame : t.cells.setIfInBounds id none = t.cells := by
      refine Array.ext_getElem? fun i => ?_
      rw [Array.getElem?_setIfInBounds]
      split
      · subst id
        simp only [cell?, Option.join_eq_none_iff] at hc
        split
        · rcases hc with hc | hc
          · simp at hc
            omega
          · exact hc.symm
        · simp
          omega
      · rfl
    simp [release, hc, hsame]
  | some c =>
    by_cases hn : c.refs ≤ 1 <;> simp [release, hc, hn, Counted.gone, Counted.fewer]

/-- Releasing two numbers in either order leaves the same table, and the same item of each. -/
theorem release_comm (t : Table α) {i j : Nat} (hij : i ≠ j) :
    ((t.release i).2.release j).1 = (t.release j).1 ∧
      ((t.release i).2.release j).2 = ((t.release j).2.release i).2 := by
  have hcell {i j : Nat} (hij : i ≠ j) : (t.release i).2.cell? j = t.cell? j := by
    rw [release_eq]
    simp [cell?, hij]
  rw [release_eq (t.release i).2, release_eq (t.release j).2, hcell hij, hcell hij.symm]
  refine ⟨by rw [release_eq t j], congrArg Table.mk ?_⟩
  rw [release_eq t i, release_eq t j]
  exact Array.setIfInBounds_comm _ _ hij

theorem retain_of_gone {t : Table α} {id : Nat} (h : t.cell? id = none) : t.retain id = t := by
  refine congrArg Table.mk (Array.ext_getElem? fun i => ?_)
  rw [Array.getElem?_modify]
  split
  · subst id
    rcases Option.join_eq_none_iff.mp h with h | h <;> simp [h]
  · rfl

theorem retain_comm (t : Table α) (i j : Nat) : (t.retain i).retain j = (t.retain j).retain i := by
  refine congrArg Table.mk (Array.ext_getElem? fun k => ?_)
  simp only [retain, Array.getElem?_modify]
  split_ifs <;> rfl

/-- A reference that is given back right away leaves no trace. -/
theorem release_retain {t : Table α} {id : Nat}
    (hused : (t.get? id).isSome = true → 0 < t.refs id) :
    (t.retain id).release id = (none, t) := by
  cases hc : t.cell? id with
  | none => simp [retain_of_gone hc, release, hc]
  | some c =>
    have hpos : 0 < c.refs := by simpa [get?, refs, hc] using hused
    have hcell : (t.retain id).cell? id = some ⟨c.refs + 1, c.item⟩ := by simp [cell?_retain, hc]
    have hone : ¬ c.refs + 1 ≤ 1 := by omega
    have hback : (t.retain id).cells.setIfInBounds id (some c) = t.cells := by
      refine Array.ext_getElem? fun i => ?_
      have hthere : t.cells[id]? = some (some c) := Option.join_eq_some_iff.mp hc
      obtain ⟨hlt, heq⟩ := Array.getElem?_eq_some_iff.mp hthere
      by_cases hi : id = i
      · subst hi
        simp [retain, hlt, heq]
      · simp [retain, Array.getElem?_modify, hi]
    simp [release_eq, hcell, Counted.gone, Counted.fewer, hone, hback]

end Table

namespace Heap

variable {h h' h'' : Heap} {r t : Ref} {rs rs' : List Ref} {m n : ℕ}

/-! ## One reference after another -/

theorem unlink_comm (h : Heap) (hne : r ≠ t) :
    ((h.unlink r).2.unlink t).1 = (h.unlink t).1 ∧
      ((h.unlink r).2.unlink t).2 = ((h.unlink t).2.unlink r).2 := by
  cases r with
  | list i =>
    cases t with
    | list j =>
      obtain ⟨hgone, hleft⟩ := h.lists.release_comm fun he : i = j => hne (he ▸ rfl)
      simp [unlink, hgone, hleft]
    | _ => exact ⟨rfl, rfl⟩
  | function i =>
    cases t with
    | function j =>
      obtain ⟨hgone, hleft⟩ := h.functions.release_comm fun he : i = j => hne (he ▸ rfl)
      simp [unlink, hgone, hleft]
    | _ => exact ⟨rfl, rfl⟩
  | pin i =>
    cases t with
    | pin j =>
      obtain ⟨hgone, hleft⟩ := h.pins.release_comm fun he : i = j => hne (he ▸ rfl)
      simp [unlink, hgone, hleft]
    | _ => exact ⟨rfl, rfl⟩

/-- References are given back one at a time, those that are left by what goes before the others:
`n` in all. -/
inductive Settles : ℕ → List Ref → Heap → Heap → Prop where
  | done (h : Heap) : Settles 0 [] h h
  | next {n : ℕ} {r : Ref} {rs : List Ref} {h h' : Heap}
      (hs : Settles n ((h.unlink r).1 ++ rs) (h.unlink r).2 h') : Settles (n + 1) (r :: rs) h h'

namespace Settles

theorem unique (hs : Settles n rs h h') (hs' : Settles m rs h h'') : h' = h'' := by
  induction hs generalizing m with
  | done h =>
    cases hs'
    rfl
  | next _ ih =>
    cases hs' with
    | next hs' => exact ih hs'

/-- The order does not matter. -/
theorem perm (hs : Settles n rs h h') (hp : rs.Perm rs') : Settles n rs' h h' := by
  induction n using Nat.strong_induction_on generalizing rs rs' h with
  | _ n ih =>
    cases hs with
    | done => exact hp.nil_eq ▸ .done _
    | @next n r rs h _ hs =>
      cases rs' with
      | nil => exact absurd hp.length_eq (by simp)
      | cons t rs' =>
        by_cases hrt : r = t
        · subst hrt
          exact .next (ih n n.lt_succ_self hs (hp.cons_inv.append_left _))
        · -- The first reference of either row is among the later ones of the other.
          have hmem : t ∈ rs := (List.mem_cons.mp (hp.symm.subset (by simp))).resolve_left
            (Ne.symm hrt)
          obtain ⟨us, hus⟩ : ∃ us, rs.Perm (t :: us) := ⟨_, List.perm_cons_erase hmem⟩
          have hus' : rs'.Perm (r :: us) :=
            (hp.symm.trans ((hus.cons r).trans (List.Perm.swap t r us))).cons_inv
          obtain ⟨hleft, hheap⟩ := unlink_comm h hrt
          obtain ⟨hleft', -⟩ := unlink_comm h (Ne.symm hrt)
          have hfront : ((h.unlink r).1 ++ rs).Perm (t :: ((h.unlink r).1 ++ us)) :=
            (hus.append_left _).trans List.perm_middle
          cases ih n n.lt_succ_self hs hfront with
          | @next k _ _ _ _ hs =>
            rw [hleft, hheap] at hs
            have hs' : Settles k (((h.unlink t).2.unlink r).1 ++ ((h.unlink t).1 ++ us))
                ((h.unlink t).2.unlink r).2 h' := by
              rw [hleft']
              exact ih k (by omega) hs (List.perm_append_comm_assoc ..)
            exact .next (ih (k + 1) (Nat.lt_succ_self _) (.next hs')
              (List.perm_middle.symm.trans (hus'.symm.append_left _)))

theorem append (hs : Settles n rs h h') (hs' : Settles m rs' h' h'') :
    Settles (n + m) (rs ++ rs') h h'' := by
  induction hs with
  | done => simpa using hs'
  | next _ ih =>
    rw [Nat.add_right_comm]
    exact .next (List.append_assoc .. ▸ ih hs')

/-- A round gives back all references before those that are left. -/
theorem round_append
    (hs : Settles n ((unlinkAll rs h).1 ++ rs') (unlinkAll rs h).2 h') :
    Settles (rs.length + n) (rs ++ rs') h h' := by
  induction rs generalizing h rs' with
  | nil => simpa [unlinkAll] using hs
  | cons r rs ih =>
    have hs : Settles n ((unlinkAll rs (h.unlink r).2).1 ++ ((h.unlink r).1 ++ rs'))
        (unlinkAll rs (h.unlink r).2).2 h' := by
      refine hs.perm ?_
      simp only [unlinkAll, List.append_assoc]
      exact List.perm_append_comm_assoc ..
    rw [List.length_cons, Nat.add_right_comm]
    exact .next ((ih hs).perm (List.perm_append_comm_assoc ..))

theorem round (hs : Settles n (unlinkAll rs h).1 (unlinkAll rs h).2 h') :
    Settles (rs.length + n) rs h h' := by
  have hs : Settles n ((unlinkAll rs h).1 ++ []) (unlinkAll rs h).2 h' := by simpa using hs
  simpa using hs.round_append

end Settles

/-! ## Rounds -/

theorem releaseFor_settles {rounds : ℕ} (hr : h.population < rounds) (rs : List Ref) :
    ∃ n, Settles n rs h (releaseFor rounds rs h) := by
  induction rounds generalizing h rs with
  | zero => omega
  | succ rounds ih =>
    cases rs with
    | nil => exact ⟨0, .done h⟩
    | cons r rs =>
      rw [releaseFor_cons]
      have hrest : ∃ n, Settles n (unlinkAll (r :: rs) h).1 (unlinkAll (r :: rs) h).2
          (releaseFor rounds (unlinkAll (r :: rs) h).1 (unlinkAll (r :: rs) h).2) := by
        by_cases hg : (unlinkAll (r :: rs) h).1 = []
        · rw [hg, releaseFor_nil]
          exact ⟨0, .done _⟩
        · obtain ⟨t, ht, hn⟩ := unlinkAll_gone hg
          have hlt := (unlinkAll_shrinks (r :: rs) h).population_lt ht hn
          exact ih (by omega) _
      obtain ⟨n, hn⟩ := hrest
      exact ⟨_, hn.round⟩

theorem release_settles (h : Heap) (rs : List Ref) : ∃ n, Settles n rs h (h.release rs) :=
  releaseFor_settles (Nat.lt_succ_of_le h.population_le_size) rs

theorem release_perm (h : Heap) (hp : rs.Perm rs') : h.release rs = h.release rs' := by
  obtain ⟨n, hs⟩ := h.release_settles rs
  obtain ⟨m, hs'⟩ := h.release_settles rs'
  exact (hs.perm hp).unique hs'

theorem release_append (h : Heap) (rs rs' : List Ref) :
    h.release (rs ++ rs') = (h.release rs).release rs' := by
  obtain ⟨n, hs⟩ := h.release_settles rs
  obtain ⟨m, hs'⟩ := (h.release rs).release_settles rs'
  obtain ⟨k, hall⟩ := h.release_settles (rs ++ rs')
  exact hall.unique (hs.append hs')

/-! ## More references for a while -/

/-- One reference more to each of some things. -/
def retainAll (h : Heap) (rs : List Ref) : Heap := rs.foldr (fun r h => h.retain r) h

theorem retain_of_gone (hr : ¬ h.Live r) : h.retain r = h := by
  cases r with
  | list i =>
    have hgone : h.lists.cell? i = none := by simpa [Live, list?, Table.get?] using hr
    simp [retain, Table.retain_of_gone hgone]
  | function i =>
    have hgone : h.functions.cell? i = none := by simpa [Live, function?, Table.get?] using hr
    simp [retain, Table.retain_of_gone hgone]
  | pin i =>
    have hgone : h.pins.cell? i = none := by simpa [Live, pin?, Table.get?] using hr
    simp [retain, Table.retain_of_gone hgone]

theorem retain_comm (h : Heap) (r t : Ref) : (h.retain r).retain t = (h.retain t).retain r := by
  cases r <;> cases t <;> simp [retain, Table.retain_comm]

theorem unlink_retain (hused : h.Live r → 0 < h.refs r) : (h.retain r).unlink r = ([], h) := by
  cases r <;> simp [unlink, retain, Table.release_retain hused]

theorem retainAll_live (h : Heap) (rs : List Ref) (t : Ref) :
    (h.retainAll rs).Live t ↔ h.Live t := by
  induction rs with
  | nil => rfl
  | cons r rs ih => exact (retain_live _ r t).trans ih

theorem refs_le_retainAll (h : Heap) (rs : List Ref) (t : Ref) :
    h.refs t ≤ (h.retainAll rs).refs t := by
  induction rs with
  | nil => exact Nat.le_refl _
  | cons r rs ih =>
    refine ih.trans ?_
    change _ ≤ ((h.retainAll rs).retain r).refs t
    by_cases hr : (h.retainAll rs).Live r
    · rw [retain_refs hr]
      omega
    · rw [retain_of_gone hr]

theorem retainAll_refs_sub (h : Heap) (hn : rs.Nodup) (t : Ref) :
    (h.retainAll rs).refs t - (if t ∈ rs then 1 else 0) = h.refs t := by
  induction rs with
  | nil => simp [retainAll]
  | cons r rs ih =>
    obtain ⟨hnew, hn⟩ := List.nodup_cons.mp hn
    have ih := ih hn
    change ((h.retainAll rs).retain r).refs t - _ = _
    by_cases hr : (h.retainAll rs).Live r
    · rw [retain_refs hr, ← ih]
      by_cases ht : t = r
      · subst ht
        simp [hnew]
      · simp [ht]
    · rw [retain_of_gone hr, ← ih]
      by_cases ht : t = r
      · subst ht
        simp [refs_of_gone hr]
      · simp [ht]

theorem retainAll_perm (h : Heap) (hp : rs.Perm rs') : h.retainAll rs = h.retainAll rs' :=
  hp.foldr_eq' (fun r _ t _ h => h.retain_comm r t) h

/-- References that are given back leave no trace. -/
theorem release_retainAll (hused : ∀ r ∈ rs, h.Live r → 0 < h.refs r) :
    (h.retainAll rs).release rs = h := by
  induction rs with
  | nil => exact releaseFor_nil ..
  | cons r rs ih =>
    have hunlink : ((h.retainAll rs).retain r).unlink r = ([], h.retainAll rs) :=
      unlink_retain fun hr =>
        (hused r (by simp) ((h.retainAll_live rs r).mp hr)).trans_le (h.refs_le_retainAll rs r)
    have hfirst : ((h.retainAll rs).retain r).release [r] = h.retainAll rs := by
      simp [release, releaseFor, unlinkAll, hunlink, releaseFor_nil]
    change ((h.retainAll rs).retain r).release ([r] ++ rs) = h
    rw [release_append, hfirst]
    exact ih fun t ht => hused t (List.mem_cons_of_mem _ ht)

/-! ## Values -/

theorem dropAll_eq (h : Heap) (vs : List Value) : h.dropAll vs = h.release (Value.refs vs) := by
  rcases dropAll_eq_release h vs with ⟨he, hn⟩ | he
  · rw [he, hn]
    exact (releaseFor_nil _ h).symm
  · exact he

theorem dropAll_perm (h : Heap) {vs ws : List Value} (hp : vs.Perm ws) :
    h.dropAll vs = h.dropAll ws := by
  rw [dropAll_eq, dropAll_eq, release_perm h (Value.refs_perm hp)]

/-- Values may be let go one at a time. -/
theorem foldl_drop (h : Heap) (vs : List Value) : vs.foldl drop h = h.dropAll vs := by
  induction vs generalizing h with
  | nil => rfl
  | cons v vs ih =>
    rw [List.foldl_cons, ih, drop_eq_dropAll, dropAll_eq, dropAll_eq, ← release_append,
      ← Value.refs_append, dropAll_eq]
    rfl

end Heap

end Scriptlet

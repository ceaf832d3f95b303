import Mathlib.Tactic
import Scriptlet.Store.Sweep

/-!
# Tallies and places

The tables that a sweep counts in. Changing the cells of an array one after
the other changes each as often as it is named; the tally of a sorted list
has each of its numbers once, with its count.
-/

set_option autoImplicit false

namespace Scriptlet.Sweep

theorem getElem?_foldl_modify (g : Nat → Nat) (places : List Nat) (a : Array Nat) (i : Nat) :
    (places.foldl (fun a j => a.modify j g) a)[i]? = a[i]?.map (g^[places.count i]) := by
  induction places generalizing a with
  | nil => simp
  | cons p ps ih =>
    rw [List.foldl_cons, ih, Array.getElem?_modify]
    by_cases hp : p = i
    · subst hp
      simp [Function.iterate_succ]
    · simp [hp]

theorem iterate_add_one (n k : Nat) : (· + 1)^[n] k = k + n := by
  induction n generalizing k with
  | zero => rfl
  | succ n ih => rw [Function.iterate_succ_apply, ih]; omega

theorem iterate_sub_one (n k : Nat) : (· - 1)^[n] k = k - n := by
  induction n generalizing k with
  | zero => rfl
  | succ n ih => rw [Function.iterate_succ_apply, ih]; omega

/-- Where a row of scopes in slots of their own has each slot. -/
theorem place_foldl {ps : List (ScopeId × Nat)} (hn : (ps.map fun p => p.1.slot).Nodup)
    {a : Array (Option Nat)} (ha : ∀ p ∈ ps, p.1.slot < a.size) (slot i : Nat) :
    (ps.foldl (fun a p => a.setIfInBounds p.1.slot (some p.2)) a)[slot]?.join = some i ↔
      (∃ p ∈ ps, p.1.slot = slot ∧ p.2 = i) ∨
        slot ∉ ps.map (fun p => p.1.slot) ∧ a[slot]?.join = some i := by
  induction ps generalizing a with
  | nil => simp
  | cons p ps ih =>
    obtain ⟨hp, hn⟩ := List.nodup_cons.mp hn
    have hlt : p.1.slot < a.size := ha p (by simp)
    rw [List.foldl_cons, ih hn fun q hq => by simpa using ha q (by simp [hq])]
    by_cases hs : p.1.slot = slot
    · subst hs
      have hnone : ¬ ∃ q ∈ ps, q.1.slot = p.1.slot ∧ q.2 = i := by
        rintro ⟨q, hq, he, -⟩
        exact hp (List.mem_map.mpr ⟨q, hq, he⟩)
      simp [hnone, hlt, hp]
    · simp [hs, Ne.symm hs]

theorem tally_spec {ns : List Nat} (hs : ns.Pairwise (· ≤ ·)) :
    ((tally ns).map Prod.fst).Pairwise (· < ·) ∧
    ∀ m c, (m, c) ∈ tally ns ↔ 0 < c ∧ c = ns.count m := by
  induction ns with
  | nil => simp [tally]; omega
  | cons n ns ih =>
    obtain ⟨hle, hs⟩ := List.pairwise_cons.mp hs
    obtain ⟨hkeys, hmem⟩ := ih hs
    cases ht : tally ns with
    | nil =>
      have hzero (m : Nat) : ns.count m = 0 := by
        by_contra hc
        have := (hmem m _).mpr ⟨Nat.pos_of_ne_zero hc, rfl⟩
        simp [ht] at this
      have he : tally (n :: ns) = [(n, 1)] := by simp [tally, ht]
      rw [he]
      refine ⟨by simp, fun m c => ?_⟩
      by_cases hm : n = m <;> simp [hzero, hm, Ne.symm] <;> omega
    | cons p rest =>
      obtain ⟨k, count⟩ := p
      rw [ht] at hkeys hmem
      obtain ⟨hlt, hkeys'⟩ := List.pairwise_cons.mp hkeys
      have hk : 0 < count ∧ count = ns.count k := (hmem k count).mp (by simp)
      have hnk : n ≤ k := hle k (List.count_pos_iff.mp (by omega))
      have hrest (m c : Nat) (hmc : (m, c) ∈ rest) : k < m :=
        hlt m (List.mem_map_of_mem hmc)
      by_cases hn : n = k
      · subst hn
        have he : tally (n :: ns) = (n, count + 1) :: rest := by simp [tally, ht]
        rw [he]
        refine ⟨hkeys, fun m c => ?_⟩
        by_cases hm : n = m
        · subst hm
          have : (n, c) ∉ rest := fun hc => lt_irrefl _ (hrest n c hc)
          simp [this]
          omega
        · have := hmem m c
          simpa [List.count_cons, hm, Ne.symm hm] using this
      · have he : tally (n :: ns) = (n, 1) :: (k, count) :: rest := by simp [tally, ht, hn]
        have hlow (m c : Nat) (hmc : (m, c) ∈ (k, count) :: rest) : n < m := by
          rcases List.mem_cons.mp hmc with h | h
          · obtain ⟨rfl, -⟩ := Prod.mk.inj h
            omega
          · have := hrest m c h
            omega
        rw [he]
        refine ⟨List.pairwise_cons.mpr ⟨fun m hm => ?_, hkeys⟩, fun m c => ?_⟩
        · obtain ⟨⟨m, c⟩, hmc, rfl⟩ := List.mem_map.mp hm
          exact hlow m c hmc
        · by_cases hm : n = m
          · subst hm
            have hnone : ns.count n = 0 := by
              by_contra hc
              exact lt_irrefl _ (hlow n _ ((hmem n _).mpr ⟨Nat.pos_of_ne_zero hc, rfl⟩))
            have : (n, c) ∉ (k, count) :: rest := fun hc => lt_irrefl _ (hlow n c hc)
            rw [List.mem_cons, or_iff_left this]
            simp [hnone]
            omega
          · rw [List.mem_cons, hmem m c]
            simp [hm, Ne.symm hm]

theorem tally_mergeSort (ns : List Nat) :
    ((tally ns.mergeSort).map Prod.fst).Nodup ∧
    ∀ m c, (m, c) ∈ tally ns.mergeSort ↔ 0 < c ∧ c = ns.count m := by
  have hsorted : ns.mergeSort.Pairwise (· ≤ ·) := by
    simpa using @List.pairwise_mergeSort Nat (fun a b => decide (a ≤ b))
      (by simp; omega) (by simp; omega) ns
  obtain ⟨hkeys, hmem⟩ := tally_spec hsorted
  refine ⟨hkeys.imp Nat.ne_of_lt, fun m c => ?_⟩
  rw [hmem, (List.mergeSort_perm ns _).count_eq]

/-- A list without repetition inside another falls short of it by what is missing. -/
theorem length_lt_iff {α : Type} [DecidableEq α] {l m : List α} (hl : l.Nodup) (hm : m.Nodup)
    (hsub : l ⊆ m) : l.length ≤ m.length ∧ (l.length < m.length ↔ ∃ a ∈ m, a ∉ l) := by
  have hp : l.Subperm m := hl.subperm hsub
  refine ⟨hp.length_le, fun hlt => ?_, fun ⟨a, ha, hn⟩ => ?_⟩
  · by_contra hall
    push Not at hall
    exact absurd (hm.subperm hall).length_le (by omega)
  · by_contra hge
    exact hn ((hp.perm_of_length_le (by omega)).symm.subset ha)

end Scriptlet.Sweep

import Mathlib.Tactic
import Scriptlet.Store.Sweep

/-!
# Marking

Marking from the roots round by round reaches exactly the places that paths
lead to. A round marks the places after those marked in the round before; it
marks one at least, or everything that follows a marked place is marked.
-/

set_option autoImplicit false

namespace Scriptlet.Sweep

/-- The places that paths from the roots lead to. -/
inductive Path (next : Nat → List Nat) (root : Nat → Prop) : Nat → Prop where
  | root {i : Nat} (hi : root i) : Path next root i
  | step {i j : Nat} (hi : Path next root i) (hj : j ∈ next i) : Path next root j

def Marked (seen : Array Bool) (i : Nat) : Prop := seen[i]? = some true

/-- How many places are not marked. -/
def unmarked (seen : Array Bool) : Nat := seen.toList.count false

theorem mark_spec (seen : Array Bool) (found : List Nat) (place : Nat) :
    (mark (seen, found) place).1.size = seen.size ∧
    (∀ i, Marked (mark (seen, found) place).1 i ↔ Marked seen i ∨ i = place ∧ i < seen.size) ∧
    (∀ i, i ∈ (mark (seen, found) place).2 ↔
      i ∈ found ∨ i = place ∧ i < seen.size ∧ ¬ Marked seen i) ∧
    unmarked (mark (seen, found) place).1 + (mark (seen, found) place).2.length =
      unmarked seen + found.length := by
  cases h : seen[place]? with
  | none =>
    have hlt : ¬ place < seen.size := by simpa using h
    have he : mark (seen, found) place = (seen, found) := by simp [mark, h]
    rw [he]
    refine ⟨rfl, fun i => ?_, fun i => ?_, rfl⟩
    · exact ⟨.inl, fun hm => hm.elim id fun hi => absurd (hi.1 ▸ hi.2) hlt⟩
    · exact ⟨.inl, fun hm => hm.elim id fun hi => absurd (hi.1 ▸ hi.2.1) hlt⟩
  | some b =>
    obtain ⟨hlt, hb⟩ := Array.getElem?_eq_some_iff.mp h
    cases b with
    | true =>
      have he : mark (seen, found) place = (seen, found) := by simp [mark, h]
      rw [he]
      refine ⟨rfl, fun i => ?_, fun i => ?_, rfl⟩
      · exact ⟨.inl, fun hm => hm.elim id fun hi => hi.1 ▸ h⟩
      · exact ⟨.inl, fun hm => hm.elim id fun hi => absurd (hi.1 ▸ h) hi.2.2⟩
    | false =>
      have he : mark (seen, found) place = (seen.setIfInBounds place true, place :: found) := by
        simp [mark, h]
      rw [he]
      refine ⟨by simp, fun i => ?_, fun i => ?_, ?_⟩
      · by_cases hi : i = place
        · subst hi
          simp [Marked, hlt]
        · simp [Marked, hi, Ne.symm hi]
      · by_cases hi : i = place
        · subst hi
          simp [Marked, hlt, hb]
        · simp [hi]
      · have hmem : false ∈ seen.toList := by
          rw [← hb]
          exact Array.getElem_mem_toList hlt
        have hpos := List.count_pos_iff.mpr hmem
        have hset : (seen.toList.set place true).count false = seen.toList.count false - 1 := by
          rw [List.count_set (by simpa using hlt)]
          simp [hb]
        simp only [unmarked, Array.toList_setIfInBounds, hset, List.length_cons]
        omega

theorem mark_foldl_spec (places : List Nat) (seen : Array Bool) (found : List Nat) :
    (places.foldl mark (seen, found)).1.size = seen.size ∧
    (∀ i, Marked (places.foldl mark (seen, found)).1 i ↔
      Marked seen i ∨ i ∈ places ∧ i < seen.size) ∧
    (∀ i, i ∈ (places.foldl mark (seen, found)).2 ↔
      i ∈ found ∨ i ∈ places ∧ i < seen.size ∧ ¬ Marked seen i) ∧
    unmarked (places.foldl mark (seen, found)).1 + (places.foldl mark (seen, found)).2.length =
      unmarked seen + found.length := by
  induction places generalizing seen found with
  | nil => simp
  | cons p ps ih =>
    obtain ⟨hsize, hm, hf, hc⟩ := mark_spec seen found p
    obtain ⟨hsize', hm', hf', hc'⟩ := ih (mark (seen, found) p).1 (mark (seen, found) p).2
    refine ⟨hsize'.trans hsize, fun i => ?_, fun i => ?_, hc'.trans hc⟩
    · rw [List.foldl_cons, hm', hm, hsize, List.mem_cons]
      tauto
    · rw [List.foldl_cons, hf', hf, hm, hsize, List.mem_cons]
      by_cases hi : Marked seen i <;> by_cases hp : i = p <;> simp [hi, hp] <;> tauto

/-- What every round keeps: what is marked is led to, and what follows it is marked too unless it
follows the frontier. -/
structure Progress (next : Nat → List Nat) (root : Nat → Prop) (size : Nat) (frontier : List Nat)
    (seen : Array Bool) : Prop where
  size : seen.size = size
  sound : ∀ i, Marked seen i → Path next root i
  roots : ∀ i, root i → Marked seen i
  reached : ∀ i ∈ frontier, Marked seen i
  closed : ∀ i, Marked seen i → i ∉ frontier → ∀ j ∈ next i, Marked seen j

variable {next : Nat → List Nat} {root : Nat → Prop} {size : Nat}

theorem Progress.round (hnext : ∀ i, ∀ j ∈ next i, j < size) {frontier : List Nat}
    {seen : Array Bool} (hp : Progress next root size frontier seen) :
    Progress next root size ((frontier.flatMap next).foldl mark (seen, [])).2
      ((frontier.flatMap next).foldl mark (seen, [])).1 := by
  obtain ⟨hsize, hm, hf, -⟩ := mark_foldl_spec (frontier.flatMap next) seen []
  refine ⟨hsize.trans hp.size, fun i hi => ?_, fun i hi => ?_, fun i hi => ?_,
    fun i hi hn j hj => ?_⟩
  · rcases (hm i).mp hi with hi | ⟨hi, -⟩
    · exact hp.sound i hi
    · obtain ⟨k, hk, hik⟩ := List.mem_flatMap.mp hi
      exact .step (hp.sound k (hp.reached k hk)) hik
  · exact (hm i).mpr (.inl (hp.roots i hi))
  · obtain ⟨hi, hlt, -⟩ := ((hf i).mp hi).resolve_left (by simp)
    exact (hm i).mpr (.inr ⟨hi, hlt⟩)
  · have hlt : j < seen.size := hp.size ▸ hnext i j hj
    by_cases hs : Marked seen i
    · by_cases hfr : i ∈ frontier
      · exact (hm j).mpr (.inr ⟨List.mem_flatMap.mpr ⟨i, hfr, hj⟩, hlt⟩)
      · exact (hm j).mpr (.inl (hp.closed i hs hfr j hj))
    · -- A place that this round has marked is on the frontier of the next.
      obtain ⟨hi', hlt'⟩ := ((hm i).mp hi).resolve_left hs
      exact absurd ((hf i).mpr (.inr ⟨hi', hlt', hs⟩)) hn

theorem Progress.marked_iff {seen : Array Bool} (hp : Progress next root size [] seen) (i : Nat) :
    Marked seen i ↔ Path next root i := by
  refine ⟨hp.sound i, fun h => ?_⟩
  induction h with
  | root hi => exact hp.roots _ hi
  | step _ hj ih => exact hp.closed _ ih (by simp) _ hj

theorem spread_spec (hnext : ∀ i, ∀ j ∈ next i, j < size) {rounds : Nat} {frontier : List Nat}
    {seen : Array Bool} (hp : Progress next root size frontier seen)
    (hr : unmarked seen ≤ rounds) :
    Progress next root size [] (spread next rounds frontier seen) := by
  induction rounds generalizing frontier seen with
  | zero =>
    -- Nothing is unmarked.
    refine ⟨hp.size, hp.sound, hp.roots, by simp, fun i _ _ j hj => ?_⟩
    have hlt : j < seen.size := hp.size ▸ hnext i j hj
    have hall : seen[j] ≠ false := fun hf => by
      have : false ∈ seen.toList := hf ▸ Array.getElem_mem_toList hlt
      have := List.count_pos_iff.mpr this
      simp only [unmarked] at hr
      omega
    simpa [spread, Marked, hlt] using hall
  | succ rounds ih =>
    cases frontier with
    | nil => exact hp
    | cons f fs =>
      have hround := hp.round hnext
      obtain ⟨-, -, -, hc⟩ := mark_foldl_spec ((f :: fs).flatMap next) seen []
      simp only [List.length_nil, Nat.add_zero] at hc
      change Progress next root size [] (spread next rounds _ _)
      cases hfound : (((f :: fs).flatMap next).foldl mark (seen, [])).2 with
      | nil =>
        rw [hfound] at hround
        cases rounds <;> exact hround
      | cons g gs =>
        rw [hfound] at hc hround
        rw [List.length_cons] at hc
        exact ih hround (by omega)

/-- Marking from some places and spreading marks what paths from them lead to. -/
theorem marked_spread_iff (hnext : ∀ i, ∀ j ∈ next i, j < size) {roots : List Nat}
    (hroots : ∀ i ∈ roots, i < size) (i : Nat) :
    Marked (spread next size (roots.foldl mark (Array.replicate size false, [])).2
      (roots.foldl mark (Array.replicate size false, [])).1) i ↔ Path next (· ∈ roots) i := by
  obtain ⟨hsize, hm, hf, hc⟩ := mark_foldl_spec roots (Array.replicate size false) []
  have hnone (i : Nat) : ¬ Marked (Array.replicate size false) i := by
    simp [Marked, Array.getElem?_replicate]
  refine (spread_spec hnext ⟨hsize.trans (by simp), fun i hi => ?_, fun i hi => ?_,
    fun i hi => ?_, fun i hi hn => ?_⟩ ?_).marked_iff i
  · exact .root (((hm i).mp hi).resolve_left (hnone i)).1
  · exact (hm i).mpr (.inr ⟨hi, by simpa using hroots i hi⟩)
  · obtain ⟨hi, hlt, -⟩ := ((hf i).mp hi).resolve_left (by simp)
    exact (hm i).mpr (.inr ⟨hi, hlt⟩)
  · obtain ⟨hi', hlt⟩ := ((hm i).mp hi).resolve_left (hnone i)
    exact absurd ((hf i).mpr (.inr ⟨hi', hlt, hnone i⟩)) hn
  · have : unmarked (Array.replicate size false) ≤ size := by simp [unmarked]
    simp only [List.length_nil] at hc
    omega

theorem size_spread (next : Nat → List Nat) (rounds : Nat) (frontier : List Nat)
    (seen : Array Bool) : (spread next rounds frontier seen).size = seen.size := by
  induction rounds generalizing frontier seen with
  | zero => rfl
  | succ rounds ih =>
    cases frontier with
    | nil => rfl
    | cons f fs => exact (ih _ _).trans (mark_foldl_spec _ seen []).1

end Scriptlet.Sweep

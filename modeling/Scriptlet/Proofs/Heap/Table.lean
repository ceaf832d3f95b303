import Mathlib.Tactic
import Scriptlet.Store.Table

/-!
# Counted tables: what each operation does

A table is seen through three functions of a number: the item with that
number, how often it is referred to, and how many numbers are in use. Every
operation is described by its effect on these.
-/

set_option autoImplicit false

namespace Scriptlet.Table

variable {α : Type}

theorem get?_eq_some {t : Table α} {id : Nat} {x : α} :
    t.get? id = some x ↔ ∃ n, t.cell? id = some ⟨n, x⟩ := by
  constructor
  · intro h
    obtain ⟨⟨n, y⟩, hc, rfl⟩ := Option.map_eq_some_iff.mp h
    exact ⟨n, hc⟩
  · rintro ⟨n, h⟩
    simp [get?, h]

theorem get?_eq_none {t : Table α} {id : Nat} : t.get? id = none ↔ t.cell? id = none := by
  simp [get?]

theorem refs_eq_zero {t : Table α} {id : Nat} (h : t.get? id = none) : t.refs id = 0 := by
  simp [refs, get?_eq_none.mp h]

theorem lt_size {t : Table α} {id : Nat} {x : α} (h : t.get? id = some x) : id < t.size := by
  obtain ⟨n, hc⟩ := get?_eq_some.mp h
  by_contra hn
  simp [cell?, Array.getElem?_eq_none (show t.cells.size ≤ id from Nat.le_of_not_lt hn)] at hc

theorem get?_size (t : Table α) : t.get? t.size = none := by
  cases h : t.get? t.size with
  | none => rfl
  | some x => exact absurd (lt_size h) (lt_irrefl _)

theorem size_add (t : Table α) (x : α) : (t.add x).size = t.size + 1 := by
  simp [size, add]

theorem cell?_add (t : Table α) (x : α) (id : Nat) :
    (t.add x).cell? id = if id = t.size then some ⟨1, x⟩ else t.cell? id := by
  by_cases h : id = t.cells.size <;> simp [cell?, add, size, Array.getElem?_push, h]

theorem get?_add (t : Table α) (x : α) (id : Nat) :
    (t.add x).get? id = if id = t.size then some x else t.get? id := by
  simp only [get?, cell?_add]
  split <;> rfl

theorem refs_add (t : Table α) (x : α) (id : Nat) :
    (t.add x).refs id = if id = t.size then 1 else t.refs id := by
  simp only [refs, cell?_add]
  split <;> rfl

theorem size_modify (t : Table α) (id : Nat) (f : α → α) : (t.modify id f).size = t.size := by
  simp [size, modify]

theorem cell?_modify (t : Table α) (id j : Nat) (f : α → α) :
    (t.modify id f).cell? j =
      if id = j then (t.cell? j).map fun c => ⟨c.refs, f c.item⟩ else t.cell? j := by
  simp only [cell?, modify, Array.getElem?_modify]
  split
  · cases t.cells[j]? <;> rfl
  · rfl

theorem get?_modify (t : Table α) (id j : Nat) (f : α → α) :
    (t.modify id f).get? j = if id = j then (t.get? j).map f else t.get? j := by
  simp only [get?, cell?_modify]
  split
  · cases t.cell? j <;> rfl
  · rfl

theorem refs_modify (t : Table α) (id j : Nat) (f : α → α) :
    (t.modify id f).refs j = t.refs j := by
  simp only [refs, cell?_modify]
  split
  · cases t.cell? j <;> rfl
  · rfl

theorem size_retain (t : Table α) (id : Nat) : (t.retain id).size = t.size := by
  simp [size, retain]

theorem cell?_retain (t : Table α) (id j : Nat) :
    (t.retain id).cell? j =
      if id = j then (t.cell? j).map fun c => ⟨c.refs + 1, c.item⟩ else t.cell? j := by
  simp only [cell?, retain, Array.getElem?_modify]
  split
  · cases t.cells[j]? <;> rfl
  · rfl

theorem get?_retain (t : Table α) (id j : Nat) : (t.retain id).get? j = t.get? j := by
  simp only [get?, cell?_retain]
  split
  · cases t.cell? j <;> rfl
  · rfl

theorem refs_retain {t : Table α} {id : Nat} {x : α} (h : t.get? id = some x) (j : Nat) :
    (t.retain id).refs j = t.refs j + if j = id then 1 else 0 := by
  obtain ⟨n, hc⟩ := get?_eq_some.mp h
  simp only [refs, cell?_retain]
  by_cases hj : j = id
  · simp [hj, hc]
  · simp [hj, Ne.symm hj]

/-- What releasing a number with an item does: the reference goes, and the item with the last. -/
theorem release_spec {t : Table α} {id : Nat} {x : α} (h : t.get? id = some x) :
    (t.release id).1 = (if t.refs id ≤ 1 then some x else none) ∧
    (t.release id).2.size = t.size ∧
    (∀ j, (t.release id).2.get? j = if j = id ∧ t.refs id ≤ 1 then none else t.get? j) ∧
    ∀ j, (t.release id).2.refs j = t.refs j - if j = id then 1 else 0 := by
  obtain ⟨n, hc⟩ := get?_eq_some.mp h
  have hlt : id < t.cells.size := lt_size h
  have hr : t.refs id = n := by simp [refs, hc]
  have hset (o : Option (Counted α)) (j : Nat) :
      (⟨t.cells.setIfInBounds id o⟩ : Table α).cell? j = if j = id then o else t.cell? j := by
    simp only [cell?, Array.getElem?_setIfInBounds]
    by_cases hj : j = id
    · subst hj
      simp [hlt]
    · simp [hj, Ne.symm hj]
  rw [hr]
  by_cases hn : n ≤ 1
  · have hrel : t.release id = (some x, ⟨t.cells.setIfInBounds id none⟩) := by
      simp [release, hc, hn]
    rw [hrel]
    refine ⟨by simp [hn], by simp [size], fun j => ?_, fun j => ?_⟩
    · by_cases hj : j = id <;> simp [get?, hset, hj, hn]
    · by_cases hj : j = id
      · have : t.refs id - 1 = 0 := by omega
        simp [refs, hset, hj] at this ⊢
        exact this.symm
      · simp [refs, hset, hj]
  · have hrel : t.release id = (none, ⟨t.cells.setIfInBounds id (some ⟨n - 1, x⟩)⟩) := by
      simp [release, hc, hn]
    rw [hrel]
    refine ⟨by simp [hn], by simp [size], fun j => ?_, fun j => ?_⟩
    · by_cases hj : j = id
      · subst hj
        simp [get?, hset, hc, hn]
      · simp [get?, hset, hj]
    · by_cases hj : j = id
      · subst hj
        simp [refs, hset, hc]
      · simp [refs, hset, hj]

end Scriptlet.Table

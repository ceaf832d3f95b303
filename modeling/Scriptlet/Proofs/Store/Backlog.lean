import Scriptlet.Proofs.Store.Slots
import Scriptlet.Store.Sweep

/-!
# The backlog of a store

Which scopes wait for a sweep, and how many of them bring one about. Only the
end of a call and a sweep change either. A sweep leaves fewer scopes waiting
than the next sweep asks for, so fewer wait at all times.
-/

set_option autoImplicit false

namespace Scriptlet.Store

variable {s : Store}

/-- The scopes that wait for a sweep, and how many bring one about. -/
def backlog (s : Store) : Array ScopeId × Nat := (s.detached, s.nextSweep)

/-- Fewer scopes wait than bring about a sweep. -/
def Calm (s : Store) : Prop := s.detached.size < s.nextSweep

theorem Calm.congr {s' : Store} (h : s.Calm) (he : s'.backlog = s.backlog) : s'.Calm := by
  obtain ⟨hd, hn⟩ := Prod.mk.inj he
  rw [Calm, hd, hn]
  exact h

@[simp] theorem backlog_keepAll (s : Store) (vs : List Value) :
    (s.keepAll vs).backlog = s.backlog := rfl

@[simp] theorem backlog_drop (s : Store) (v : Value) : (s.drop v).backlog = s.backlog := rfl

@[simp] theorem backlog_freeSlot (s : Store) (id : ScopeId) :
    (s.freeSlot id).backlog = s.backlog := rfl

@[simp] theorem backlog_child (s : Store) (parent : ScopeId) :
    (s.child parent).2.backlog = s.backlog := by
  unfold child
  split <;> rfl

@[simp] theorem backlog_define (s : Store) (id : ScopeId) (name : String) (v : Value) :
    (s.define id name v).backlog = s.backlog := by
  unfold define
  split
  · rfl
  · dsimp only
    split <;> rfl

@[simp] theorem backlog_assign (s : Store) (declare : Bool) (id : ScopeId) (name : String)
    (v : Value) : (s.assign declare id name v).backlog = s.backlog := by
  unfold assign
  split <;> exact backlog_define ..

@[simp] theorem backlog_newPin (s : Store) (id : ScopeId) (parent : Option PinId) :
    (s.newPin id parent).2.backlog = s.backlog := by
  unfold newPin
  split <;> rfl

@[simp] theorem backlog_captureFor (reach : Nat) (id : ScopeId) (s : Store) :
    (captureFor reach id s).2.backlog = s.backlog := by
  induction reach generalizing id s with
  | zero => exact backlog_newPin s id none
  | succ reach ih =>
    unfold captureFor
    split
    · rfl
    · split
      · exact backlog_newPin s id none
      · exact (backlog_newPin ..).trans (ih ..)

@[simp] theorem backlog_defineFunction (s : Store) (id : ScopeId) (name : Option String)
    (params : List String) (body : Node) (source : Source) :
    (s.defineFunction id name params body source).2.backlog = s.backlog := by
  have hnew : (s.newFunction id name params body source).2.backlog = s.backlog :=
    backlog_captureFor (s.scopes.size + 1) id s
  cases name with
  | none => exact hnew
  | some name => exact (backlog_define ..).trans hnew

theorem backlog_freeSlots (ids : List ScopeId) (s : Store) :
    (ids.foldl freeSlot s).backlog = s.backlog := by
  induction ids generalizing s with
  | nil => rfl
  | cons id ids ih => exact ih (s.freeSlot id)

/-- A sweep asks for twice what it leaves, and for no less than one. -/
theorem calm_sweep (s : Store) : s.sweep.Calm := by
  unfold sweep
  refine Calm.congr ?_ (backlog_freeSlots _ _)
  simp only [Calm, List.size_toArray, leastSweep]
  omega

theorem Calm.release (h : s.Calm) (id : ScopeId) : (s.release id).Calm := by
  unfold Store.release
  split
  · exact h
  · split
    · exact h
    · split
      · exact h.congr (backlog_freeSlot s id)
      · dsimp only
        split
        · exact calm_sweep _
        · exact Nat.lt_of_not_le ‹_›

theorem Calm.finish (h : s.Calm) (reclaim : Bool) (id : ScopeId) : (s.finish reclaim id).Calm := by
  cases reclaim with
  | true => exact h.release id
  | false => exact h

theorem Calm.tidy (h : s.Calm) (reclaim : Bool) : (s.tidy reclaim).Calm := by
  cases reclaim with
  | true => exact calm_sweep s
  | false => exact h

theorem calm_bare : bare.Calm := show 0 < leastSweep by decide

theorem calm_seeded : seeded.Calm := by
  unfold seeded
  refine List.foldlRecOn _ _ calm_bare fun s hs b _ => ?_
  exact hs.congr (backlog_define s global b.1 b.2)

end Scriptlet.Store

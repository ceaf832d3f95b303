import Scriptlet.Proofs.Heap.Holding
import Scriptlet.Value.Builtin

/-!
# Heaps that agree

A heap agrees with another that has everything it has, under the same numbers,
and perhaps more. Functions may lie in scopes in other slots there. What is
computed from values that are there does not tell the two apart.
-/

set_option autoImplicit false

namespace Scriptlet

/-- The scope in the slot that has its number for its own. -/
def ScopeId.kept (id : ScopeId) : ScopeId := ⟨id.serial, id.serial⟩

/-- The function in a store where scopes lie in the slots of their numbers. -/
def Function.moved (fn : Function) (pin : PinId) : Function :=
  { fn with scope := fn.scope.kept, pin := pin }

namespace Heap

structure Agrees (h h' : Heap) : Prop where
  lists_size : h'.lists.size = h.lists.size
  functions_size : h'.functions.size = h.functions.size
  list : ∀ id xs, h.list? id = some xs → h'.list? id = some xs
  function : ∀ f fn, h.function? f = some fn → ∃ p, h'.function? f = some (fn.moved p)

variable {h h' : Heap} {outer : List Ref}

namespace Agrees

theorem items (ha : h.Agrees h') {id : ListId} (hl : h.Live (.list id)) :
    h'.items id = h.items id := by
  obtain ⟨xs, hx⟩ := Option.isSome_iff_exists.mp hl
  have hx' := ha.list id xs hx
  simp [Heap.items, hx', show h.list? id = some xs from hx]

theorem live (ha : h.Agrees h') {r : Ref} (hr : h.Live r) (hp : ∀ p, r ≠ .pin p) : h'.Live r := by
  cases r with
  | list id =>
    obtain ⟨xs, hx⟩ := Option.isSome_iff_exists.mp hr
    exact Option.isSome_iff_exists.mpr ⟨xs, ha.list id xs hx⟩
  | function f =>
    obtain ⟨fn, hf⟩ := Option.isSome_iff_exists.mp hr
    obtain ⟨p, hf'⟩ := ha.function f fn hf
    exact Option.isSome_iff_exists.mpr ⟨_, hf'⟩
  | pin p => exact absurd rfl (hp p)

/-- Things may go from both heaps, as long as the first loses all that the second does. -/
theorem of_shrinks {k k' : Heap} (ha : h.Agrees h') (hs : h.Shrinks k) (hs' : h'.Shrinks k')
    (hl : ∀ r, k.Live r → (∀ p, r ≠ .pin p) → k'.Live r) : k.Agrees k' := by
  refine ⟨?_, ?_, ?_, ?_⟩
  · rw [hs'.lists_size, ha.lists_size, hs.lists_size]
  · rw [hs'.functions_size, ha.functions_size, hs.functions_size]
  · intro id xs hx
    have hlive := hl (.list id) (Option.isSome_iff_exists.mpr ⟨xs, hx⟩) (by simp)
    obtain ⟨ys, hy⟩ := Option.isSome_iff_exists.mp hlive
    have hxs := ha.list id xs (hs.list id xs hx)
    have hys := hs'.list id ys hy
    rw [hxs] at hys
    exact hys ▸ hy
  · intro f fn hf
    have hlive := hl (.function f) (Option.isSome_iff_exists.mpr ⟨fn, hf⟩) (by simp)
    obtain ⟨gn, hg⟩ := Option.isSome_iff_exists.mp hlive
    obtain ⟨p, hfn⟩ := ha.function f fn (hs.function f fn hf)
    have hgn := hs'.function f gn hg
    rw [hfn] at hgn
    exact ⟨p, Option.some.inj hgn ▸ hg⟩

theorem keep (ha : h.Agrees h') (v : Value) : (h.keep v).Agrees (h'.keep v) := by
  apply ha.of_shrinks (h.keep_shrinks v) (h'.keep_shrinks v)
  intro r hr hp
  exact (keep_live h' v r).mpr (ha.live ((keep_live h v r).mp hr) hp)

theorem keepAll (ha : h.Agrees h') (vs : List Value) : (h.keepAll vs).Agrees (h'.keepAll vs) := by
  apply ha.of_shrinks (h.keepAll_shrinks vs) (h'.keepAll_shrinks vs)
  intro r hr hp
  exact (keepAll_live h' vs r).mpr (ha.live ((keepAll_live h vs r).mp hr) hp)

theorem newList (ha : h.Agrees h') (items : Array Value) :
    (h.newList items).2.Agrees (h'.newList items).2 := by
  refine ⟨?_, ha.functions_size, ?_, ha.function⟩
  · exact (Table.size_add ..).trans ((congrArg (· + 1) ha.lists_size).trans
      (Table.size_add ..).symm)
  · intro id xs hx
    rw [newList_list?] at hx ⊢
    rw [ha.lists_size]
    split_ifs at hx ⊢ with hid
    · exact hx
    · exact ha.list id xs hx

theorem newList_value (ha : h.Agrees h') (items : Array Value) :
    (h'.newList items).1 = (h.newList items).1 :=
  congrArg Value.list ha.lists_size

theorem newFunction (ha : h.Agrees h') (fn : Function) (p : PinId) :
    (h.newFunction fn).2.Agrees (h'.newFunction (fn.moved p)).2 := by
  refine ⟨ha.lists_size, ?_, ha.list, ?_⟩
  · exact (Table.size_add ..).trans ((congrArg (· + 1) ha.functions_size).trans
      (Table.size_add ..).symm)
  · intro f gn hg
    rw [newFunction_function?] at hg ⊢
    rw [ha.functions_size]
    split_ifs at hg ⊢ with hf
    · obtain rfl := Option.some.inj hg
      exact ⟨p, rfl⟩
    · exact ha.function f gn hg

theorem change (ha : h.Agrees h') (id : ListId) (f : Array Value → Array Value) :
    (h.change id f).Agrees (h'.change id f) := by
  refine ⟨?_, ha.functions_size, ?_, ha.function⟩
  · simp only [Heap.change, Table.size_modify, ha.lists_size]
  · intro j xs hx
    rw [change_list?] at hx ⊢
    split_ifs at hx ⊢ with hj
    · obtain ⟨ys, hy, rfl⟩ := Option.map_eq_some_iff.mp hx
      rw [ha.list j ys hy, Option.map_some]
    · exact ha.list j xs hx

theorem make (ha : h.Agrees h') (c : Computed) :
    (h'.make c).1 = (h.make c).1 ∧ (h.make c).2.Agrees (h'.make c).2 := by
  cases c with
  | value v => exact ⟨rfl, ha.keep v⟩
  | fresh items =>
    have hk := ha.keepAll items.toList
    exact ⟨hk.newList_value items, hk.newList items⟩

end Agrees

end Heap

/-! ## What is read from a heap -/

/-- Values whose references are all there. -/
def There (h : Heap) (v : Value) : Prop := ∀ r ∈ v.ref?, h.Live r

variable {h h' : Heap} {outer : List Ref}

theorem there_item (hb : h.Balanced outer) {id : ListId} {v : Value}
    (hv : v ∈ (h.items id).toList) : There h v := by
  intro r hr
  apply hb.live_of_inner
  cases hx : h.list? id with
  | none => simp [Heap.items, hx] at hv
  | some xs =>
    exact Heap.mem_inner.mpr ⟨.list id, Option.isSome_iff_exists.mpr ⟨xs, hx⟩,
      Value.mem_refs.mpr ⟨v, hv, hr⟩⟩

namespace Heap.Agrees

theorem there (ha : h.Agrees h') {v : Value} (hv : There h v) : There h' v := by
  intro r hr
  apply ha.live (hv r hr)
  rintro p rfl
  cases v <;> simp [Value.ref?] at hr

theorem items_of_there (ha : h.Agrees h') {id : ListId} (hv : There h (.list id)) :
    h'.items id = h.items id :=
  ha.items (hv (.list id) rfl)

theorem functionName (ha : h.Agrees h') {f : FunctionId} (hv : There h (.function f)) :
    Value.functionName h' f = Value.functionName h f := by
  obtain ⟨fn, hf⟩ := Option.isSome_iff_exists.mp (hv (.function f) rfl)
  obtain ⟨p, hf'⟩ := ha.function f fn hf
  have hf : h.function? f = some fn := hf
  simp [Value.functionName, hf, hf', Function.displayName, Function.moved]

theorem displayFor (ha : h.Agrees h') (hb : h.Balanced outer) (levels : Nat)
    (opened : List ListId) (inner : Bool) {v : Value} (hv : There h v) :
    Value.displayFor h' levels opened inner v = Value.displayFor h levels opened inner v := by
  induction levels generalizing opened inner v with
  | zero =>
    cases v with
    | function f => simp only [Value.displayFor, ha.functionName hv]
    | _ => rfl
  | succ levels ih =>
    cases v with
    | function f => simp only [Value.displayFor, ha.functionName hv]
    | list id =>
      have hitems : (h.items id).toList.map (Value.displayFor h' levels (id :: opened) true) =
          (h.items id).toList.map (Value.displayFor h levels (id :: opened) true) := by
        apply List.map_congr_left
        intro w hw
        exact ih (id :: opened) true (there_item hb hw)
      simp only [Value.displayFor, ha.items_of_there hv]
      rw [hitems]
    | _ => rfl

theorem display (ha : h.Agrees h') (hb : h.Balanced outer) {v : Value} (hv : There h v) :
    v.display h' = v.display h := by
  rw [Value.display, ha.lists_size]
  exact ha.displayFor hb _ _ _ hv

theorem equalFor (ha : h.Agrees h') (hb : h.Balanced outer) (levels : Nat)
    (comparing : List (ListId × ListId)) {a b : Value} (hva : There h a) (hvb : There h b) :
    Value.equalFor h' levels comparing a b = Value.equalFor h levels comparing a b := by
  induction levels generalizing comparing a b with
  | zero => cases a <;> cases b <;> rfl
  | succ levels ih =>
    by_cases hlists : ∃ i j, a = .list i ∧ b = .list j
    · obtain ⟨i, j, rfl, rfl⟩ := hlists
      have hall : (((h.items i).toList.zip (h.items j).toList).all fun p =>
          Value.equalFor h' levels ((i, j) :: comparing) p.1 p.2) =
          (((h.items i).toList.zip (h.items j).toList).all fun p =>
            Value.equalFor h levels ((i, j) :: comparing) p.1 p.2) := by
        rw [Bool.eq_iff_iff, List.all_eq_true, List.all_eq_true]
        apply forall₂_congr
        intro p hp
        obtain ⟨hx, hy⟩ := List.of_mem_zip hp
        rw [ih ((i, j) :: comparing) (there_item hb hx) (there_item hb hy)]
      simp only [Value.equalFor, ha.items_of_there hva, ha.items_of_there hvb]
      rw [hall]
    · cases a <;> cases b <;> first | rfl | exact absurd ⟨_, _, rfl, rfl⟩ hlists

theorem equal (ha : h.Agrees h') (hb : h.Balanced outer) {a b : Value} (hva : There h a)
    (hvb : There h b) : Value.equal h' a b = Value.equal h a b := by
  rw [Value.equal, ha.lists_size]
  exact ha.equalFor hb _ _ hva hvb

theorem isTruthy (ha : h.Agrees h') {v : Value} (hv : There h v) :
    v.isTruthy h' = v.isTruthy h := by
  cases v with
  | list id => simp only [Value.isTruthy, ha.items_of_there hv]
  | _ => rfl

theorem lists (ha : h.Agrees h') (hb : h.Balanced outer) (op : BinaryOp) {id : ListId} {b : Value}
    (hva : There h (.list id)) (hvb : There h b) :
    Operator.lists h' op id b = Operator.lists h op id b := by
  have hi := ha.items_of_there hva
  have he := ha.equal hb hva hvb
  unfold Operator.lists
  simp only [hi]
  split
  · rfl
  · rw [ha.items_of_there hvb]
  · rfl
  · rfl
  · rw [he]
  · rw [he]
  · rfl

theorem binary (ha : h.Agrees h') (hb : h.Balanced outer) (op : BinaryOp) {a b : Value}
    (hva : There h a) (hvb : There h b) : Operator.binary h' op a b = Operator.binary h op a b := by
  have he := ha.equal hb hva hvb
  unfold Operator.binary
  split
  · rfl
  · rfl
  · exact ha.lists hb op hva hvb
  · split
    · rfl
    · rw [he]
    · rw [he]
    · rfl

theorem unary (ha : h.Agrees h') (op : UnaryOp) {v : Value} (hv : There h v) :
    Operator.unary h' op v = Operator.unary h op v := by
  unfold Operator.unary
  split
  · rw [ha.isTruthy hv]
  · rfl
  · rfl
  · rfl

theorem index (ha : h.Agrees h') {target place : Value} (hv : There h target) :
    Operator.index h' target place = Operator.index h target place := by
  unfold Operator.index
  split
  · simp only [ha.items_of_there hv]
  · rfl
  · rfl

/-! ## Built-in functions -/

/-- The same result and the same printed text, on heaps that still agree. -/
def Matches (e e' : Effect) : Prop :=
  e'.result = e.result ∧ e'.printed = e.printed ∧ e.heap.Agrees e'.heap

theorem appendAll (ha : h.Agrees h') (id : ListId) (vs : Array Value) :
    (Builtin.appendAll h id vs).Agrees (Builtin.appendAll h' id vs) :=
  (ha.keepAll vs.toList).change id (· ++ vs)

theorem popAt (ha : h.Agrees h') {id : ListId} (hv : There h (.list id)) (index : Int64) :
    Matches (Builtin.popAt h id index) (Builtin.popAt h' id index) := by
  unfold Builtin.popAt
  simp only [ha.items_of_there hv]
  split
  · exact ⟨rfl, rfl, ha⟩
  · exact ⟨rfl, rfl, ha.change id _⟩

theorem apply (ha : h.Agrees h') (hb : h.Balanced outer) (b : Builtin) {args : List Value}
    (hv : ∀ v ∈ args, There h v) : Matches (b.apply h args) (b.apply h' args) := by
  unfold Builtin.apply
  split
  case h_1 v => exact ⟨rfl, congrArg (· ++ "\n") (ha.display hb (hv v (by simp))), ha⟩
  case h_2 v =>
    have hd := ha.display hb (hv v (by simp))
    exact ⟨by simp only [Builtin.give, hd], rfl, ha⟩
  case h_7 id v => exact ⟨rfl, rfl, ha.appendAll id #[v]⟩
  case h_9 id other =>
    rw [ha.items_of_there (hv (.list other) (by simp))]
    exact ⟨rfl, rfl, ha.appendAll id _⟩
  case h_11 id i => exact ha.popAt (hv (.list id) (by simp)) i
  case h_13 id =>
    rw [ha.items_of_there (hv (.list id) (by simp))]
    exact ⟨rfl, rfl, ha⟩
  all_goals exact ⟨rfl, rfl, ha⟩

end Heap.Agrees

end Scriptlet

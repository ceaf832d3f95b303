import Scriptlet.Proofs.Value.Agree
import Scriptlet.Proofs.Value.Bisimilar

/-!
# The same values under other numbers

Where the same is done in two heaps, of which the second has had more lists
from the start, each new list of the first has a fellow in the second, whose
number is larger by how many more there were. Nothing that is computed from
values tells which of the two numbers a list has: results are fellows again,
and texts, truth values and faults are the same.
-/

set_option autoImplicit false

namespace Scriptlet

/-- Lists that both heaps have had from the start keep their numbers. -/
structure Shift where
  fixed : Nat
  offset : Nat

namespace Shift

def list (t : Shift) (id : ListId) : ListId := if id < t.fixed then id else id + t.offset

def value (t : Shift) : Value → Value
  | .list id => .list (t.list id)
  | v => v

def computed (t : Shift) : Computed → Computed
  | .value v => .value (t.value v)
  | .fresh items => .fresh (items.map t.value)

variable (t : Shift)

theorem list_fixed {id : ListId} (h : id < t.fixed) : t.list id = id := if_pos h

theorem list_moved {id : ListId} (h : t.fixed ≤ id) : t.list id = id + t.offset :=
  if_neg (Nat.not_lt.mpr h)

theorem list_inj {a b : Nat} : t.list a = t.list b ↔ a = b := by
  refine ⟨fun h => ?_, congrArg t.list⟩
  have he : (if a < t.fixed then a else a + t.offset) = if b < t.fixed then b else b + t.offset := h
  split_ifs at he <;> omega

@[simp] theorem value_number (n : Number) : t.value (.number n) = .number n := rfl

@[simp] theorem value_text (s : String) : t.value (.text s) = .text s := rfl

@[simp] theorem value_list (id : ListId) : t.value (.list id) = .list (t.list id) := rfl

@[simp] theorem value_function (f : FunctionId) : t.value (.function f) = .function f := rfl

@[simp] theorem value_builtin (b : Builtin) : t.value (.builtin b) = .builtin b := rfl

@[simp] theorem value_nothing : t.value .nothing = .nothing := rfl

@[simp] theorem value_truth (b : Bool) : t.value (.truth b) = .truth b := rfl

@[simp] theorem value_kind (v : Value) : (t.value v).kind = v.kind := by
  cases v <;> rfl

@[simp] theorem value_isNumber (v : Value) : (t.value v).isNumber = v.isNumber := by
  cases v <;> rfl

@[simp] theorem value_isZero (v : Value) : (t.value v).isZero = v.isZero := by
  cases v <;> rfl

theorem value_of_plain {v : Value} (hv : v.ref? = none) : t.value v = v := by
  cases v with
  | list id => simp [Value.ref?] at hv
  | _ => rfl

theorem basic_value {a b : Value} : Value.Basic (t.value a) (t.value b) ↔ Value.Basic a b := by
  constructor
  · intro h
    cases a <;> cases b <;> first | exact h | cases h
  · intro h
    cases h with
    | int n => exact .int n
    | double hf he => exact .double hf he
    | text s => exact .text s
    | function id => exact .function id
    | builtin b => exact .builtin b
    | nothing => exact .nothing

/-! ## What no heap is needed for -/

theorem itemAt_map (items : Array Value) (i : Nat) :
    Operator.itemAt (items.map t.value) i = t.value (Operator.itemAt items i) := by
  by_cases hi : i < items.size <;> simp [Operator.itemAt, hi]

theorem eraseIdx_map (items : Array Value) (i : Nat) :
    (items.map t.value).eraseIdxIfInBounds i = (items.eraseIdxIfInBounds i).map t.value := by
  apply Array.toList_inj.mp
  simp [List.eraseIdx_map]

theorem mismatch_value (op : BinaryOp) (v w : Value) :
    Operator.mismatch op (t.value v) (t.value w) = Operator.mismatch op v w := by
  simp only [Operator.mismatch, value_kind]

theorem divisorFault_value (op : BinaryOp) (v w : Value) :
    Operator.divisorFault? op (t.value v) (t.value w) = Operator.divisorFault? op v w := by
  simp only [Operator.divisorFault?, value_isNumber, value_isZero]

theorem computed_numbers (op : BinaryOp) (m n : Number) :
    (Operator.numbers op m n).map t.computed = Operator.numbers op m n := by
  unfold Operator.numbers
  split
  · next o _ => cases o <;> rfl
  · rfl

theorem computed_texts (op : BinaryOp) (x y : String) :
    (Operator.texts op x y).map t.computed = Operator.texts op x y := by
  unfold Operator.texts
  split
  · rfl
  · split <;> rfl

theorem computed_repeatText (x : String) (n : Int64) :
    (Operator.repeatText x n).map t.computed = Operator.repeatText x n := by
  simp only [Operator.repeatText]
  split <;> rfl

end Shift

/-- A comparison can end in one way only. -/
theorem Value.Compares.eq_equal {h : Heap} {a b : Value} {r : Bool} (hab : Compares h [] a b r) :
    r = equal h a b := by
  have hiff {r : Bool} (hr : Compares h [] a b r) : r = true ↔ Bisimilar h a b :=
    ⟨fun he => bisimilar_iff_upTo.mpr (hr.upTo he), fun ⟨_, hR, hrel⟩ => hR.compares hr hrel⟩
  exact Bool.eq_iff_iff.mpr ((hiff hab).trans (hiff (compares_equal h a b)).symm)

/-- The lists that are there in both heaps hold fellows, and the next list of one will be the fellow
of the next list of the other. -/
structure Heap.Parallel (t : Shift) (h k : Heap) : Prop where
  fixed : t.fixed ≤ h.lists.size
  size : k.lists.size = h.lists.size + t.offset
  list : ∀ id xs ys, h.list? id = some xs → k.list? (t.list id) = some ys → ys = xs.map t.value
  function : ∀ f fn gn, h.function? f = some fn → k.function? f = some gn → gn = fn

/-- A value and its fellow are there. -/
structure Common (t : Shift) (h k : Heap) (v : Value) : Prop where
  here : There h v
  fellow : There k (t.value v)

namespace Heap.Parallel

variable {t : Shift} {h k h' k' : Heap} {outer outer' : List Ref} {v w : Value} {id : ListId}

/-! ## Changes of both heaps -/

theorem of_shrinks (hp : h.Parallel t k) (hs : h.Shrinks h') (hs' : k.Shrinks k') :
    h'.Parallel t k' := by
  refine ⟨hs.lists_size.symm ▸ hp.fixed, ?_, fun id xs ys hx hy => ?_, fun f fn gn hf hg => ?_⟩
  · rw [hs'.lists_size, hs.lists_size, hp.size]
  · exact hp.list id xs ys (hs.list id xs hx) (hs'.list _ ys hy)
  · exact hp.function f fn gn (hs.function f fn hf) (hs'.function f gn hg)

/-- The number of the next list and that of its fellow. -/
theorem next (hp : h.Parallel t k) : t.list h.lists.size = k.lists.size :=
  (t.list_moved hp.fixed).trans hp.size.symm

theorem newList (hp : h.Parallel t k) (items : Array Value) :
    (h.newList items).2.Parallel t (k.newList (items.map t.value)).2 := by
  have hfixed := hp.fixed
  have hsize := hp.size
  refine ⟨?_, ?_, fun id xs ys hx hy => ?_, hp.function⟩
  · simp only [Heap.newList, Table.size_add]
    omega
  · simp only [Heap.newList, Table.size_add]
    omega
  · rw [newList_list?] at hx hy
    simp only [← hp.next, t.list_inj] at hy
    split_ifs at hx hy with hid
    · obtain rfl := Option.some.inj hx
      exact (Option.some.inj hy).symm
    · exact hp.list id xs ys hx hy

theorem make (hp : h.Parallel t k) (c : Computed) :
    (k.make (t.computed c)).1 = t.value (h.make c).1 ∧
      (h.make c).2.Parallel t (k.make (t.computed c)).2 := by
  cases c with
  | value v => exact ⟨rfl, hp.of_shrinks (h.keep_shrinks v) (k.keep_shrinks _)⟩
  | fresh items =>
    have hk : (h.keepAll items.toList).Parallel t (k.keepAll (items.map t.value).toList) :=
      hp.of_shrinks (h.keepAll_shrinks _) (k.keepAll_shrinks _)
    exact ⟨congrArg Value.list hk.next.symm, hk.newList items⟩

/-! ## What is read from both heaps -/

theorem items (hp : h.Parallel t k) (hv : Common t h k (.list id)) :
    k.items (t.list id) = (h.items id).map t.value := by
  obtain ⟨xs, hx⟩ := Option.isSome_iff_exists.mp (hv.here (.list id) rfl)
  obtain ⟨ys, hy⟩ := Option.isSome_iff_exists.mp (hv.fellow (.list (t.list id)) rfl)
  have hxs : h.list? id = some xs := hx
  have hys : k.list? (t.list id) = some ys := hy
  simp only [Heap.items, hxs, hys, Option.getD_some, hp.list id xs ys hxs hys]

theorem common_item (hp : h.Parallel t k) (hb : h.Balanced outer) (hb' : k.Balanced outer')
    (hv : Common t h k (.list id)) (hw : w ∈ (h.items id).toList) : Common t h k w := by
  have hfellow : t.value w ∈ (k.items (t.list id)).toList := by
    rw [hp.items hv, Array.toList_map]
    exact List.mem_map_of_mem hw
  exact ⟨there_item hb hw, there_item hb' hfellow⟩

theorem functionName (hp : h.Parallel t k) {f : FunctionId} (hv : Common t h k (.function f)) :
    Value.functionName k f = Value.functionName h f := by
  obtain ⟨fn, hf⟩ := Option.isSome_iff_exists.mp (hv.here (.function f) rfl)
  obtain ⟨gn, hg⟩ := Option.isSome_iff_exists.mp (hv.fellow (.function f) rfl)
  have hfn : h.function? f = some fn := hf
  have hgn : k.function? f = some gn := hg
  simp only [Value.functionName, hfn, hgn, hp.function f fn gn hfn hgn]

theorem length_le_of_nodup {ids : List ListId} {n : Nat} (hn : ids.Nodup)
    (hlt : ∀ id ∈ ids, id < n) : ids.length ≤ n := by
  have hsub : ids ⊆ List.range n := fun id hid => List.mem_range.mpr (hlt id hid)
  simpa using (hn.subperm hsub).length_le

/-- A list is opened at most once on the way to an item, so in neither heap the levels run out. -/
theorem displayFor (hp : h.Parallel t k) (hb : h.Balanced outer) (hb' : k.Balanced outer')
    {levels levels' : Nat} {opened : List ListId} {inner : Bool} (hn : opened.Nodup)
    (hlt : ∀ id ∈ opened, id < h.lists.size) (hl : h.lists.size < levels + opened.length)
    (hl' : k.lists.size < levels' + opened.length) (hv : Common t h k v) :
    Value.displayFor k levels' (opened.map t.list) inner (t.value v) =
      Value.displayFor h levels opened inner v := by
  induction levels generalizing levels' opened inner v with
  | zero =>
    have := length_le_of_nodup hn hlt
    omega
  | succ levels ih =>
    have hsize := hp.size
    have hle := length_le_of_nodup hn hlt
    obtain ⟨levels', rfl⟩ : ∃ n, levels' = n + 1 := ⟨levels' - 1, by omega⟩
    cases v with
    | function f => simp only [Shift.value_function, Value.displayFor, hp.functionName hv]
    | list id =>
      have hopened : (opened.map t.list).contains (t.list id) = opened.contains id := by
        simp [t.list_inj]
      simp only [Shift.value_list, Value.displayFor, hopened]
      split
      · rfl
      · rename_i hnot
        have hn' : (id :: opened).Nodup := List.nodup_cons.mpr ⟨by simpa using hnot, hn⟩
        have hlt' : ∀ i ∈ id :: opened, i < h.lists.size := by
          obtain ⟨xs, hx⟩ := Option.isSome_iff_exists.mp (hv.here (.list id) rfl)
          exact List.forall_mem_cons.mpr ⟨Table.lt_size hx, hlt⟩
        have hlonger : (id :: opened).length = opened.length + 1 := rfl
        have hitems : (k.items (t.list id)).toList.map
              (Value.displayFor k levels' (t.list id :: opened.map t.list) true) =
            (h.items id).toList.map (Value.displayFor h levels (id :: opened) true) := by
          rw [hp.items hv, Array.toList_map, List.map_map]
          refine List.map_congr_left fun w hw => ?_
          exact ih hn' hlt' (by omega) (by omega) (hp.common_item hb hb' hv hw)
        rw [hitems]
    | _ => rfl

theorem display (hp : h.Parallel t k) (hb : h.Balanced outer) (hb' : k.Balanced outer')
    (hv : Common t h k v) : (t.value v).display k = v.display h :=
  hp.displayFor hb hb' (List.nodup_nil : ([] : List ListId).Nodup) (by simp) (by simp) (by simp) hv

theorem isTruthy (hp : h.Parallel t k) (hv : Common t h k v) :
    (t.value v).isTruthy k = v.isTruthy h := by
  cases v with
  | list id => simp [Value.isTruthy, hp.items hv, Array.isEmpty]
  | _ => rfl

theorem sideBySide (hp : h.Parallel t k) {a b : ListId} (ha : Common t h k (.list a))
    (hb : Common t h k (.list b)) : Value.sideBySide k (t.list a) (t.list b) =
      (Value.sideBySide h a b).map (Prod.map t.value t.value) := by
  simp only [Value.sideBySide, hp.items ha, hp.items hb, Array.toList_map, List.zip_map]

/-- The comparison of fellows ends as that of the values does. -/
theorem compares (hp : h.Parallel t k) (hb : h.Balanced outer) (hb' : k.Balanced outer')
    {c : List (ListId × ListId)} {r : Bool} (hab : Value.Compares h c v w r)
    (hv : Common t h k v) (hw : Common t h k w) :
    Value.Compares k (c.map (Prod.map t.list t.list)) (t.value v) (t.value w) r := by
  have hknown {c : List (ListId × ListId)} {a b : ListId} :
      (t.list a = t.list b ∨ (t.list a, t.list b) ∈ c.map (Prod.map t.list t.list)) ↔
        a = b ∨ (a, b) ∈ c := by
    simp [t.list_inj]
  have hitem {a b : ListId} {p : Value × Value} (ha : Common t h k (.list a))
      (hb : Common t h k (.list b)) (hm : p ∈ Value.sideBySide h a b) :
      Common t h k p.1 ∧ Common t h k p.2 := by
    obtain ⟨hx, hy⟩ := List.of_mem_zip (show (p.1, p.2) ∈ _ from hm)
    exact ⟨hp.common_item ‹_› hb' ha hx, hp.common_item ‹_› hb' hb hy⟩
  induction hab with
  | basic hl hr => exact .basic (by simpa using hl) (hr.trans t.basic_value.symm)
  | known hk => exact .known (hknown.mpr hk)
  | lengths hk hs =>
    exact .lengths (mt hknown.mp hk) (by simpa [hp.items hv, hp.items hw] using hs)
  | items hk hs hi ih =>
    refine .items (mt hknown.mp hk) (by simpa [hp.items hv, hp.items hw] using hs) fun p hm => ?_
    rw [hp.sideBySide hv hw] at hm
    obtain ⟨q, hq, rfl⟩ := List.mem_map.mp hm
    obtain ⟨hx, hy⟩ := hitem hv hw hq
    exact ih q hq hx hy
  | @differ c a b front back p hk hs hsplit hf hd ihf ihd =>
    have hmem (q : Value × Value) (hq : q ∈ front ++ p :: back) :
        Common t h k q.1 ∧ Common t h k q.2 := hitem hv hw (hsplit ▸ hq)
    have hsplit' : Value.sideBySide k (t.list a) (t.list b) =
        front.map (Prod.map t.value t.value) ++
          Prod.map t.value t.value p :: back.map (Prod.map t.value t.value) := by
      rw [hp.sideBySide hv hw, hsplit, List.map_append, List.map_cons]
    obtain ⟨hx, hy⟩ := hmem p (by simp)
    refine .differ (mt hknown.mp hk) (by simpa [hp.items hv, hp.items hw] using hs) hsplit'
      (fun q' hq' => ?_) (ihd hx hy)
    obtain ⟨q, hq, rfl⟩ := List.mem_map.mp hq'
    obtain ⟨hx, hy⟩ := hmem q (List.mem_append_left _ hq)
    exact ihf q hq hx hy

theorem equal (hp : h.Parallel t k) (hb : h.Balanced outer) (hb' : k.Balanced outer')
    (hv : Common t h k v) (hw : Common t h k w) :
    Value.equal k (t.value v) (t.value w) = Value.equal h v w :=
  ((hp.compares hb hb' (Value.compares_equal h v w) hv hw).eq_equal).symm

/-! ## Operators -/

theorem lists (hp : h.Parallel t k) (hb : h.Balanced outer) (hb' : k.Balanced outer')
    (op : BinaryOp) (hv : Common t h k (.list id)) (hw : Common t h k w) :
    Operator.lists k op (t.list id) (t.value w) = (Operator.lists h op id w).map t.computed := by
  have hi := hp.items hv
  have he : Value.equal k (.list (t.list id)) (t.value w) = Value.equal h (.list id) w :=
    hp.equal hb hb' hv hw
  cases op with
  | add => simp [Operator.lists, hi, Except.map, Shift.computed]
  | eq | ne => simp [Operator.lists, he, Except.map, Shift.computed]
  | mul =>
    cases w with
    | list other => simp [Operator.lists, hi, hp.items hw, Except.map, Shift.computed]
    | _ => rfl
  | sub | div =>
    cases w with
    | number n =>
      cases n with
      | int i =>
        simp only [Operator.lists, Shift.value_number, hi, Array.size_map]
        cases resolveIndex i (h.items id).size with
        | error fault => rfl
        | ok i => simp [t.itemAt_map, t.eraseIdx_map, Except.map, Shift.computed]
      | float x => rfl
    | _ => rfl
  | _ => exact congrArg Except.error (t.mismatch_value _ (.list id) w)

theorem binary (hp : h.Parallel t k) (hb : h.Balanced outer) (hb' : k.Balanced outer')
    (op : BinaryOp) (hv : Common t h k v) (hw : Common t h k w) :
    Operator.binary k op (t.value v) (t.value w) = (Operator.binary h op v w).map t.computed := by
  -- Only where the left operand is a list does an operator look into the heap.
  cases v with
  | list id => exact hp.lists hb hb' op hv hw
  | number m =>
    cases w with
    | number n => exact (t.computed_numbers op m n).symm
    | _ => cases op <;> rfl
  | text x =>
    cases w with
    | text y => exact (t.computed_texts op x y).symm
    | number n =>
      cases n with
      | float y => cases op <;> rfl
      | int n =>
        cases op with
        | mul => exact (t.computed_repeatText x n).symm
        | _ => rfl
    | _ => cases op <;> rfl
  | _ => cases w <;> cases op <;> rfl

theorem unary (hp : h.Parallel t k) (op : UnaryOp) (hv : Common t h k v) :
    Operator.unary k op (t.value v) = (Operator.unary h op v).map t.value := by
  cases op with
  | not => simp [Operator.unary, hp.isTruthy hv, Except.map]
  | neg | pos => cases v <;> rfl

theorem index (hp : h.Parallel t k) (hv : Common t h k v) :
    Operator.index k (t.value v) (t.value w) = (Operator.index h v w).map t.value := by
  cases v with
  | list id =>
    cases w with
    | number n =>
      cases n with
      | int i =>
        simp only [Operator.index, Shift.value_list, Shift.value_number, hp.items hv,
          Array.size_map]
        cases resolveIndex i (h.items id).size with
        | error fault => rfl
        | ok i => exact congrArg Except.ok (t.itemAt_map ..)
      | float x => rfl
    | _ => rfl
  | text s =>
    cases w with
    | number n =>
      cases n with
      | int i =>
        simp only [Operator.index, Shift.value_text, Shift.value_number]
        split <;> rfl
      | float x => rfl
    | _ => rfl
  | _ => cases w <;> rfl

end Heap.Parallel

end Scriptlet

import Scriptlet.Proofs.Value.Effects

/-!
# The places that indices mean

An index is in range for `n` items if it is at least `-n` and less than `n`,
and then it means one place among them. Whatever takes an index, for an item
of a list or a character of a text, resolves it in this way; an index that is
not in range is the fault, with the number of items.
-/

set_option autoImplicit false

namespace Scriptlet

def InRange (i : Int64) (n : Nat) : Prop := -(n : Int) ≤ i.toInt ∧ i.toInt < n

instance (i : Int64) (n : Nat) : Decidable (InRange i n) :=
  inferInstanceAs (Decidable (_ ∧ _))

/-- The place among `n` that an index means; a negative one counts from the end. -/
structure Addresses (i : Int64) (n k : Nat) : Prop where
  lt : k < n
  place : (k : Int) = if 0 ≤ i.toInt then i.toInt else n + i.toInt

variable {i : Int64} {n k : Nat}

theorem inRange_iff : InRange i n ↔ ∃ k, Addresses i n k := by
  refine ⟨fun hi => ?_, fun hk => ?_⟩
  · obtain ⟨hlow, hhigh⟩ := hi
    by_cases hi : 0 ≤ i.toInt
    · exact ⟨i.toInt.toNat, by omega, by rw [if_pos hi]; omega⟩
    · exact ⟨(n + i.toInt).toNat, by omega, by rw [if_neg hi]; omega⟩
  · obtain ⟨k, hlt, hplace⟩ := hk
    split at hplace <;> constructor <;> omega

/-- Whether an index is negative is asked of the 64-bit number, and the rest is done on integers. -/
theorem resolved_eq (i : Int64) (n : Nat) :
    (if i < 0 then i.toInt + n else i.toInt) = if 0 ≤ i.toInt then i.toInt else n + i.toInt := by
  by_cases hi : i < 0
  · have hneg : i.toInt < 0 := Int64.lt_iff_toInt_lt.mp hi
    rw [if_pos hi, if_neg (by omega), Int.add_comm]
  · have hpos : ¬ i.toInt < 0 := fun hc => hi (Int64.lt_iff_toInt_lt.mpr hc)
    rw [if_neg hi, if_pos (by omega)]

theorem resolveIndex_ok (h : Addresses i n k) : resolveIndex i n = .ok k := by
  obtain ⟨hlt, hplace⟩ := h
  simp only [resolveIndex, resolved_eq, ← hplace]
  rw [if_pos (by omega), Int.toNat_natCast]

theorem resolveIndex_fails (h : ¬ InRange i n) :
    resolveIndex i n = .error (.indexOutOfRange i n) := by
  simp only [resolveIndex, resolved_eq]
  refine if_neg fun hrange => h ?_
  obtain ⟨hlow, hhigh⟩ := hrange
  split at hlow <;> constructor <;> omega

/-! ## Items of lists -/

section

variable {h : Heap} {id : ListId} {x : Value}

theorem itemAt_of_lt {items : Array Value} (hk : k < items.size) :
    items[k]? = some (Operator.itemAt items k) := by
  simp [Operator.itemAt, hk]

theorem index_list (ha : Addresses i (h.items id).size k) :
    Operator.index h (.list id) (.int i) = .ok (Operator.itemAt (h.items id) k) := by
  simp only [Operator.index, Value.int, resolveIndex_ok ha]

theorem divide_list (ha : Addresses i (h.items id).size k) :
    Operator.binary h .div (.list id) (.int i) =
      .ok (.value (Operator.itemAt (h.items id) k)) := by
  simp only [Operator.binary, Operator.lists, Value.int, resolveIndex_ok ha]

theorem subtract_list (ha : Addresses i (h.items id).size k) :
    Operator.binary h .sub (.list id) (.int i) =
      .ok (.fresh ((h.items id).eraseIdxIfInBounds k)) := by
  simp only [Operator.binary, Operator.lists, Value.int, resolveIndex_ok ha]

theorem pop_list (ha : Addresses i (h.items id).size k) :
    Builtin.apply h .pop [.list id, .int i] =
      Builtin.give (h.change id (·.eraseIdxIfInBounds k)) (Operator.itemAt (h.items id) k) := by
  simp only [Builtin.apply, Value.int, Builtin.popAt, resolveIndex_ok ha]
  rfl

variable (hi : ¬ InRange i (h.items id).size)
include hi

theorem index_list_fails :
    Operator.index h (.list id) (.int i) = .error (.indexOutOfRange i (h.items id).size) := by
  simp only [Operator.index, Value.int, resolveIndex_fails hi]

theorem divide_list_fails :
    Operator.binary h .div (.list id) (.int i) =
      .error (.indexOutOfRange i (h.items id).size) := by
  simp only [Operator.binary, Operator.lists, Value.int, resolveIndex_fails hi]

theorem subtract_list_fails :
    Operator.binary h .sub (.list id) (.int i) =
      .error (.indexOutOfRange i (h.items id).size) := by
  simp only [Operator.binary, Operator.lists, Value.int, resolveIndex_fails hi]

theorem pop_list_fails :
    Builtin.apply h .pop [.list id, .int i] =
      Builtin.refuse h (.indexOutOfRange i (h.items id).size) := by
  simp only [Builtin.apply, Value.int, Builtin.popAt, resolveIndex_fails hi]

end

/-! ## Characters of texts -/

/-- The characters of a text, each as a text. -/
def characters (s : String) : List String := s.toList.map String.singleton

theorem length_characters (s : String) : (characters s).length = s.length := by
  rw [characters, List.length_map, String.length_toList]

theorem length_of_mem_characters {s p : String} (hp : p ∈ characters s) : p.length = 1 := by
  obtain ⟨c, -, rfl⟩ := List.mem_map.mp hp
  exact String.length_singleton

theorem join_characters (s : String) : String.join (characters s) = s := by
  rw [← String.toList_inj, String.toList_join]
  simp [characters, List.flatMap_map]

theorem index_text {s : String} (h : Heap) (ha : Addresses i s.length k) :
    ∃ p, (characters s)[k]? = some p ∧ Operator.index h (.text s) (.int i) = .ok (.text p) := by
  have hlen : s.toList.length = s.length := String.length_toList
  have hk : k < s.toList.length := hlen ▸ ha.lt
  refine ⟨String.singleton s.toList[k], by simp [characters, hk], ?_⟩
  have hone : (s.toList.drop k).take 1 = [s.toList[k]] := by
    rw [List.drop_eq_getElem_cons hk]
    rfl
  simp only [Operator.index, Value.int, hlen, resolveIndex_ok ha, hone]
  rfl

theorem index_text_fails {s : String} (h : Heap) (hi : ¬ InRange i s.length) :
    Operator.index h (.text s) (.int i) = .error (.indexOutOfRange i s.length) := by
  have hlen : s.toList.length = s.length := String.length_toList
  simp only [Operator.index, Value.int, hlen, resolveIndex_fails hi]

/-- A length that is a whole number of the language is told as it is. -/
theorem lengthValue_int (n : Nat) :
    ∃ len : Int64, Builtin.lengthValue n = .int len ∧ (n < 2 ^ 63 → len.toInt = n) := by
  refine ⟨_, rfl, fun hn => ?_⟩
  have hmin : min n Int64.maxValue.toNatClampNeg = n := min_eq_left (Nat.le_of_lt_succ hn)
  rw [hmin, Int64.toInt_ofNat_of_lt hn]

end Scriptlet

import Scriptlet.Value.Equality
import Scriptlet.Proofs.Heap.Table
import Mathlib

/-!
# Values that cannot be told apart

Lists may hold themselves, so equality of lists is no recursion on them. A
relation is a bisimulation if it relates lists only item by item, or a list to
itself, and all else only if it is equal by itself. Comparing two values comes
to its end, and finds them equal exactly if some bisimulation relates them.
-/

set_option autoImplicit false

namespace Scriptlet

/-! ## Values that are no lists -/

theorem Double.beq_comm (x y : Float) : (x == y) = (y == x) := by
  have hxy := Float.Model.UnpackedFloat.unpack_beq_unpack_iff x.toModel.valid y.toModel.valid
  have hyx := Float.Model.UnpackedFloat.unpack_beq_unpack_iff y.toModel.valid x.toModel.valid
  exact Bool.eq_iff_iff.mpr (hxy.trans (Iff.trans (by grind) hyx.symm))

namespace Value

/-- Equality of values that needs no look into a list. -/
inductive Basic : Value → Value → Prop where
  | int (n : Int64) : Basic (.number (.int n)) (.number (.int n))
  /-- With a double among two numbers both are compared as doubles. -/
  | double {m n : Number} (hf : m.kind = .float ∨ n.kind = .float)
      (he : (m.toFloat == n.toFloat) = true) : Basic (.number m) (.number n)
  | text (s : String) : Basic (.text s) (.text s)
  | function (id : FunctionId) : Basic (.function id) (.function id)
  | builtin (b : Builtin) : Basic (.builtin b) (.builtin b)
  | nothing : Basic .nothing .nothing

theorem Basic.symm {a b : Value} (h : Basic a b) : Basic b a := by
  cases h with
  | double hf he => exact .double hf.symm (Double.beq_comm .. ▸ he)
  | int n => exact .int n
  | text s => exact .text s
  | function id => exact .function id
  | builtin b => exact .builtin b
  | nothing => exact .nothing

theorem number_equal_iff (m n : Number) : m.equal n = true ↔ Basic (.number m) (.number n) := by
  cases m with
  | float x =>
    refine ⟨fun h => .double (.inl rfl) h, fun h => ?_⟩
    cases h with
    | double _ he => exact he
  | int i =>
    cases n with
    | float y =>
      refine ⟨fun h => .double (.inr rfl) h, fun h => ?_⟩
      cases h with
      | double _ he => exact he
    | int j =>
      refine ⟨fun h => ?_, fun h => ?_⟩
      · obtain rfl : i = j := by simpa [Number.equal] using h
        exact .int i
      · cases h with
        | int => simp [Number.equal]
        | double hf => simp [Number.kind] at hf

/-! ## The comparison without a bound -/

/-- The items of two lists side by side. -/
def sideBySide (h : Heap) (a b : ListId) : List (Value × Value) :=
  (h.items a).toList.zip (h.items b).toList

/-- How the comparison of two values ends while the pairs of lists in `c` are being compared. What
is derived here has come to its end, as a derivation is finite. -/
inductive Compares (h : Heap) : List (ListId × ListId) → Value → Value → Bool → Prop where
  | basic {c : List (ListId × ListId)} {a b : Value} {r : Bool}
      (hl : a.kind ≠ .list ∨ b.kind ≠ .list) (hr : r = true ↔ Basic a b) : Compares h c a b r
  | known {c : List (ListId × ListId)} {a b : ListId} (hk : a = b ∨ (a, b) ∈ c) :
      Compares h c (.list a) (.list b) true
  | lengths {c : List (ListId × ListId)} {a b : ListId} (hk : ¬ (a = b ∨ (a, b) ∈ c))
      (hs : (h.items a).size ≠ (h.items b).size) : Compares h c (.list a) (.list b) false
  | items {c : List (ListId × ListId)} {a b : ListId} (hk : ¬ (a = b ∨ (a, b) ∈ c))
      (hs : (h.items a).size = (h.items b).size)
      (hi : ∀ p ∈ sideBySide h a b, Compares h ((a, b) :: c) p.1 p.2 true) :
      Compares h c (.list a) (.list b) true
  /-- The first items that differ end the comparison. -/
  | differ {c : List (ListId × ListId)} {a b : ListId} {front back : List (Value × Value)}
      {p : Value × Value} (hk : ¬ (a = b ∨ (a, b) ∈ c))
      (hs : (h.items a).size = (h.items b).size) (hp : sideBySide h a b = front ++ p :: back)
      (hf : ∀ q ∈ front, Compares h ((a, b) :: c) q.1 q.2 true)
      (hd : Compares h ((a, b) :: c) p.1 p.2 false) : Compares h c (.list a) (.list b) false

variable {h : Heap} {levels : Nat} {c : List (ListId × ListId)} {a b : Value}

/-- The pairs being compared are different pairs of lists of the heap. -/
structure Within (h : Heap) (c : List (ListId × ListId)) : Prop where
  nodup : c.Nodup
  lists : ∀ p ∈ c, p.1 < h.lists.size ∧ p.2 < h.lists.size

theorem Within.length_le (hc : Within h c) : c.length ≤ h.lists.size * h.lists.size := by
  have hsub : c.toFinset ⊆ Finset.range h.lists.size ×ˢ Finset.range h.lists.size := by
    intro p hp
    simpa using hc.lists p (List.mem_toFinset.mp hp)
  simpa [List.toFinset_card_of_nodup hc.nodup] using Finset.card_le_card hsub

/-- A list with items is in the heap. -/
theorem lt_size_of_mem {id : ListId} {v : Value} (hv : v ∈ h.items id) : id < h.lists.size := by
  cases hl : h.lists.get? id with
  | some items => exact Table.lt_size hl
  | none => simp [Heap.items, Heap.list?, hl] at hv

theorem Within.cons {a b : ListId} {p : Value × Value} (hc : Within h c) (hk : (a, b) ∉ c)
    (hp : p ∈ sideBySide h a b) : Within h ((a, b) :: c) := by
  obtain ⟨ha, hb⟩ := List.of_mem_zip (show (p.1, p.2) ∈ _ from hp)
  exact ⟨List.nodup_cons.mpr ⟨hk, hc.nodup⟩, List.forall_mem_cons.mpr
    ⟨⟨lt_size_of_mem (by simpa using ha), lt_size_of_mem (by simpa using hb)⟩, hc.lists⟩⟩

theorem compares_all {a b : ListId} (hk : ¬ (a = b ∨ (a, b) ∈ c))
    (hs : (h.items a).size = (h.items b).size) {r : Value × Value → Bool}
    (hr : ∀ p ∈ sideBySide h a b, Compares h ((a, b) :: c) p.1 p.2 (r p)) :
    Compares h c (.list a) (.list b) ((sideBySide h a b).all r) := by
  cases hfind : (sideBySide h a b).find? (fun p => !r p) with
  | none =>
    have htrue : ∀ p ∈ sideBySide h a b, r p = true := by simpa using hfind
    rw [List.all_eq_true.mpr htrue]
    exact .items hk hs fun p hp => htrue p hp ▸ hr p hp
  | some p =>
    obtain ⟨hp, front, back, hsplit, hfront⟩ := List.find?_eq_some_iff_append.mp hfind
    have hmem : p ∈ sideBySide h a b := List.mem_of_find?_eq_some hfind
    have hfalse : r p = false := by simpa using hp
    rw [List.all_eq_false.mpr ⟨p, hmem, by simp [hfalse]⟩]
    refine .differ hk hs hsplit (fun q hq => ?_) (hfalse ▸ hr p hmem)
    have hq' : r q = true := by simpa using hfront q hq
    exact hq' ▸ hr q (hsplit ▸ List.mem_append_left _ hq)

theorem basic_iff_eq {α : Type} [DecidableEq α] {f : α → Value} (hself : ∀ x, Basic (f x) (f x))
    (hinj : ∀ x y, Basic (f x) (f y) → x = y) (x y : α) :
    decide (x = y) = true ↔ Basic (f x) (f y) :=
  ⟨fun hd => of_decide_eq_true hd ▸ hself x, fun hb => decide_eq_true (hinj x y hb)⟩

theorem exists_of_kind_list {v : Value} (hv : v.kind = .list) : ∃ id, v = .list id := by
  cases v with
  | list id => exact ⟨id, rfl⟩
  | number n => cases n <;> cases hv
  | _ => cases hv

/-- A comparison of as many levels as there are pairs of lists never runs out of them. -/
theorem compares_equalFor (hc : Within h c)
    (hlevels : h.lists.size * h.lists.size < c.length + levels) :
    Compares h c a b (equalFor h levels c a b) := by
  fun_induction equalFor h levels c a b with
  | case1 levels c m n =>
    exact .basic (.inl (by cases m <;> simp [kind, Number.kind])) (number_equal_iff m n)
  | case2 levels c s t =>
    exact .basic (.inl (by simp [kind])) (basic_iff_eq .text (fun _ _ hb => by cases hb; rfl) s t)
  | case3 c => exact absurd hlevels (Nat.not_lt.mpr hc.length_le)
  | case4 c levels a b hk => exact .known (by simpa using hk)
  | case5 levels c a b hk xs ys ih =>
    have hk' : ¬ (a = b ∨ (a, b) ∈ c) := by simpa using hk
    by_cases hs : xs.size = ys.size
    · rw [decide_eq_true hs, Bool.true_and]
      exact compares_all hk' hs fun p hp =>
        ih p (hc.cons (fun hm => hk' (.inr hm)) hp) (by simp only [List.length_cons]; omega)
    · simpa [hs] using Compares.lengths hk' hs
  | case6 levels c f g =>
    exact .basic (.inl (by simp [kind]))
      (basic_iff_eq .function (fun _ _ hb => by cases hb; rfl) f g)
  | case7 levels c f g =>
    exact .basic (.inl (by simp [kind]))
      (basic_iff_eq .builtin (fun _ _ hb => by cases hb; rfl) f g)
  | case8 levels c => exact .basic (.inl (by simp [kind])) (iff_of_true rfl .nothing)
  | case9 levels c a b hnumber htext hfunction hbuiltin hnothing hzero hsucc =>
    refine .basic ?_ (iff_of_false Bool.false_ne_true fun hb => ?_)
    · rw [← not_and_or]
      rintro ⟨ha, hb⟩
      obtain ⟨i, rfl⟩ := exists_of_kind_list ha
      obtain ⟨j, rfl⟩ := exists_of_kind_list hb
      cases levels with
      | zero => exact hzero i j rfl rfl rfl
      | succ n => exact hsucc n i j rfl rfl rfl
    · cases hb with
      | int n => exact hnumber _ _ rfl rfl
      | double => exact hnumber _ _ rfl rfl
      | text s => exact htext _ _ rfl rfl
      | function id => exact hfunction _ _ rfl rfl
      | builtin b => exact hbuiltin _ _ rfl rfl
      | nothing => exact hnothing rfl rfl

/-! ## Bisimulations -/

/-- What a bisimulation may relate, if `R` is that relation. -/
inductive Matches (h : Heap) (R : Value → Value → Prop) : Value → Value → Prop where
  | basic {a b : Value} (hb : Basic a b) : Matches h R a b
  | self (id : ListId) : Matches h R (.list id) (.list id)
  | items {a b : ListId} (hi : List.Forall₂ R (h.items a).toList (h.items b).toList) :
      Matches h R (.list a) (.list b)

def Bisimulation (h : Heap) (R : Value → Value → Prop) : Prop := ∀ a b, R a b → Matches h R a b

theorem Matches.mono {R S : Value → Value → Prop} (hRS : ∀ a b, R a b → S a b)
    (hm : Matches h R a b) : Matches h S a b := by
  cases hm with
  | basic hb => exact .basic hb
  | self id => exact .self id
  | items hi => exact .items (hi.imp hRS)

theorem Matches.flip {R : Value → Value → Prop} (hm : Matches h R a b) :
    Matches h (flip R) b a := by
  cases hm with
  | basic hb => exact .basic hb.symm
  | self id => exact .self id
  | items hi => exact .items hi.flip

/-- Related by something that would be a bisimulation if the lists in `c` were alike. -/
def UpTo (h : Heap) (c : List (ListId × ListId)) (a b : Value) : Prop :=
  ∃ R : Value → Value → Prop, R a b ∧
    ∀ x y, R x y → Matches h R x y ∨ ∃ p ∈ c, x = .list p.1 ∧ y = .list p.2

theorem UpTo.matches (hu : UpTo h c a b) :
    Matches h (UpTo h c) a b ∨ ∃ p ∈ c, a = .list p.1 ∧ b = .list p.2 := by
  obtain ⟨R, hab, hR⟩ := hu
  exact (hR a b hab).imp_left (Matches.mono fun x y hxy => ⟨R, hxy, hR⟩)

theorem UpTo.of_matches (hm : Matches h (UpTo h c) a b) : UpTo h c a b := by
  refine ⟨fun x y => Matches h (UpTo h c) x y ∨ UpTo h c x y, .inl hm, ?_⟩
  rintro x y (hxy | hxy)
  · exact .inl (hxy.mono fun _ _ => .inr)
  · exact hxy.matches.imp_left (Matches.mono fun _ _ => .inr)

/-- Two lists are alike if their items are while the lists count as alike. -/
theorem UpTo.of_items {a b : ListId}
    (hi : List.Forall₂ (UpTo h ((a, b) :: c)) (h.items a).toList (h.items b).toList) :
    UpTo h c (.list a) (.list b) := by
  refine ⟨fun x y => UpTo h ((a, b) :: c) x y ∨ (x = .list a ∧ y = .list b), .inr ⟨rfl, rfl⟩, ?_⟩
  have hlists : Matches h (fun x y => UpTo h ((a, b) :: c) x y ∨ (x = .list a ∧ y = .list b))
      (.list a) (.list b) := .items (hi.imp fun _ _ => .inl)
  rintro x y (hxy | ⟨rfl, rfl⟩)
  · rcases hxy.matches with hm | ⟨p, hp, rfl, rfl⟩
    · exact .inl (hm.mono fun _ _ => .inl)
    · rcases List.mem_cons.mp hp with rfl | hp
      · exact .inl hlists
      · exact .inr ⟨p, hp, rfl, rfl⟩
  · exact .inl hlists

theorem forall₂_of_sideBySide {R : Value → Value → Prop} {a b : ListId}
    (hs : (h.items a).size = (h.items b).size) (hi : ∀ p ∈ sideBySide h a b, R p.1 p.2) :
    List.Forall₂ R (h.items a).toList (h.items b).toList :=
  List.forall₂_iff_zip.mpr ⟨by simpa using hs, fun hp => hi _ hp⟩

/-- What is found equal is alike, up to what was being compared. -/
theorem Compares.upTo {r : Bool} (hab : Compares h c a b r) (hr : r = true) : UpTo h c a b := by
  induction hab with
  | basic hl hb => exact .of_matches (.basic (hb.mp hr))
  | @known c a b hk =>
    rcases hk with rfl | hk
    · exact .of_matches (.self a)
    · exact ⟨fun x y => x = .list a ∧ y = .list b, ⟨rfl, rfl⟩, fun x y hxy => .inr ⟨_, hk, hxy⟩⟩
  | lengths => cases hr
  | items hk hs hi ih => exact .of_items (forall₂_of_sideBySide hs fun p hp => ih p hp rfl)
  | differ => cases hr

/-- What some bisimulation relates is found equal. -/
theorem Bisimulation.compares {R : Value → Value → Prop} (hR : Bisimulation h R) {r : Bool}
    (hab : Compares h c a b r) (hrel : R a b) : r = true := by
  induction hab with
  | @basic c a b r hl hb =>
    cases hR _ _ hrel with
    | basic h => exact hb.mpr h
    | self => simp [kind] at hl
    | items => simp [kind] at hl
  | known => rfl
  | lengths hk hs =>
    cases hR _ _ hrel with
    | basic h => cases h
    | self => exact absurd (.inl rfl) hk
    | items hi => exact absurd hi.length_eq (by simpa using hs)
  | items => rfl
  | @differ c a b front back p hk hs hp hf hd ihf ihd =>
    cases hR _ _ hrel with
    | basic h => cases h
    | self => exact absurd (.inl rfl) hk
    | items hi =>
      have hmem : (p.1, p.2) ∈ sideBySide h a b := by simp [hp]
      exact ihd ((List.forall₂_iff_zip.mp hi).2 hmem)

/-- Related by some bisimulation. -/
def Bisimilar (h : Heap) (a b : Value) : Prop := ∃ R, Bisimulation h R ∧ R a b

theorem bisimilar_iff_upTo : Bisimilar h a b ↔ UpTo h [] a b :=
  ⟨fun ⟨R, hR, hab⟩ => ⟨R, hab, fun x y hxy => .inl (hR x y hxy)⟩,
    fun ⟨R, hab, hR⟩ => ⟨R, fun x y hxy => (hR x y hxy).resolve_right (by simp), hab⟩⟩

theorem Bisimilar.symm (hab : Bisimilar h a b) : Bisimilar h b a := by
  obtain ⟨R, hR, hab⟩ := hab
  exact ⟨flip R, fun x y hxy => (hR y x hxy).flip, hab⟩

/-! ## Equality -/

theorem compares_equal (h : Heap) (a b : Value) : Compares h [] a b (equal h a b) :=
  compares_equalFor ⟨List.nodup_nil, by simp⟩ (by simp)

/-- The comparison comes to its end, and finds equal what some bisimulation relates; so it does not
matter which of two values is compared with the other. -/
theorem equal_decides_bisimilar (h : Heap) (a b : Value) :
    (∀ r, Compares h [] a b r ↔ r = equal h a b) ∧ (equal h a b = true ↔ Bisimilar h a b) ∧
      equal h a b = equal h b a := by
  have hiff {a b : Value} {r : Bool} (hab : Compares h [] a b r) : r = true ↔ Bisimilar h a b :=
    ⟨fun hr => bisimilar_iff_upTo.mpr (hab.upTo hr), fun ⟨_, hR, hrel⟩ => hR.compares hab hrel⟩
  have hequal (a b : Value) := hiff (compares_equal h a b)
  refine ⟨fun r => ⟨fun hr => ?_, fun hr => hr ▸ compares_equal h a b⟩, hequal a b, ?_⟩
  · exact Bool.eq_iff_iff.mpr ((hiff hr).trans (hequal a b).symm)
  · exact Bool.eq_iff_iff.mpr
      ((hequal a b).trans (Iff.trans ⟨.symm, .symm⟩ (hequal b a).symm))

/-- Two lists that hold each other, and one that holds itself. -/
example :
    let lists : Table (Array Value) :=
      ⟨#[some ⟨1, #[.list 1]⟩, some ⟨1, #[.list 0]⟩, some ⟨1, #[.list 2]⟩]⟩
    let h : Heap := ⟨lists, .empty, .empty⟩
    equal h (.list 0) (.list 2) = true := by
  decide

end Value

end Scriptlet

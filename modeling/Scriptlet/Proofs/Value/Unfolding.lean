import Scriptlet.Proofs.Value.Shifted

/-!
# Lists written out

A list may hold itself, and then it is written only up to the place where it
stands inside itself. What is written of a value is a tree: each list with all
of its items, in order, and three dots for a list that is one of those around
it. The tree is finite for every heap, and its text is what is displayed.
-/

set_option autoImplicit false

namespace Scriptlet

/-- What is written of a value. -/
inductive Unfolding where
  | word (s : String)
  | dots
  | list (items : List Unfolding)

namespace Unfolding

mutual

def text : Unfolding → String
  | word s => s
  | dots => "[...]"
  | list items => "[" ++ ", ".intercalate (texts items) ++ "]"

def texts : List Unfolding → List String
  | [] => []
  | u :: us => u.text :: texts us

end

theorem texts_eq_map (us : List Unfolding) : texts us = us.map text := by
  induction us with
  | nil => rfl
  | cons u us ih => rw [texts, ih, List.map_cons]

/-- What is written at a path: each step goes to an item, by its place. -/
def at? : List Nat → Unfolding → Option Unfolding
  | [], u => some u
  | i :: path, list items => items[i]?.bind (at? path)
  | _ :: _, _ => none

end Unfolding

namespace Value

/-- How a value is written that has no items; texts inside lists are quoted. -/
def word? (h : Heap) (inner : Bool) : Value → Option String
  | number n => some n.display
  | text s => some (if inner then Text.quoted s else s)
  | list _ => none
  | function id => some ("<function " ++ functionName h id ++ ">")
  | builtin b => some ("<built-in function " ++ b.name ++ ">")
  | nothing => some "()"

/-- How a value is written inside the lists in `around`, of which the innermost is first. -/
inductive Unfolds (h : Heap) : List ListId → Bool → Value → Unfolding → Prop where
  | word {around : List ListId} {inner : Bool} {v : Value} {s : String}
      (hs : v.word? h inner = some s) : Unfolds h around inner v (.word s)
  | dots {around : List ListId} {inner : Bool} {id : ListId} (hid : id ∈ around) :
      Unfolds h around inner (.list id) .dots
  | list {around : List ListId} {inner : Bool} {id : ListId} {us : List Unfolding}
      (hid : id ∉ around) (hlength : us.length = (h.items id).size)
      (hitems : ∀ (i : Nat) (w : Value) (u : Unfolding), (h.items id)[i]? = some w →
        us[i]? = some u → Unfolds h (id :: around) true w u) :
      Unfolds h around inner (.list id) (.list us)

/-- What stands at a path in a value, and the lists that are passed on the way, the outermost
first. -/
inductive Occurs (h : Heap) : Value → List Nat → List ListId → Value → Prop where
  | here (v : Value) : Occurs h v [] [] v
  | item {id : ListId} {i : Nat} {v w : Value} {path : List Nat} {passed : List ListId}
      (hv : (h.items id)[i]? = some v) (hw : Occurs h v path passed w) :
      Occurs h (.list id) (i :: path) (id :: passed) w

variable {h : Heap} {around passed : List ListId} {inner : Bool} {v w : Value} {t u : Unfolding}
  {path : List Nat} {levels : Nat}

/-! ## Unfolding -/

/-- There is one way only to write a value. -/
theorem Unfolds.unique (ht : Unfolds h around inner v t) (hu : Unfolds h around inner v u) :
    t = u := by
  induction ht generalizing u with
  | word hs =>
    cases hu with
    | word hs' => rw [Option.some.inj (hs.symm.trans hs')]
    | dots => cases hs
    | list => cases hs
  | dots hid =>
    cases hu with
    | word hs => cases hs
    | dots => rfl
    | list hid' => exact absurd hid hid'
  | @list around inner id us hid hlength _ ih =>
    cases hu with
    | word hs => cases hs
    | dots hid' => exact absurd hid' hid
    | @list _ _ _ us' _ hlength' hitems' =>
      have hsame : us = us' := by
        apply List.ext_getElem (hlength.trans hlength'.symm)
        intro i hi hi'
        have hv : (h.items id)[i]? = some (h.items id)[i] := Array.getElem?_eq_getElem (by omega)
        exact ih i _ _ hv (List.getElem?_eq_getElem hi)
          (hitems' i _ _ hv (List.getElem?_eq_getElem hi'))
      rw [hsame]

/-- The lists around a value are different lists of the heap. -/
structure Nested (h : Heap) (around : List ListId) : Prop where
  nodup : around.Nodup
  there : ∀ id ∈ around, id < h.lists.size

theorem Nested.length_le (hn : Nested h around) : around.length ≤ h.lists.size :=
  Heap.Parallel.length_le_of_nodup hn.nodup hn.there

theorem Nested.cons {id : ListId} (hn : Nested h around) (hid : id ∉ around)
    (hv : v ∈ h.items id) : Nested h (id :: around) :=
  ⟨List.nodup_cons.mpr ⟨hid, hn.nodup⟩, List.forall_mem_cons.mpr ⟨lt_size_of_mem hv, hn.there⟩⟩

/-- With as many levels as there are lists that may still be opened, and one more, the levels do not
run out, and a value is written as it unfolds. -/
theorem unfolds_displayFor (hn : Nested h around)
    (hlevels : h.lists.size < around.length + levels) :
    ∃ u, Unfolds h around inner v u ∧ displayFor h levels around inner v = u.text := by
  induction levels generalizing around inner v with
  | zero =>
    have := hn.length_le
    omega
  | succ levels ih =>
    cases v with
    | list id =>
      by_cases hid : id ∈ around
      · exact ⟨.dots, .dots hid, by simp [displayFor, hid, Unfolding.text]⟩
      · have hitem : ∀ w ∈ h.items id, ∃ u, Unfolds h (id :: around) true w u ∧
            displayFor h levels (id :: around) true w = u.text := by
          intro w hw
          apply ih (hn.cons hid hw)
          simp only [List.length_cons]
          omega
        have : Nonempty Unfolding := ⟨.dots⟩
        choose! unfolded hunfolds htext using hitem
        refine ⟨.list ((h.items id).toList.map unfolded), .list hid (by simp) ?_, ?_⟩
        · intro i w u hw hu
          obtain rfl : unfolded w = u := by simpa [hw] using hu
          exact hunfolds w (Array.mem_of_getElem? hw)
        · have htexts : (h.items id).toList.map (displayFor h levels (id :: around) true) =
              ((h.items id).toList.map unfolded).map Unfolding.text := by
            rw [List.map_map]
            apply List.map_congr_left
            intro w hw
            exact htext w (Array.mem_toList_iff.mp hw)
          simp only [displayFor, List.contains_iff_mem, hid, if_false, Unfolding.text,
            Unfolding.texts_eq_map, htexts]
    | number n => exact ⟨_, .word rfl, by simp [displayFor, Unfolding.text]⟩
    | text s => exact ⟨_, .word rfl, by simp [displayFor, Unfolding.text]⟩
    | function id => exact ⟨_, .word rfl, by simp [displayFor, Unfolding.text]⟩
    | builtin b => exact ⟨_, .word rfl, by simp [displayFor, Unfolding.text]⟩
    | nothing => exact ⟨_, .word rfl, by simp [displayFor, Unfolding.text]⟩

/-! ## What is written where -/

/-- A path leads to the same place in a value and in what is written of it, until a list comes that
has been passed before. -/
theorem Unfolds.at? (hu : Unfolds h around inner v u) (ho : Occurs h v path passed w)
    (hpassed : passed.Nodup) (houter : ∀ id ∈ passed, id ∉ around) :
    ∃ inner' u', u.at? path = some u' ∧ Unfolds h (passed.reverse ++ around) inner' w u' := by
  induction ho generalizing around inner u with
  | here v => exact ⟨inner, u, rfl, hu⟩
  | @item id i v w path passed hv hw ih =>
    obtain ⟨hid, hpassed⟩ := List.nodup_cons.mp hpassed
    obtain ⟨hidOuter, houter⟩ := List.forall_mem_cons.mp houter
    cases hu with
    | word hs => cases hs
    | dots hid' => exact absurd hid' hidOuter
    | @list _ _ _ us _ hlength hitems =>
      obtain ⟨hi, -⟩ := Array.getElem?_eq_some_iff.mp hv
      have hus : us[i]? = some us[i] := List.getElem?_eq_getElem (by omega)
      have houter' : ∀ j ∈ passed, j ∉ id :: around := by
        intro j hj hmem
        rcases List.mem_cons.mp hmem with rfl | hmem
        · exact hid hj
        · exact houter j hj hmem
      obtain ⟨inner', u', hat, hunfolds⟩ := ih (hitems i v _ hv hus) hpassed houter'
      refine ⟨inner', u', ?_, ?_⟩
      · rw [Unfolding.at?, hus, Option.bind_some, hat]
      · simpa using hunfolds

/-- What is written at a path is written of the value at that path, and no list has been passed
twice on the way. -/
theorem Unfolds.of_at? (hu : Unfolds h around inner v u) (ht : u.at? path = some t) :
    ∃ w passed, Occurs h v path passed w ∧ passed.Nodup ∧ ∀ id ∈ passed, id ∉ around := by
  induction path generalizing around inner v u with
  | nil => exact ⟨v, [], .here v, List.nodup_nil, List.forall_mem_nil _⟩
  | cons i path ih =>
    cases hu with
    | word => cases ht
    | dots => cases ht
    | @list _ _ id us hid hlength hitems =>
      rw [Unfolding.at?, Option.bind_eq_some_iff] at ht
      obtain ⟨u, hus, ht⟩ := ht
      obtain ⟨hi, -⟩ := List.getElem?_eq_some_iff.mp hus
      have hv : (h.items id)[i]? = some (h.items id)[i] := Array.getElem?_eq_getElem (by omega)
      obtain ⟨w, passed, ho, hpassed, houter⟩ := ih (hitems i _ u hv hus) ht
      refine ⟨w, id :: passed, .item hv ho, List.nodup_cons.mpr ⟨fun hm => ?_, hpassed⟩,
        List.forall_mem_cons.mpr ⟨hid, fun j hj hm => ?_⟩⟩
      · exact houter id hm (List.mem_cons_self ..)
      · exact houter j hj (List.mem_cons_of_mem _ hm)

theorem Unfolds.dots_iff {id : ListId} (hu : Unfolds h around inner (.list id) u) :
    u = .dots ↔ id ∈ around := by
  cases hu with
  | word hs => cases hs
  | dots hid => exact iff_of_true rfl hid
  | list hid => exact iff_of_false nofun hid

theorem Unfolds.in_full {id : ListId} (hu : Unfolds h around inner (.list id) u)
    (hid : id ∉ around) : ∃ us, u = .list us ∧ us.length = (h.items id).size := by
  cases hu with
  | word hs => cases hs
  | dots hid' => exact absurd hid' hid
  | list _ hlength => exact ⟨_, rfl, hlength⟩

/-! ## Displaying -/

/-- Whatever the lists of a heap hold, displaying a value comes to its end and gives the text of
what the value unfolds to. Of what is written each part is written of the value at the same path,
which passes no list twice. At such a path a list is written as three dots if it is one of those
passed, and otherwise with all its items. Printing a value twice prints the same and changes
nothing. -/
theorem display_unfolds (h : Heap) (v : Value) :
    ∃ u, display h v = u.text ∧ (∀ t, Unfolds h [] false v t ↔ t = u) ∧
      (∀ path t, u.at? path = some t → ∃ w passed, Occurs h v path passed w ∧ passed.Nodup) ∧
      (∀ path passed id, Occurs h v path passed (.list id) → passed.Nodup →
        (u.at? path = some .dots ↔ id ∈ passed) ∧
        (id ∉ passed → ∃ us, u.at? path = some (.list us) ∧ us.length = (h.items id).size)) ∧
      ∀ b, b = .print ∨ b = .printRet →
        (Builtin.apply h b [v]).heap = h ∧
        Builtin.apply (Builtin.apply h b [v]).heap b [v] = Builtin.apply h b [v] := by
  have hstart : Nested h [] := ⟨List.nodup_nil, List.forall_mem_nil _⟩
  obtain ⟨u, hu, htext⟩ : ∃ u, Unfolds h [] false v u ∧
      displayFor h (h.lists.size + 1) [] false v = u.text :=
    unfolds_displayFor hstart (by simp)
  refine ⟨u, htext, fun t => ⟨fun ht => ht.unique hu, fun ht => ht ▸ hu⟩, fun path t ht => ?_,
    fun path passed id ho hpassed => ?_, fun b hb => ?_⟩
  · obtain ⟨w, passed, ho, hpassed, -⟩ := hu.of_at? ht
    exact ⟨w, passed, ho, hpassed⟩
  · obtain ⟨inner, u', hat, hunfolds⟩ := hu.at? ho hpassed (by simp)
    have hmem : id ∈ passed.reverse ++ [] ↔ id ∈ passed := by simp
    refine ⟨?_, fun hid => ?_⟩
    · rw [hat, Option.some.injEq, hunfolds.dots_iff, hmem]
    · obtain ⟨us, rfl, hlength⟩ := hunfolds.in_full (mt hmem.mp hid)
      exact ⟨us, hat, hlength⟩
  · rcases hb with rfl | rfl
    · exact ⟨rfl, rfl⟩
    · exact ⟨rfl, rfl⟩

/-- A list that holds itself, and one that holds it twice. -/
def sharing : Heap :=
  ⟨⟨#[some ⟨3, #[int 1, list 0]⟩, some ⟨1, #[list 0, list 0]⟩]⟩, .empty, .empty⟩

/-- The list that holds itself is written in full both times, and cut inside itself. -/
theorem display_unfolds_sharing :
    display sharing (.list 1) = "[[1, [...]], [1, [...]]]" ∧
      ∃ u, Unfolds sharing [] false (.list 1) u ∧ u.text = "[[1, [...]], [1, [...]]]" ∧
        u.at? [0, 1] = some .dots ∧ u.at? [1, 1] = some .dots ∧
        ∃ us, u.at? [1] = some (.list us) ∧ us.length = 2 := by
  have hshown : display sharing (.list 1) = "[[1, [...]], [1, [...]]]" := by decide +kernel
  obtain ⟨u, htext, hunique, -, hwritten, -⟩ := display_unfolds sharing (.list 1)
  have hinside (i : Nat) (hi : (sharing.items 1)[i]? = some (.list 0)) :
      Occurs sharing (.list 1) [i, 1] [1, 0] (.list 0) := .item hi (.item rfl (.here _))
  obtain ⟨-, hfull⟩ := hwritten [1] [1] 0 (.item rfl (.here _)) (by decide)
  exact ⟨hshown, u, (hunique u).mpr rfl, htext.symm.trans hshown,
    (hwritten [0, 1] [1, 0] 0 (hinside 0 rfl) (by decide)).1.mpr (by decide),
    (hwritten [1, 1] [1, 0] 0 (hinside 1 rfl) (by decide)).1.mpr (by decide),
    hfull (by decide)⟩

end Value

end Scriptlet

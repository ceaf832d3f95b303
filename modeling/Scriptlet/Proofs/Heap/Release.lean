import Scriptlet.Proofs.Heap.Balance

/-!
# Retaining and releasing

Retaining a thing that is there takes one reference more from outside into
account, and releasing references takes them out of account, together with
all that goes with them. What is still needed stays.
-/

set_option autoImplicit false

namespace Scriptlet.Heap

variable {h : Heap} {outer : List Ref}

/-- The balance carries over when the references held in the heap and the counts change alike. -/
theorem Balanced.of_count {h' : Heap} {outer' : List Ref} (hb : h.Balanced outer)
    (he : ∀ r, h'.refs r + outer.count r + h.inner.count r =
      h.refs r + outer'.count r + h'.inner.count r)
    (hu : ∀ r, h'.Live r → 0 < h'.refs r) : h'.Balanced outer' :=
  ⟨fun r => by have := hb.counted r; have := he r; omega, hu⟩

theorem retain_list? (h : Heap) (r : Ref) (id : ListId) : (h.retain r).list? id = h.list? id := by
  cases r <;> simp [retain, list?, Table.get?_retain]

theorem retain_function? (h : Heap) (r : Ref) (id : FunctionId) :
    (h.retain r).function? id = h.function? id := by
  cases r <;> simp [retain, function?, Table.get?_retain]

theorem retain_pin? (h : Heap) (r : Ref) (id : PinId) : (h.retain r).pin? id = h.pin? id := by
  cases r <;> simp [retain, pin?, Table.get?_retain]

theorem retain_live (h : Heap) (r t : Ref) : (h.retain r).Live t ↔ h.Live t := by
  cases t <;> simp [Live, retain_list?, retain_function?, retain_pin?]

theorem retain_shrinks (h : Heap) (r : Ref) : h.Shrinks (h.retain r) := by
  refine ⟨?_, ?_, ?_, fun id xs => ?_, fun id f => ?_, fun id p => ?_⟩
  · cases r <;> simp [retain, Table.size_retain]
  · cases r <;> simp [retain, Table.size_retain]
  · cases r <;> simp [retain, Table.size_retain]
  · simp [retain_list?]
  · simp [retain_function?]
  · simp [retain_pin?]

theorem retain_refs {r : Ref} (hr : h.Live r) (t : Ref) :
    (h.retain r).refs t = h.refs t + if t = r then 1 else 0 := by
  cases r <;> obtain ⟨x, hx⟩ := Option.isSome_iff_exists.mp hr <;> cases t <;>
    simp [retain, refs, Table.refs_retain hx]

/-- The things that are there decide what is held in a heap with nothing new. -/
theorem Shrinks.inner_eq {h' : Heap} (hs : h.Shrinks h') (hl : ∀ r, h.Live r → h'.Live r) :
    h'.inner = h.inner := by
  rw [inner, inner, hs.things_eq]
  apply List.flatMap_congr
  intro t _
  by_cases ht : h'.Live t
  · exact hs.links_eq ht
  · rw [links_of_gone ht, links_of_gone (mt (hl t) ht)]

theorem Balanced.retain (hb : h.Balanced outer) {r : Ref} (hr : h.Live r) :
    (h.retain r).Balanced (r :: outer) := by
  have hi : (h.retain r).inner = h.inner :=
    (retain_shrinks h r).inner_eq fun t => (retain_live h r t).mpr
  refine hb.of_count (fun t => ?_) fun t ht => ?_
  · rw [retain_refs hr, hi, List.count_cons]
    by_cases htr : t = r
    · subst htr
      simp
      omega
    · simp [htr, Ne.symm htr]
  · have := hb.used t ((retain_live h r t).mp ht)
    rw [retain_refs hr]
    omega

/-- One reference less to a thing that is there. -/
theorem unlink_spec {r : Ref} (hr : h.Live r) :
    (h.unlink r).1 = (if h.refs r ≤ 1 then h.links r else []) ∧
    h.Shrinks (h.unlink r).2 ∧
    (∀ t, (h.unlink r).2.Live t ↔ h.Live t ∧ ¬(t = r ∧ h.refs r ≤ 1)) ∧
    ∀ t, (h.unlink r).2.refs t = h.refs t - if t = r then 1 else 0 := by
  cases r <;> obtain ⟨x, hx⟩ := Option.isSome_iff_exists.mp hr
  case list id =>
    obtain ⟨hg, hz, hget, hrefs⟩ := Table.release_spec hx
    refine ⟨?_, ⟨hz, rfl, rfl, fun j xs => ?_, fun _ _ hf => hf, fun _ _ hp => hp⟩, fun t => ?_,
      fun t => ?_⟩
    · simp only [unlink, hg, refs, links, items, hx]
      split <;> rfl
    · simp only [unlink, list?, hget]
      split <;> simp
    · cases t <;> simp only [unlink, Live, list?, function?, pin?, hget, refs, Ref.list.injEq]
      · split <;> simp_all
      · simp
      · simp
    · cases t <;> simp [unlink, refs, hrefs]
  case function id =>
    obtain ⟨hg, hz, hget, hrefs⟩ := Table.release_spec hx
    refine ⟨?_, ⟨rfl, hz, rfl, fun _ _ hl => hl, fun j f => ?_, fun _ _ hp => hp⟩, fun t => ?_,
      fun t => ?_⟩
    · simp only [unlink, hg, refs, links, hx]
      split <;> rfl
    · simp only [unlink, function?, hget]
      split <;> simp
    · cases t <;> simp only [unlink, Live, list?, function?, pin?, hget, refs, Ref.function.injEq]
      · simp
      · split <;> simp_all
      · simp
    · cases t <;> simp [unlink, refs, hrefs]
  case pin id =>
    obtain ⟨hg, hz, hget, hrefs⟩ := Table.release_spec hx
    refine ⟨?_, ⟨rfl, rfl, hz, fun _ _ hl => hl, fun _ _ hf => hf, fun j p => ?_⟩, fun t => ?_,
      fun t => ?_⟩
    · simp only [unlink, hg, refs, links, hx]
      split <;> rfl
    · simp only [unlink, pin?, hget]
      split <;> simp
    · cases t <;> simp only [unlink, Live, list?, function?, pin?, hget, refs, Ref.pin.injEq]
      · simp
      · simp
      · split <;> simp_all
    · cases t <;> simp [unlink, refs, hrefs]

theorem unlink_of_gone {r : Ref} (hr : ¬ h.Live r) : h.unlink r = ([], h) := by
  have hnone {α : Type} {t : Table α} {id : Nat} (ht : ¬ (t.get? id).isSome) :
      t.release id = (none, t) := by
    simp [Table.release, Table.get?_eq_none.mp (by simpa using ht)]
  cases r <;> simp [unlink, hnone hr]

theorem unlink_shrinks (h : Heap) (r : Ref) : h.Shrinks (h.unlink r).2 := by
  by_cases hr : h.Live r
  · exact (unlink_spec hr).2.1
  · rw [unlink_of_gone hr]
    exact .refl h

/-- Only what goes leaves references behind. -/
theorem unlink_gone {r : Ref} (hg : (h.unlink r).1 ≠ []) :
    h.Live r ∧ ¬ (h.unlink r).2.Live r := by
  by_cases hr : h.Live r
  · obtain ⟨hleft, -, hl, -⟩ := unlink_spec hr
    by_cases hn : h.refs r ≤ 1
    · exact ⟨hr, fun hc => ((hl r).mp hc).2 ⟨rfl, hn⟩⟩
    · exact absurd (by simp [hleft, hn]) hg
  · exact absurd (by rw [unlink_of_gone hr]) hg

theorem unlink_count {r : Ref} (hr : h.Live r) (x : Ref) :
    ((h.unlink r).1).count x + (h.unlink r).2.inner.count x = h.inner.count x := by
  obtain ⟨hg, hs, hl, -⟩ := unlink_spec hr
  by_cases hn : h.refs r ≤ 1
  · have hc := count_flatMap_change (nodup_things h) (mem_things hr) (f := h.links)
      (g := (h.unlink r).2.links) (fun t _ htr => ?_) x
    · have hz : (h.unlink r).2.links r = [] := links_of_gone fun hc => ((hl r).mp hc).2 ⟨rfl, hn⟩
      rw [hz] at hc
      simp only [inner, hs.things_eq, hg, hn, if_true]
      simp at hc
      omega
    · by_cases ht : h.Live t
      · exact hs.links_eq ((hl t).mpr ⟨ht, fun hc => htr hc.1⟩)
      · rw [links_of_gone ht, links_of_gone (mt hs.live ht)]
  · rw [hs.inner_eq fun t ht => (hl t).mpr ⟨ht, fun hc => hn hc.2⟩]
    simp [hg, hn]

theorem Balanced.unlink {r : Ref} (hb : h.Balanced (r :: outer)) :
    (h.unlink r).2.Balanced ((h.unlink r).1 ++ outer) := by
  have hr : h.Live r := hb.live_of_outer (by simp)
  obtain ⟨-, hs, hl, hrefs⟩ := unlink_spec hr
  have hu := hb.used r hr
  refine hb.of_count (fun t => ?_) fun t ht => ?_
  · have hc := unlink_count hr t
    rw [hrefs, List.count_append, List.count_cons]
    by_cases htr : t = r
    · subst htr
      simp
      omega
    · simp [htr, Ne.symm htr]
      omega
  · obtain ⟨hlt, hn⟩ := (hl t).mp ht
    have := hb.used t hlt
    rw [hrefs]
    by_cases htr : t = r
    · subst htr
      simp at hn ⊢
      omega
    · simpa [htr] using this

theorem Balanced.unlinkAll {rs : List Ref} (hb : h.Balanced (rs ++ outer)) :
    (Heap.unlinkAll rs h).2.Balanced ((Heap.unlinkAll rs h).1 ++ outer) := by
  induction rs generalizing h outer with
  | nil => exact hb
  | cons r rs ih =>
    have hone : ((h.unlink r).2).Balanced (rs ++ ((h.unlink r).1 ++ outer)) :=
      hb.unlink.congr fun t => by simp; omega
    exact (ih hone).congr fun t => by simp [Heap.unlinkAll]; omega

theorem unlinkAll_shrinks (rs : List Ref) (h : Heap) : h.Shrinks (Heap.unlinkAll rs h).2 := by
  induction rs generalizing h with
  | nil => exact Shrinks.refl h
  | cons r rs ih => exact (unlink_shrinks h r).trans (ih _)

theorem unlinkAll_gone {rs : List Ref} (hg : (Heap.unlinkAll rs h).1 ≠ []) :
    ∃ t, h.Live t ∧ ¬ (Heap.unlinkAll rs h).2.Live t := by
  induction rs generalizing h with
  | nil => simp [Heap.unlinkAll] at hg
  | cons r rs ih =>
    by_cases hleft : (h.unlink r).1 = []
    · have hmore : (Heap.unlinkAll rs (h.unlink r).2).1 ≠ [] := by
        simpa [Heap.unlinkAll, hleft] using hg
      obtain ⟨t, ht, htn⟩ := ih hmore
      exact ⟨t, (unlink_shrinks h r).live ht, htn⟩
    · obtain ⟨hr, hn⟩ := unlink_gone hleft
      exact ⟨r, hr, fun hc => hn ((unlinkAll_shrinks rs _).live hc)⟩

instance (h : Heap) : DecidablePred h.Live
  | .list id => inferInstanceAs (Decidable ((h.list? id).isSome = true))
  | .function id => inferInstanceAs (Decidable ((h.function? id).isSome = true))
  | .pin id => inferInstanceAs (Decidable ((h.pin? id).isSome = true))

/-- How many things are there. -/
def population (h : Heap) : Nat := (h.things.toFinset.filter h.Live).card

theorem population_le_size (h : Heap) : h.population ≤ h.size := by
  refine (Finset.card_filter_le _ _).trans ((List.toFinset_card_le _).trans ?_)
  simp [things, size]
  omega

theorem Shrinks.population_lt {h' : Heap} (hs : h.Shrinks h') {t : Ref} (ht : h.Live t)
    (hn : ¬ h'.Live t) : h'.population < h.population := by
  apply Finset.card_lt_card
  rw [Finset.ssubset_iff_of_subset]
  · exact ⟨t, by simp [ht, mem_things ht], by simp [hn]⟩
  · intro r hr
    have hl : h'.Live r := (Finset.mem_filter.mp hr).2
    simp [hs.live hl, mem_things (hs.live hl)]

theorem releaseFor_nil (rounds : Nat) (h : Heap) : Heap.releaseFor rounds [] h = h := by
  cases rounds <;> rfl

theorem releaseFor_cons (rounds : Nat) (r : Ref) (rs : List Ref) (h : Heap) :
    Heap.releaseFor (rounds + 1) (r :: rs) h =
      Heap.releaseFor rounds (Heap.unlinkAll (r :: rs) h).1 (Heap.unlinkAll (r :: rs) h).2 := rfl

/-- As many rounds as there are things are enough for all references to be given back. -/
theorem Balanced.releaseFor {rounds : Nat} {rs : List Ref} (hb : h.Balanced (rs ++ outer))
    (hr : h.population ≤ rounds) :
    (Heap.releaseFor rounds rs h).Balanced outer ∧ h.Shrinks (Heap.releaseFor rounds rs h) := by
  induction rounds generalizing h rs with
  | zero =>
    cases rs with
    | nil => exact ⟨hb, Shrinks.refl h⟩
    | cons r rs =>
      have hl : h.Live r := hb.live_of_outer (by simp)
      have : 0 < h.population := Finset.card_pos.mpr ⟨r, by simp [hl, mem_things hl]⟩
      omega
  | succ rounds ih =>
    cases rs with
    | nil => exact ⟨hb, Shrinks.refl h⟩
    | cons r rs =>
      have hs := unlinkAll_shrinks (r :: rs) h
      rw [releaseFor_cons]
      by_cases hg : (Heap.unlinkAll (r :: rs) h).1 = []
      · have hb' := hb.unlinkAll
        rw [hg] at hb' ⊢
        rw [releaseFor_nil]
        exact ⟨hb', hs⟩
      · obtain ⟨t, ht, hn⟩ := unlinkAll_gone hg
        have hlt := hs.population_lt ht hn
        obtain ⟨hb', hs'⟩ := ih hb.unlinkAll (by omega)
        exact ⟨hb', hs.trans hs'⟩

theorem Balanced.release {rs : List Ref} (hb : h.Balanced (rs ++ outer)) :
    (h.release rs).Balanced outer :=
  (hb.releaseFor (h.population_le_size.trans (Nat.le_succ _))).1

theorem Balanced.release_shrinks {rs : List Ref} (hb : h.Balanced (rs ++ outer)) :
    h.Shrinks (h.release rs) :=
  (hb.releaseFor (h.population_le_size.trans (Nat.le_succ _))).2

/-- Things that are there, each held from outside or by another of them. -/
def Supported (h : Heap) (outer : List Ref) (K : Ref → Prop) : Prop :=
  ∀ r, K r → h.Live r ∧ (r ∈ outer ∨ ∃ t, K t ∧ r ∈ h.links t)

theorem Supported.unlink {K : Ref → Prop} {r : Ref} {more : List Ref}
    (hb : h.Balanced (r :: (more ++ outer))) (hk : h.Supported outer K) :
    (h.unlink r).2.Supported outer K := by
  have hr : h.Live r := hb.live_of_outer (by simp)
  obtain ⟨-, hs, hl, -⟩ := unlink_spec hr
  -- The last reference to `r` is the one given back, so nothing else can hold `r`.
  have hstay (t : Ref) (ht : K t) : (h.unlink r).2.Live t := by
    refine (hl t).mpr ⟨(hk t ht).1, ?_⟩
    rintro ⟨rfl, hn⟩
    have hc := hb.counted t
    simp only [List.count_cons_self, List.count_append] at hc
    rcases (hk t ht).2 with ho | ⟨u, hu, hut⟩
    · have := List.count_pos_iff.mpr ho
      omega
    · have := List.count_pos_iff.mpr (mem_inner.mpr ⟨u, (hk u hu).1, hut⟩)
      omega
  intro t ht
  refine ⟨hstay t ht, (hk t ht).2.imp_right ?_⟩
  rintro ⟨u, hu, hut⟩
  exact ⟨u, hu, by rwa [hs.links_eq (hstay u hu)]⟩

theorem Supported.unlinkAll {K : Ref → Prop} {rs more : List Ref}
    (hb : h.Balanced (rs ++ (more ++ outer))) (hk : h.Supported outer K) :
    (Heap.unlinkAll rs h).2.Supported outer K := by
  induction rs generalizing h more with
  | nil => exact hk
  | cons r rs ih =>
    have hone : ((h.unlink r).2).Balanced (rs ++ (((h.unlink r).1 ++ more) ++ outer)) :=
      hb.unlink.congr fun t => by simp; omega
    have hb' : h.Balanced (r :: ((rs ++ more) ++ outer)) := hb.congr fun t => by simp
    exact ih hone (hk.unlink hb')

/-- Releasing takes nothing that is held otherwise. -/
theorem Supported.release {K : Ref → Prop} {rs : List Ref} (hb : h.Balanced (rs ++ outer))
    (hk : h.Supported outer K) : (h.release rs).Supported outer K := by
  suffices hf : ∀ rounds, (Heap.releaseFor rounds rs h).Supported outer K from hf _
  intro rounds
  induction rounds generalizing h rs with
  | zero => cases rs <;> exact hk
  | succ rounds ih =>
    cases rs with
    | nil => exact hk
    | cons r rs =>
      rw [releaseFor_cons]
      have hnone : h.Balanced ((r :: rs) ++ ([] ++ outer)) := hb
      exact ih hb.unlinkAll (hk.unlinkAll hnone)

end Scriptlet.Heap

import Scriptlet.Proofs.Host.Anchors
import Scriptlet.Proofs.Machine.Indexing

/-!
# All ways to an item agree

Indexing, division, subtraction and the built-in function that takes an item
out fail with the same indices, and reach the same item with all others. They
differ in what is there afterwards: nothing new, a list without the item, or
the list itself without it, which all who refer to it find so.
-/

set_option autoImplicit false

namespace Scriptlet.Host

open Machine

variable {settings : Settings} {h : Host} {m e e' : Machine} {way : Access}
  {callee target place : Node} {scope : ScopeId} {span : Span} {id : ListId} {i : Int64} {k : Nat}

/-- Where one state has come from another: all that the run and its host, the scopes and the lists
refer to is there. The lists are as told, and nothing else has changed. -/
structure Remains (h : Host) (lists : ListId → Option (Array Value)) (e e' : Machine) : Prop where
  active : e'.active = e.active
  depth : e'.depth = e.depth
  printed : e'.printed = e.printed
  scopes : e'.store = { e.store with heap := e'.store.heap }
  list : ∀ j, e'.store.Somewhere (e'.held ++ h.held) (.list j) →
    ∃ xs, e'.store.heap.list? j = some xs ∧ lists j = some xs
  function : ∀ f, e'.store.Somewhere (e'.held ++ h.held) (.function f) →
    ∃ fn, e'.store.heap.function? f = some fn ∧ e.store.heap.function? f = some fn

theorem sound_held (hs : e.Sound settings.reclaim h.held) :
    e.store.Sound (Value.refs (e.held ++ h.held)) :=
  hs.ready.sound.congr fun r => by simp [Machine.held]

/-- What has been let go of is what nothing refers to. -/
theorem remains_of_dropAll {lists : ListId → Option (Array Value)} {control : Control}
    {below : List Frame} {before : Heap} {vs : List Value}
    (he : e' = { e with
      control := control
      stack := below
      store := { e.store with heap := before.dropAll vs } })
    (hs : e'.Sound settings.reclaim h.held)
    (hlist : ∀ j xs, before.list? j = some xs → lists j = some xs)
    (hfunction : ∀ f fn, before.function? f = some fn → e.store.heap.function? f = some fn) :
    h.Remains lists e e' := by
  have hshrinks : before.Shrinks e'.store.heap := he ▸ before.shrinks_dropAll vs
  refine ⟨he ▸ rfl, he ▸ rfl, he ▸ rfl, he ▸ rfl, fun j hj => ?_, fun f hf => ?_⟩
  · have hlive := (sound_held hs).live_somewhere hj (.list j) rfl
    obtain ⟨xs, hxs⟩ := Option.isSome_iff_exists.mp hlive
    exact ⟨xs, hxs, hlist j xs (hshrinks.list j xs hxs)⟩
  · have hlive := (sound_held hs).live_somewhere hf (.function f) rfl
    obtain ⟨fn, hfn⟩ := Option.isSome_iff_exists.mp hlive
    exact ⟨fn, hfn, hfunction f fn (hshrinks.function f fn hfn)⟩

/-- The list is there while the access waits. -/
theorem list_of_frame (hs : e.Sound settings.reclaim h.held) {below : List Frame}
    (hstack : e.stack = way.frame id place scope span :: below) :
    e.store.heap.list? id = some (e.store.heap.items id) := by
  have hframe : Value.list id ∈ (way.frame id place scope span).held := by
    cases way <;> simp [Access.frame, Frame.held]
  have hheld : Value.list id ∈ e.held ++ h.held := by
    simp [Machine.held, hstack, hframe]
  have hlive := (sound_held hs).live_somewhere (.inl hheld) (.list id) rfl
  obtain ⟨xs, hxs⟩ := Option.isSome_iff_exists.mp hlive
  have hxs' : e.store.heap.list? id = some xs := hxs
  simp [Heap.items, hxs']

theorem access_takes (hs : e.Sound settings.reclaim h.held)
    (hparts : way.Parts settings callee target place span scope m (.list id) (.int i) e)
    (hk : Addresses i (e.store.heap.items id).size k) :
    Gives settings (way.node callee target place span) scope m
        (way.result e.store.heap (Operator.itemAt (e.store.heap.items id) k)) (step settings e) ∧
      h.Remains (way.lists e.store.heap id k) e (step settings e) := by
  obtain ⟨hcontrol, hstack⟩ := hparts.ends
  have hstep : step settings e = _ := Access.step_takes hcontrol hstack hk
  refine ⟨⟨hparts.reaches ?_, ?_⟩, ?_⟩
  · rw [hstep]
    exact .of_flow rfl rfl
  · rw [hstep]
  · exact remains_of_dropAll hstep hs.step (fun j xs => Access.lists_of_heap)
      fun f fn => Access.function_of_heap

theorem access_fails (hs : e.Sound settings.reclaim h.held)
    (hparts : way.Parts settings callee target place span scope m (.list id) (.int i) e)
    (hi : ¬ InRange i (e.store.heap.items id).size) :
    Fails settings (way.node callee target place span) scope m
        (.indexOutOfRange i (e.store.heap.items id).size) span (step settings e) ∧
      h.Remains e.store.heap.list? e (step settings e) := by
  obtain ⟨hcontrol, hstack⟩ := hparts.ends
  have hstep : step settings e = _ := Access.step_fails hcontrol hstack hi
  refine ⟨⟨hparts.reaches ?_, ?_⟩, ?_⟩
  · rw [hstep]
    exact .of_failed rfl rfl
  · rw [hstep]
    rfl
  · exact remains_of_dropAll hstep hs.step (fun _ _ hx => hx) fun _ _ hf => hf

/-- A node that gives a value does not fail. -/
theorem not_fails_of_gives {node : Node} {v : Value} {fault : Fault} {place : Span}
    (hgives : Gives settings node scope m v e) :
    ¬ Fails settings node scope m fault place e' := by
  intro hfails
  obtain rfl := hgives.reaches.unique hfails.reaches
  cases hgives.value.symm.trans hfails.failed

/-- Every way to an item of a list works with the indices in range, and with these it reaches the
item at the place that the index means. Indexing and division only give it. Subtraction gives a new
list with the others. What is taken out is given, and all who refer to the list find it with the
others. With any other index they fail alike and nothing changes. A text is indexed in the same way
by the length that is told of it, and gives its characters. -/
theorem indices_agree (settings : Settings) :
    (∀ {h : Host} {m e : Machine} {way : Access} {callee target place : Node} {span : Span}
      {scope : ScopeId} {id : ListId} {i : Int64}, h.Passes settings e →
      way.Parts settings callee target place span scope m (.list id) (.int i) e →
      let node := way.node callee target place span
      let heap := e.store.heap
      let xs := heap.items id
      heap.list? id = some xs ∧ heap.list? heap.lists.size = none ∧
        ((∃ v e', Gives settings node scope m v e') ↔ InRange i xs.size) ∧
        (InRange i xs.size → ∃ k x e', Addresses i xs.size k ∧ xs[k]? = some x ∧
          Gives settings node scope m (way.result heap x) e' ∧
          h.Remains (way.lists heap id k) e e') ∧
        (¬ InRange i xs.size → ∃ e',
          Fails settings node scope m (.indexOutOfRange i xs.size) span e' ∧
          h.Remains heap.list? e e')) ∧
    ∀ s : String, (characters s).length = s.length ∧ (∀ p ∈ characters s, p.length = 1) ∧
      String.join (characters s) = s ∧
      (∀ {m e : Machine} {callee arg : Node} {span : Span} {scope : ScopeId},
        Calls settings callee [arg] span scope m (.builtin .len) [.text s] e →
        ∃ len e', Gives settings (.mk (.call callee [arg]) span) scope m (.int len) e' ∧
          (s.length < 2 ^ 63 → len.toInt = s.length)) ∧
      ∀ {m e : Machine} {target place : Node} {span : Span} {scope : ScopeId} {i : Int64},
        Indexes settings target place span scope m (.text s) (.int i) e →
        let node : Node := .mk (.index target place) span
        ((∃ v e', Gives settings node scope m v e') ↔ InRange i s.length) ∧
          (InRange i s.length → ∃ k p e', Addresses i s.length k ∧ (characters s)[k]? = some p ∧
            Gives settings node scope m (.text p) e') ∧
          (¬ InRange i s.length → ∃ e',
            Fails settings node scope m (.indexOutOfRange i s.length) span e') := by
  refine ⟨fun {h m e way callee target place span scope id i} hm hparts => ?_, fun s =>
    ⟨length_characters s, fun p hp => length_of_mem_characters hp, join_characters s,
      fun hlen => hlen.gives_length, fun {m e target place span scope i} hparts => ?_⟩⟩
  · intro node heap xs
    have htakes : InRange i xs.size → ∃ k x e', Addresses i xs.size k ∧ xs[k]? = some x ∧
        Gives settings node scope m (way.result heap x) e' ∧
        h.Remains (way.lists heap id k) e e' := by
      intro hi
      obtain ⟨k, hk⟩ := inRange_iff.mp hi
      obtain ⟨hgives, hremains⟩ := access_takes hm.sound hparts hk
      exact ⟨k, _, _, hk, itemAt_of_lt hk.lt, hgives, hremains⟩
    have hfails (hi : ¬ InRange i xs.size) := access_fails hm.sound hparts hi
    refine ⟨list_of_frame hm.sound hparts.ends.2, Table.get?_size _, ⟨?_, fun hi => ?_⟩, htakes,
      fun hi => ⟨_, hfails hi⟩⟩
    · rintro ⟨v, e', hgives⟩
      by_contra hi
      exact not_fails_of_gives hgives (hfails hi).1
    · obtain ⟨k, x, e', -, -, hgives, -⟩ := htakes hi
      exact ⟨_, e', hgives⟩
  · intro node
    have hfails (hi : ¬ InRange i s.length) := hparts.fails_character hi
    refine ⟨⟨?_, fun hi => ?_⟩, hparts.gives_character, hfails⟩
    · rintro ⟨v, e', hgives⟩
      by_contra hi
      obtain ⟨_, hfailed⟩ := hfails hi
      exact not_fails_of_gives hgives hfailed
    · obtain ⟨k, p, e', -, -, hgives⟩ := hparts.gives_character hi
      exact ⟨_, e', hgives⟩

/-- The call that takes the last item out of a list. -/
def takeLast : Node :=
  .mk (.call (.mk (.var "POP") default) [.mk (.var "a") default, .mk (.int (-1)) default]) default

/-- A list of two items has two names, and an item is taken out by one of them. -/
def twoNames : Program :=
  let at0 : Expr → Node := fun e => .mk e default
  let pair : Node := at0 (.binary .add (at0 (.list [at0 (.int 5)])) (at0 (.int 6)))
  ⟨[at0 (.assign "a" pair false), at0 (.assign "b" (at0 (.var "a")) false), takeLast], default⟩

set_option maxRecDepth 4000 in
theorem twoNames_parts : ∃ m e, (Host.start true ⟨1000, true⟩).Passes ⟨1000, true⟩ e ∧
    Access.pop.Parts ⟨1000, true⟩ (.mk (.var "POP") default) (.mk (.var "a") default)
      (.mk (.int (-1)) default) default Store.global m (.list 1) (.int (-1)) e ∧
    e.store.get? Store.global "b" = some (.list 1) ∧
    e.store.heap.items 1 = #[.int 5, .int 6] := by
  refine ⟨steps ⟨1000, true⟩ 15 (.ofProgram .seeded default twoNames),
    steps ⟨1000, true⟩ 21 (.ofProgram .seeded default twoNames),
    ⟨.start true, .execute default twoNames, _, 21, rfl, rfl⟩, ?_, rfl, rfl⟩
  exact ⟨_, gives_var rfl, _, _, gives_var rfl, _, _, gives_int (-1), rfl, rfl⟩

/-- By its other name the list has the first of its two items, and a text of two characters has no
third from the end. -/
theorem indices_agree_twoNames :
    let host := Host.start true ⟨1000, true⟩
    let text : Node := .mk (.text "né") default
    ∃ m e e', host.Passes ⟨1000, true⟩ e ∧
      e.store.get? Store.global "b" = some (.list 1) ∧
      Gives ⟨1000, true⟩ takeLast Store.global m (.int 6) e' ∧
      host.Remains (Access.pop.lists e.store.heap 1 1) e e' ∧
      Access.pop.lists e.store.heap 1 1 1 = some #[.int 5] ∧
      ∃ d, Fails ⟨1000, true⟩ (.mk (.index text (.mk (.int (-3)) default)) default) Store.global m
        (.indexOutOfRange (-3) 2) default d := by
  intro host text
  obtain ⟨m, e, hm, hparts, hb, hitems⟩ := twoNames_parts
  obtain ⟨hlists, htexts⟩ := indices_agree ⟨1000, true⟩
  obtain ⟨-, -, -, htakes, -⟩ := hlists hm hparts
  rw [hitems] at htakes
  obtain ⟨k, x, e', hk, hx, hgives, hremains⟩ := htakes (by decide)
  obtain rfl : k = 1 := by
    have hplace : (k : Int) = 1 := hk.place
    omega
  obtain rfl : .int 6 = x := Option.some.inj hx
  obtain ⟨d, hindexes⟩ : ∃ d, Indexes ⟨1000, true⟩ text (.mk (.int (-3)) default) default
      Store.global m (.text "né") (.int (-3)) d := ⟨_, _, gives_at_once rfl, gives_int (-3)⟩
  obtain ⟨-, -, -, -, hindex⟩ := htexts "né"
  obtain ⟨-, -, hfails⟩ := hindex hindexes
  refine ⟨m, e, e', hm, hb, hgives, hremains, ?_, hfails (by decide)⟩
  simp [Access.lists, hitems]

end Scriptlet.Host

import Scriptlet.Proofs.Compact.Reading
import Scriptlet.Proofs.Compact.Names

/-!
# Which nodes have one compact form

Two nodes of programs have one compact form just when they have one shape.
Where nothing is written like something else, that is when the nodes are the
same but for their spans.
-/

set_option autoImplicit false

namespace Scriptlet

theorem Node.compact_eq_iff_shape {m n : Node} (hm : m.Named) (hn : n.Named) :
    m.compact = n.compact ↔ m.shape = n.shape := by
  constructor
  · intro h
    have hspelling : m.sexp.spelling = n.sexp.spelling := by
      rw [← m.spelled, ← n.spelled, h]
    have hsexp : m.sexp = n.sexp :=
      Sexp.spelling_injective (m.sexp_proper hm) (n.sexp_proper hn) hspelling
    rw [← m.node_sexp, ← n.node_sexp, hsexp]
  · intro h
    have hsexp : m.sexp = n.sexp := by rw [← m.shape_sexp, ← n.shape_sexp, h]
    exact String.toList_inj.mp (by rw [m.spelled, n.spelled, hsexp])

/-! ## What is written like something else -/

/-- Whether an expression is written like a different one that has the same parts. -/
def Expr.Ambiguous : Expr → Prop
  | .float x => ∀ negative mantissa exponent,
      Decimal.Binary.ofFloat x ≠ .finite negative mantissa exponent
  | .function name _ _ => name = some "_"
  | .ifElse branches none => ∃ b ∈ branches.getLast?, b.1.expr = .var "else"
  | _ => False

/-- No part of the node is written like something else. -/
def Node.Distinct (n : Node) : Prop := ∀ m : Node, m.PartOf n → ¬m.expr.Ambiguous

theorem Node.distinct_mk {e : Expr} {span : Span} :
    (Node.mk e span).Distinct ↔ ¬e.Ambiguous ∧ ∀ n ∈ e.children, n.Distinct := by
  constructor
  · exact fun h => ⟨h _ (.self _), fun n hn m hm => h m (.child hn hm)⟩
  · rintro ⟨he, hchildren⟩ m hm
    cases hm with
    | self => exact he
    | child hn hm => exact hchildren _ hn m hm

/-- The expression that is written in the same way, with no name instead of `_` and an `ELSE`
instead of a last test of a variable `else`. -/
def Expr.widen : Expr → Expr
  | .function name params body => .function (name.filter (· ≠ "_")) params body
  | .ifElse branches otherwise =>
    match branches.getLast? with
    | some (.mk (.var "else") _, body) => .ifElse branches.dropLast (some body)
    | _ => .ifElse branches otherwise
  | e => e

theorem Expr.widen_else (branches : List (Node × Node)) (body : Node) :
    (Expr.ifElse (branches ++ [(elseTest, body)]) none).widen = .ifElse branches (some body) := by
  simp [Expr.widen, elseTest]

theorem Expr.widen_ifElse {branches : List (Node × Node)} {otherwise : Option Node}
    (h : ∀ b ∈ branches.getLast?, b.1.expr ≠ .var "else") :
    (Expr.ifElse branches otherwise).widen = .ifElse branches otherwise := by
  dsimp only [Expr.widen]
  split
  · rename_i hlast
    exact absurd rfl (h _ hlast)
  · rfl

theorem Expr.narrow_float {x : Float} (h : ¬(Expr.float x).Ambiguous) :
    (Expr.float x).narrow = .float x := by
  change (Atom.ofFloat x).expr = _
  cases hx : Decimal.Binary.ofFloat x with
  | finite => rw [Atom.ofFloat, hx, Atom.expr]
  | _ => exact absurd (fun _ _ _ => by simp [hx]) h

theorem Expr.bare_eq_var {e : Expr} {name : String} : e.bare = .var name ↔ e = .var name := by
  cases e <;> simp [Expr.bare]

/-! ## From the shape to the bare form -/

/-- The shape of a node without ambiguous parts is its bare form, written in another way. -/
theorem Node.shape_widen : ∀ n : Node, n.Distinct → n.shape.rebuild .widen = n.bare := by
  apply Node.induction
  intro e span ih hd
  obtain ⟨he, hchildren⟩ := Node.distinct_mk.mp hd
  have ih (n : Node) (hn : n ∈ e.children) : n.shape.rebuild .widen = n.bare :=
    ih n hn (hchildren n hn)
  have hparts : (e.rebuild .narrow).rebuild .widen = e.bare := by
    rw [Expr.rebuild_eq_mapNodes, Expr.rebuild_eq_mapNodes, Expr.bare_eq_mapNodes]
    exact Expr.mapNodes_mapNodes ih
  rw [Node.shape_mk, Node.rebuild, Node.bare_mk]
  suffices h : ((e.rebuild .narrow).narrow.rebuild .widen).widen = e.bare by rw [h]
  -- Only three kinds of expressions are changed on the way.
  cases e with
  | float x =>
    rw [Expr.rebuild, Expr.narrow_float he, Expr.rebuild, Expr.bare]
    rfl
  | ifElse branches otherwise =>
    rw [Expr.rebuild, Expr.rebuild, Expr.bare, Expr.ifElse.injEq] at hparts
    obtain ⟨hbranches, hotherwise⟩ := hparts
    rw [Expr.rebuild, Expr.narrow, Expr.rebuild, rebuildBranches_append, hbranches, Expr.bare,
      ← hotherwise]
    cases otherwise with
    | none =>
      rw [rebuildOption, Option.toList, List.map_nil, rebuildBranches, List.append_nil]
      refine Expr.widen_ifElse fun b hb hvar => he ?_
      rw [bareBranches_eq_map, List.getLast?_map, Option.mem_map] at hb
      obtain ⟨⟨⟨e, span⟩, body⟩, hb, rfl⟩ := hb
      exact ⟨_, hb, Expr.bare_eq_var.mp (by simpa [Node.expr] using hvar)⟩
    | some body => exact Expr.widen_else ..
  | function name params body =>
    have hname : (some (name.getD "_")).filter (· ≠ "_") = name := by
      cases name with
      | none => rfl
      | some x =>
        have hx : x ≠ "_" := fun h => he (congrArg some h)
        simp [hx]
    rw [← hparts]
    exact congrArg (Expr.function · _ _) hname
  | _ => exact hparts

theorem Node.compact_eq_of_bare {m n : Node} (hm : m.Named) (hn : n.Named)
    (h : m.bare = n.bare) : m.compact = n.compact := by
  rw [Node.compact_eq_iff_shape hm hn, Node.shape, ← m.rebuild_bare, ← n.rebuild_bare, h]

theorem Node.bare_eq_of_compact {m n : Node} (hm : m.Named) (hn : n.Named) (hdm : m.Distinct)
    (hdn : n.Distinct) (h : m.compact = n.compact) : m.bare = n.bare := by
  have hshape : m.shape = n.shape := (Node.compact_eq_iff_shape hm hn).mp h
  rw [← m.shape_widen hdm, ← n.shape_widen hdn, hshape]

namespace Source

/-- Nodes of programs have one compact form just when they have one shape. They have one if they
are the same but for their spans, and only then if nothing in them is written like something
else. -/
theorem compact_eq_iff {s s' : Source} {p p' : Program} (h : s.program = .ok p)
    (h' : s'.program = .ok p') {m m' n n' : Node} (hm : m ∈ p.statements) (hn : n.PartOf m)
    (hm' : m' ∈ p'.statements) (hn' : n'.PartOf m') :
    (n.compact = n'.compact ↔ n.shape = n'.shape) ∧
      (n.bare = n'.bare → n.compact = n'.compact) ∧
      (n.Distinct → n'.Distinct → n.compact = n'.compact → n.bare = n'.bare) := by
  have hnamed : n.Named := program_named h hm hn
  have hnamed' : n'.Named := program_named h' hm' hn'
  exact ⟨Node.compact_eq_iff_shape hnamed hnamed', Node.compact_eq_of_bare hnamed hnamed',
    Node.bare_eq_of_compact hnamed hnamed'⟩

/-- The same `IF` with its separators on one line. -/
def oneLine : Source := ⟨"main", "IF a THEN;b^c;END"⟩

def oneLineTree : Node :=
  .mk (.ifElse [(.mk (.var "a") ⟨⟨3, 0, 3⟩, ⟨4, 0, 4⟩⟩,
    .mk (.block [.mk (.binary .pow (.mk (.var "b") ⟨⟨10, 0, 10⟩, ⟨11, 0, 11⟩⟩)
      (.mk (.var "c") ⟨⟨12, 0, 12⟩, ⟨13, 0, 13⟩⟩)) ⟨⟨10, 0, 10⟩, ⟨13, 0, 13⟩⟩])
      ⟨⟨10, 0, 10⟩, ⟨13, 0, 13⟩⟩)] none) ⟨⟨0, 0, 0⟩, ⟨17, 0, 17⟩⟩

theorem oneLine_program :
    oneLine.program = .ok ⟨[oneLineTree], ⟨⟨0, 0, 0⟩, ⟨17, 0, 17⟩⟩⟩ := by
  cbv

theorem compact_eq_iff_oneLine : branchingTree.Distinct ∧ oneLineTree.Distinct ∧
    branchingTree.compact = oneLineTree.compact ∧ branchingTree.bare = oneLineTree.bare := by
  have hd : branchingTree.Distinct := by
    simp [branchingTree, branchingBlock, Node.distinct_mk, Expr.children, Expr.Ambiguous, Node.expr]
  have hd' : oneLineTree.Distinct := by
    simp [oneLineTree, Node.distinct_mk, Expr.children, Expr.Ambiguous, Node.expr]
  have hcompact : branchingTree.compact = oneLineTree.compact := by cbv
  obtain ⟨-, -, hbare⟩ := compact_eq_iff branching_program oneLine_program
    (List.mem_cons_self ..) (.self _) (List.mem_cons_self ..) (.self _)
  exact ⟨hd, hd', hcompact, hbare hd hd' hcompact⟩

/-- A function without a name has the compact form of one that is named `_`. -/
theorem compact_eq_unnamed : ∃ p p' n n', Source.program ⟨"main", "FUN () -> 1"⟩ = .ok p ∧
    Source.program ⟨"main", "FUN _() -> 1"⟩ = .ok p' ∧ n ∈ p.statements ∧ n' ∈ p'.statements ∧
    n.compact = n'.compact ∧ n.bare ≠ n'.bare := by
  refine ⟨_, _, _, _, by cbv, by cbv, List.mem_cons_self .., List.mem_cons_self .., by cbv, ?_⟩
  simp [Expr.bare]

end Source

end Scriptlet

import Scriptlet.Proofs.Grammar.Accepts.Operators

/-!
# Whatever is a phrase is read as it

Where tokens are read as a phrase, the readers accept all tokens of the same
kinds and give the same but for spans. As many levels of nesting are enough as
there are tokens.
-/

set_option autoImplicit false

namespace Scriptlet

open Token (Kind)

namespace Grammar

open Reader

/-- How many levels of nesting are enough for a phrase: one for each token, and one more for what
reads its nodes as something nested. -/
def Phrase.levels : Phrase → List Token → Nat
  | .node .., ts | .operands .., ts | .applied .., ts => ts.length
  | _, ts => ts.length + 1

/-- What the readers accept as a phrase. What leaves operands or arguments open is read together
with what comes after them. -/
def Read (d : Nat) : Phrase → List Kind → Kind → Prop
  | .node level n, ks, k => Accepts (level.reader (reader d)) (Like n) ks k
  | .operands ch n, ks, k => ∀ (P : Node → Prop) (ls : List Kind) (k' : Kind), k = ahead ls k' →
    (∀ m b, Like n m → ls.length ≤ b →
      Accepts (chainAfter ch.op? (ch.operand.reader (reader d)) b m) P ls k') →
    Accepts (chain ch.op? (ch.operand.reader (reader d))) P (ks ++ ls) k'
  | .applied _ n, ks, k => ∀ (P : Node → Prop) (ls : List Kind) (k' : Kind), k = ahead ls k' →
    (∀ start m b, Like n m → ls.length ≤ b →
      Accepts (trailersAfter (reader d) start b m) P ls k') →
    Accepts (application (reader d)) P (ks ++ ls) k'
  | .items ns, ks, k => ∀ m, k = .mark m → startsExpression k = false →
    Accepts (itemsBefore m (reader d .expression)) (LikeAll ns) ks k
  | .further ns, ks, k => ∀ b, ks.length ≤ b →
    Accepts (itemsAfter (reader d .expression) b) (LikeAll ns) ks k
  | .lines close ns, ks, k => (∀ w ∈ close, Level.statement.starts (.keyword w) = false) →
    ∀ b, ks.length < b → Accepts (statementsUntil (reader d) close b) (LikeAll ns) ks k
  | .block close _ n, ks, k => (∀ w ∈ close, Level.statement.starts (.keyword w) = false) →
    Accepts (block (reader d) close) (Like n) ks k
  | .body _ n, ks, k => Accepts (body (reader d)) (Like n) ks k
  | .routine _ n, ks, k => Accepts (routine (reader d)) (Like n) ks k
  | .step s, ks, k =>
    Accepts (stepClause (reader d)) (fun x => bareOption x = bareOption s) ks k
  | .arm lined test inner, ks, k => Accepts (arm (reader d)) (LikeArm lined test inner) ks k
  | .branches bs otherwise, ks, k => ∀ b, ks.length ≤ b →
    Accepts (branches (reader d) b) (LikeBranches bs otherwise) ks k

variable {ts us : List Token} {k : Kind} {n : Node}

theorem Read.nested {goal : Goal} {d : Nat}
    (h : ∀ d, ts.length ≤ d → Read d (.node goal.level n) (kinds ts) k) (hd : ts.length < d) :
    Accepts (reader d goal) (Like n) (kinds ts) k := by
  obtain ⟨e, rfl⟩ := Nat.exists_eq_add_of_lt hd
  rw [reader_succ]
  exact h _ (Nat.le_add_right _ _)

/-! ## How kinds begin -/

theorem Reads.kinds_node {level : Level} (h : Reads (.node level n) ts k) :
    ∃ l ks, kinds ts = l :: ks ∧ level.starts l = true := by
  obtain ⟨t, us, rfl, hs, -⟩ := h.opens
  exact ⟨t.kind, kinds us, rfl, hs⟩

theorem Reads.kinds_block {close : List Keyword} {opened : Position}
    (h : Reads (.block close opened n) ts k) (l : Kind) :
    ahead (kinds ts) l = .mark .separator := by
  cases h with
  | block hs _ _ =>
    obtain ⟨t, seps, rfl⟩ := List.exists_cons_of_ne_nil hs.1
    exact hs.2 t (by simp)

theorem Reads.kinds_lines {close : List Keyword} {ns : List Node}
    (h : Reads (.lines close ns) ts k) : ahead (kinds ts) k ≠ .mark .separator := by
  have hnode {n : Node} {ts : List Token} {k : Kind} (h : Reads (.node .statement n) ts k)
      (l : Kind) : ahead (kinds ts) l ≠ .mark .separator := by
    obtain ⟨l, ks, hks, hl⟩ := h.kinds_node
    rw [hks]
    rintro rfl
    cases hl
  cases h with
  | noLines hk =>
    rintro rfl
    rcases hk with hk | hk
    · cases hk
    · obtain ⟨w, -, hk⟩ := List.any_eq_true.mp hk
      cases hk
  | lastLine h _ => exact hnode h _
  | line h _ _ =>
    rw [kinds_append, ahead_append]
    exact hnode h _

theorem Reads.arm_ne_nil {lined : Bool} {test inner : Node}
    (h : Reads (.arm lined test inner) ts k) : ts ≠ [] := by
  cases h <;> simp

theorem signOp?_atom {l : Kind} (h : startsAtom l = true) : signOp? l = none := by
  cases l with
  | mark m => cases m <;> first | rfl | cases h
  | _ => rfl

/-! ## Phrases -/

theorem Reads.read {p : Phrase} (h : Reads p ts k) :
    ∀ d, p.levels ts ≤ d → Read d p (kinds ts) k := by
  induction h with
  | literal h => exact fun d _ => literal_accepts h _
  | parens ho h hc ih =>
    intro d hd
    simp only [Phrase.levels, List.length_cons, List.length_append] at hd
    have hx : Accepts (reader d .expression) (Like _) _ _ := Read.nested ih (by omega)
    rw [hc] at hx
    simp only [kinds_cons, kinds_append, kinds_nil, ho, hc]
    exact parens_accepts hx
  | list ho h hc ih =>
    intro d hd
    simp only [Phrase.levels, List.length_cons, List.length_append] at hd
    simp only [kinds_cons, kinds_append, kinds_nil, ho, hc]
    have hitems := ih d (by simp only [Phrase.levels]; omega)
    rw [hc] at hitems
    exact list_accepts (hitems _ rfl rfl)
  | ifElse hw h ih =>
    intro d hd
    simp only [Phrase.levels, List.length_cons] at hd
    simp only [kinds_cons, hw]
    exact ifElse_accepts (ih d hd)
  | forTo hw hv hq h₁ hu h₂ h₃ ht h₄ ih₁ ih₂ ih₃ ih₄ =>
    intro d hd
    simp only [Phrase.levels, List.length_cons, List.length_append] at hd
    have hfirst : Accepts (reader d .expression) (Like _) _ _ := Read.nested ih₁ (by omega)
    have hlimit : Accepts (reader d .expression) (Like _) _ _ := Read.nested ih₂ (by omega)
    have hstep := ih₃ d (by simp only [Phrase.levels]; omega)
    have hbody := ih₄ d (by simp only [Phrase.levels]; omega)
    rw [hu] at hfirst
    rw [following_eq, ht] at hlimit
    rw [ht] at hstep
    simp only [kinds_cons, kinds_append, hw, hv, hq, hu, ht]
    exact forTo_accepts hfirst hlimit hstep hbody
  | whileDo hw h₁ ht h₂ ih₁ ih₂ =>
    intro d hd
    simp only [Phrase.levels, List.length_cons, List.length_append] at hd
    have htest : Accepts (reader d .expression) (Like _) _ _ := Read.nested ih₁ (by omega)
    have hbody := ih₂ d (by simp only [Phrase.levels]; omega)
    rw [ht] at htest
    simp only [kinds_cons, kinds_append, hw, ht]
    exact whileDo_accepts htest hbody
  | function hw hn ho hp hc h ih =>
    intro d hd
    simp only [Phrase.levels, List.length_cons, List.length_append] at hd
    simp only [kinds_cons, kinds_append, hw, ho, hc]
    exact function_accepts hn hp (ih d (by simp only [Phrase.levels]; omega))
  | noStep hk => exact fun d _ => stepClause_none hk
  | step hw h ih =>
    intro d hd
    simp only [Phrase.levels, List.length_cons] at hd
    simp only [kinds_cons, hw]
    have hs : Accepts (reader d .expression) (Like _) _ _ := Read.nested ih (by omega)
    exact stepClause_some hs
  | arrow ha h ih =>
    intro d hd
    simp only [Phrase.levels, List.length_cons] at hd
    simp only [kinds_cons, ha]
    have hx : Accepts (reader d .expression) (Like _) _ _ := Read.nested ih (by omega)
    exact arrow_accepts hx
  | routine h he ih =>
    intro d hd
    simp only [Phrase.levels, List.length_append, List.length_cons] at hd
    simp only [kinds_append, kinds_cons, kinds_nil, he]
    have hb := ih d (by simp only [Phrase.levels]; omega) (by simp; rfl)
    rw [he] at hb
    exact routine_lined h.kinds_block hb
  | target h ih =>
    rintro d hd P ls k' rfl hcont
    exact application_accepts (ih d hd) hcont
  | call hf ho ha hc ihf iha =>
    rintro d hd P ls k' rfl hcont
    simp only [Phrase.levels, List.length_append, List.length_cons] at hd
    have hargs := iha d (by simp only [Phrase.levels]; omega) .rightParen hc (by rw [hc]; rfl)
    rw [hc] at hargs
    simp only [kinds_append, kinds_cons, kinds_nil, ho, hc, List.append_assoc, List.cons_append,
      List.nil_append]
    apply ihf d (by simp only [Phrase.levels]; omega) P _ _ (by rw [ho]; rfl)
    intro start m b hm hb
    obtain ⟨b, rfl⟩ := Nat.exists_eq_add_of_lt (Nat.lt_of_lt_of_le (Nat.succ_pos _) hb)
    simp only [List.length_cons, List.length_append] at hb
    exact trailersAfter_call hm hargs fun m' hm' => hcont start m' _ hm' (by omega)
  | index ht ho hp hc iht ihp =>
    rintro d hd P ls k' rfl hcont
    simp only [Phrase.levels, List.length_append, List.length_cons] at hd
    have hplace : Accepts (reader d .expression) (Like _) _ _ := Read.nested ihp (by omega)
    rw [hc] at hplace
    simp only [kinds_append, kinds_cons, kinds_nil, ho, hc, List.append_assoc, List.cons_append,
      List.nil_append]
    apply iht d (by simp only [Phrase.levels]; omega) P _ _ (by rw [ho]; rfl)
    intro start m b hm hb
    obtain ⟨b, rfl⟩ := Nat.exists_eq_add_of_lt (Nat.lt_of_lt_of_le (Nat.succ_pos _) hb)
    simp only [List.length_cons, List.length_append] at hb
    exact trailersAfter_index hm hplace fun m' hm' => hcont start m' _ hm' (by omega)
  | application h hround hsquare ih =>
    intro d hd
    have happ := ih d hd (Like _) [] _ rfl fun _ _ _ hm _ => trailersAfter_none hround hsquare hm
    rwa [List.append_nil] at happ
  | base h hk ih => exact fun d hd => power_base hk (ih d hd)
  | power hb ho hx ihb ihx =>
    intro d hd
    simp only [Phrase.levels, List.length_append, List.length_cons] at hd
    have hbase := ihb d (by simp only [Phrase.levels]; omega)
    have hexp : Accepts (reader d .factor) (Like _) _ _ := Read.nested ihx (by omega)
    rw [ho] at hbase
    simp only [kinds_append, kinds_cons, ho]
    exact power_accepts hbase hexp
  | unsigned h ih =>
    intro d hd
    obtain ⟨l, ks, hks, hl⟩ := h.kinds_node
    have hpower := ih d hd
    rw [hks] at hpower ⊢
    exact factor_unsigned (signOp?_atom hl) hpower
  | signed hs h ih =>
    intro d hd
    simp only [Phrase.levels, List.length_cons] at hd
    have hx : Accepts (reader d .factor) (Like _) _ _ := Read.nested ih (by omega)
    exact factor_signed hs hx
  | first h ih =>
    rintro d hd P ls k' rfl hcont
    exact chain_accepts (ih d hd) hcont
  | joined hl ho hr ihl ihr =>
    rintro d hd P ls k' rfl hcont
    simp only [Phrase.levels, List.length_append, List.length_cons] at hd
    have hright := ihr d (by simp only [Phrase.levels]; omega)
    simp only [kinds_append, kinds_cons, List.append_assoc, List.cons_append]
    apply ihl d (by simp only [Phrase.levels]; omega) P _ _ rfl
    intro m b hm hb
    obtain ⟨b, rfl⟩ := Nat.exists_eq_add_of_lt (Nat.lt_of_lt_of_le (Nat.succ_pos _) hb)
    simp only [List.length_cons, List.length_append] at hb
    exact chainAfter_joined ho hm hright fun m' hm' => hcont m' _ hm' (by omega)
  | @chain ch n ts k h hk ha ih =>
    intro d hd
    have hchain := ih d hd (Like n) [] k rfl fun _ _ hm _ => chainAfter_none hk hm
    rw [List.append_nil] at hchain
    obtain ⟨t, us, rfl, hs, -⟩ := h.opens
    cases ch with
    | product => exact hchain
    | sum => exact hchain
    | comparison =>
      apply comparison_chain _ hchain
      intro (hnot : t.kind = _)
      rw [hnot] at hs
      cases hs
    | logic =>
      apply expression_chain (by simp) _ (ha rfl) hchain
      intro (hvar : t.kind = _)
      rw [hvar] at hs
      cases hs
  | not hw h ih =>
    intro d hd
    simp only [Phrase.levels, List.length_cons] at hd
    have hx : Accepts (reader d .comparison) (Like _) _ _ := Read.nested ih (by omega)
    simp only [kinds_cons, hw]
    exact comparison_not hx
  | declare hw hv hq h ih =>
    intro d hd
    simp only [Phrase.levels, List.length_cons] at hd
    have hx : Accepts (reader d .expression) (Like _) _ _ := Read.nested ih (by omega)
    simp only [kinds_cons, hw, hv, hq]
    exact expression_declare hx
  | rebind hv hq h ih =>
    intro d hd
    simp only [Phrase.levels, List.length_cons] at hd
    have hx : Accepts (reader d .expression) (Like _) _ _ := Read.nested ih (by omega)
    simp only [kinds_cons, hv, hq]
    exact expression_rebind hx
  | returnNothing hw hk =>
    intro d hd
    simp only [kinds_cons, kinds_nil, hw]
    exact statement_returnNothing hk
  | returnValue hw h ih =>
    intro d hd
    simp only [Phrase.levels, List.length_cons] at hd
    have hx : Accepts (reader d .expression) (Like _) _ _ := Read.nested ih (by omega)
    obtain ⟨l, ks, hks, hl⟩ := h.kinds_node
    simp only [kinds_cons, hw]
    rw [hks] at hx ⊢
    exact statement_returnValue hl hx
  | «continue» hw =>
    intro d hd
    simp only [kinds_cons, kinds_nil, hw]
    exact statement_continue _
  | «break» hw =>
    intro d hd
    simp only [kinds_cons, kinds_nil, hw]
    exact statement_break _
  | expression h ih =>
    intro d hd
    obtain ⟨l, ks, hks, hl⟩ := h.kinds_node
    have hx := ih d hd
    rw [hks] at hx ⊢
    exact statement_expression hl hx
  | noItems =>
    rintro d hd m rfl -
    exact itemsBefore_none rfl
  | items h hr ih ihr =>
    rintro d hd m rfl hm
    simp only [Phrase.levels, List.length_append] at hd
    have hx : Accepts (reader d .expression) (Like _) _ _ := Read.nested ih (by omega)
    obtain ⟨l, ks, hks, hl⟩ := h.kinds_node
    rw [following_eq] at hx
    rw [kinds_append]
    refine itemsBefore_some ?_ hx (ihr d (by simp only [Phrase.levels]; omega)) ?_
    · rw [hks]
      rintro rfl
      cases hm.symm.trans hl
    · intro m ms hm hms
      simp only [LikeAll, bareAll, hm, hms]
  | noFurther hk =>
    intro d hd b hb
    exact itemsAfter_none hk rfl
  | further hc h hr ih ihr =>
    intro d hd b hb
    simp only [Phrase.levels, List.length_append, List.length_cons] at hd
    have hx : Accepts (reader d .expression) (Like _) _ _ := Read.nested ih (by omega)
    simp only [kinds_cons, kinds_append, hc] at hb ⊢
    obtain ⟨b, rfl⟩ := Nat.exists_eq_add_of_lt (Nat.lt_of_lt_of_le (Nat.succ_pos _) hb)
    rw [following_eq] at hx
    simp only [List.length_cons, List.length_append] at hb
    apply itemsAfter_more hx (ihr d (by simp only [Phrase.levels]; omega) _ (by omega))
    intro m ms hm hms
    simp only [LikeAll, bareAll, hm, hms]
  | noLines hk =>
    intro d hd hclose b hb
    cases b with
    | zero => cases hb
    | succ b => exact statementsUntil_none hk
  | lastLine h hk ih =>
    intro d hd hclose b hb
    obtain ⟨l, ks, hks, hl⟩ := h.kinds_node
    have hx : Accepts (reader d .statement) (Like _) _ _ := Read.nested ih hd
    rw [hks] at hx ⊢
    cases b with
    | zero => cases hb
    | succ b => exact statementsUntil_last hclose hl hk hx
  | line h hs hr ih ihr =>
    intro d hd hclose b hb
    simp only [Phrase.levels, List.length_append] at hd
    obtain ⟨l, ks, hks, hl⟩ := h.kinds_node
    have hx : Accepts (reader d .statement) (Like _) _ _ := Read.nested ih (by omega)
    have hpos := List.length_pos_of_ne_nil hs.1
    simp only [kinds_append, List.length_append, kinds_length] at hb ⊢
    cases b with
    | zero => cases hb
    | succ b =>
      have hrest := ihr d (by simp only [Phrase.levels]; omega) hclose b (by simp; omega)
      rw [hks] at hx ⊢
      exact statementsUntil_line hclose hl hs hx hr.kinds_lines hrest
  | block hs h hk ih =>
    intro d hd hclose
    simp only [Phrase.levels, List.length_append] at hd
    rw [kinds_append]
    exact block_accepts hs h.kinds_lines hk (ih d (by simp only [Phrase.levels]; omega) hclose)
  | lined h he ih =>
    intro d hd
    simp only [Phrase.levels, List.length_append, List.length_cons] at hd
    have hb := ih d (by simp only [Phrase.levels]; omega) (by simp; rfl)
    rw [he] at hb
    simp only [kinds_append, kinds_cons, kinds_nil, he]
    exact body_lined h.kinds_block hb
  | inline h ih =>
    intro d hd
    obtain ⟨l, ks, hks, hl⟩ := h.kinds_node
    have hx : Accepts (reader d .statement) (Like _) _ _ := Read.nested ih hd
    apply body_inline _ hx
    rw [hks]
    rintro rfl
    cases hl
  | armLined h₁ ht h₂ ih₁ ih₂ =>
    intro d hd
    simp only [Phrase.levels, List.length_append, List.length_cons] at hd
    have htest : Accepts (reader d .expression) (Like _) _ _ := Read.nested ih₁ (by omega)
    have hb : Accepts (armBody (reader d) true) (Like _) _ _ :=
      ih₂ d (by simp only [Phrase.levels]; omega) (by simp; exact ⟨rfl, rfl, rfl⟩)
    rw [ht] at htest
    simp only [kinds_append, kinds_cons, ht]
    apply arm_accepts htest _ hb
    rw [h₂.kinds_block]
    rfl
  | armInline h₁ ht h₂ ih₁ ih₂ =>
    intro d hd
    simp only [Phrase.levels, List.length_append, List.length_cons] at hd
    have htest : Accepts (reader d .expression) (Like _) _ _ := Read.nested ih₁ (by omega)
    have hx : Accepts (reader d .statement) (Like _) _ _ := Read.nested ih₂ (by omega)
    have hb : Accepts (armBody (reader d) false) (Like _) _ _ := hx
    obtain ⟨l, ks, hks, hl⟩ := h₂.kinds_node
    rw [ht] at htest
    simp only [kinds_append, kinds_cons, ht]
    apply arm_accepts htest _ hb
    rw [hks]
    apply Bool.eq_false_iff.mpr
    intro hsep
    rw [ahead_cons] at hsep
    rw [Kind.isMark_iff.mp hsep] at hl
    cases hl
  | closed h he ih =>
    intro d hd b hb
    simp only [Phrase.levels, List.length_append, List.length_cons] at hd
    have harm := ih d (by simp only [Phrase.levels]; omega)
    rw [he] at harm
    simp only [kinds_append, kinds_cons, kinds_nil, he]
    cases b with
    | zero => simp at hb
    | succ b => exact branches_closed harm
  | only h helif helse ih =>
    intro d hd b hb
    have harm := ih d hd
    cases b with
    | zero => simp [kinds_length, List.length_eq_zero_iff, h.arm_ne_nil] at hb
    | succ b => exact branches_only harm helif helse
  | elif h he hr ih ihr =>
    intro d hd b hb
    simp only [Phrase.levels, List.length_append, List.length_cons] at hd
    have harm := ih d (by simp only [Phrase.levels]; omega)
    rw [he] at harm
    simp only [kinds_append, kinds_cons, he, List.length_append, List.length_cons] at hb ⊢
    cases b with
    | zero => simp at hb
    | succ b =>
      exact branches_elif harm (ihr d (by simp only [Phrase.levels]; omega) b (by omega))
  | otherwise h he hr ih ihr =>
    intro d hd b hb
    simp only [Phrase.levels, List.length_append, List.length_cons] at hd
    have harm := ih d (by simp only [Phrase.levels]; omega)
    have hbody := ihr d (by simp only [Phrase.levels]; omega)
    rw [he] at harm
    simp only [kinds_append, kinds_cons, he]
    cases b with
    | zero => simp at hb
    | succ b => exact branches_otherwise harm hbody

end Grammar

end Scriptlet

import Scriptlet.Proofs.Grammar.Formed
import Scriptlet.Proofs.Grammar.Derived

/-!
# Writing a tree down

A tree is written with each expression inside another in parentheses, unless
it is a literal or a variable. Lists may be counted among the literals or not.
A block is written on lines of its own, and there is one `END` for each
compound expression that ends with one. What is so written for a well-formed
tree is read as that tree.
-/

set_option autoImplicit false

namespace Scriptlet

open Token (Kind)

namespace BinaryOp

def kind : BinaryOp → Kind
  | .add => .mark .plus
  | .sub => .mark .minus
  | .mul => .mark .times
  | .div => .mark .slash
  | .intDiv => .mark .bar
  | .mod => .mark .percent
  | .pow => .mark .caret
  | .eq => .mark .equalEqual
  | .ne => .mark .notEqual
  | .lt => .mark .less
  | .gt => .mark .greater
  | .le => .mark .lessEqual
  | .ge => .mark .greaterEqual
  | .and => .keyword .and
  | .or => .keyword .or

end BinaryOp

def UnaryOp.kind : UnaryOp → Kind
  | .neg => .mark .minus
  | .pos => .mark .plus
  | .not => .keyword .not

/-- Whether an expression is written without parentheses wherever it stands; lists if `lists`. -/
def Expr.plain (lists : Bool) : Expr → Bool
  | .int _ | .float _ | .text _ | .var _ => true
  | .return _ | .continue | .break | .block _ => true
  | .list _ => lists
  | _ => false

def writtenParams : List Param → List Kind
  | [] => []
  | p :: ps => .identifier p.name :: ps.flatMap fun q => [.mark .comma, .identifier q.name]

/-- What closes a compound expression whose last body this is. -/
def Node.closing (body : Node) : List Kind := if body.isBlock then [.keyword .close] else []

/-- The last body of an `IF`. -/
def lastBody : List (Node × Node) → Option Node → Option Node
  | bs, none => bs.getLast?.map Prod.snd
  | _, some other => some other

mutual

/-- A node as a statement is written. -/
def Node.written (lists : Bool) : Node → List Kind
  | .mk e _ => e.written lists

/-- A node as it is written inside another. -/
def Node.part (lists : Bool) : Node → List Kind
  | .mk e _ =>
    if e.plain lists then e.written lists
    else .mark .leftParen :: (e.written lists ++ [.mark .rightParen])

def Expr.written (lists : Bool) : Expr → List Kind
  | .int n => [.int n]
  | .float x => [.float x]
  | .text s => [.text s]
  | .list items =>
    .mark .leftSquare :: (writtenItems lists items ++ [.mark .rightSquare])
  | .var name => [.identifier name]
  | .assign name value declare =>
    (if declare then [.keyword .var] else []) ++
      .identifier name :: .mark .equal :: value.part lists
  | .binary op left right => left.part lists ++ op.kind :: right.part lists
  | .unary op operand => op.kind :: operand.part lists
  | .ifElse branches otherwise =>
    writtenBranches lists .if branches ++ (writtenOption lists .else otherwise ++
      ((lastBody branches otherwise).map Node.closing).getD [])
  | .forTo var start stop step body =>
    .keyword .for :: .identifier var :: .mark .equal :: (start.part lists ++
      .keyword .to :: (stop.part lists ++ (writtenOption lists .step step ++
        .keyword .then :: (body.part lists ++ body.closing))))
  | .whileDo test body =>
    .keyword .while :: (test.part lists ++ .keyword .then :: (body.part lists ++ body.closing))
  | .function name params body =>
    .keyword .fun :: ((name.map Kind.identifier).toList ++ .mark .leftParen ::
      (writtenParams params ++ .mark .rightParen ::
        ((if body.isBlock then [] else [.mark .arrow]) ++ (body.part lists ++ body.closing))))
  | .call callee args =>
    callee.part lists ++ .mark .leftParen :: (writtenItems lists args ++ [.mark .rightParen])
  | .index target place =>
    target.part lists ++ .mark .leftSquare :: (place.part lists ++ [.mark .rightSquare])
  | .return none => [.keyword .return]
  | .return (some value) => .keyword .return :: value.part lists
  | .continue => [.keyword .continue]
  | .break => [.keyword .break]
  | .block body => .mark .separator :: (writtenRows lists body ++ [.mark .separator])

/-- Parts with commas between them. -/
def writtenItems (lists : Bool) : List Node → List Kind
  | [] => []
  | n :: ns => n.part lists ++ writtenFurther lists ns

def writtenFurther (lists : Bool) : List Node → List Kind
  | [] => []
  | n :: ns => .mark .comma :: (n.part lists ++ writtenFurther lists ns)

/-- Statements with newlines between them. -/
def writtenRows (lists : Bool) : List Node → List Kind
  | [] => []
  | n :: ns => n.written lists ++ writtenLines lists ns

def writtenLines (lists : Bool) : List Node → List Kind
  | [] => []
  | n :: ns => .mark .separator :: (n.written lists ++ writtenLines lists ns)

def writtenBranches (lists : Bool) (word : Keyword) : List (Node × Node) → List Kind
  | [] => []
  | (test, body) :: rest =>
    .keyword word :: (test.part lists ++ .keyword .then :: (body.part lists ++
      writtenBranches lists .elif rest))

def writtenOption (lists : Bool) (word : Keyword) : Option Node → List Kind
  | none => []
  | some n => .keyword word :: n.part lists

end

namespace Grammar

variable {lists : Bool} {n : Node} {ts : List Token} {k : Kind}

/-! ## Looser levels -/

/-- One operand is a chain by itself. -/
theorem Reads.single (chain : Chain) (h : Reads (.node chain.operand n) ts k)
    (hk : chain.level.rank < reach k) : Reads (.node chain.level n) ts k := by
  refine .chain (.first h) (Chain.op?_of_reach hk) fun hc => ?_
  obtain ⟨t, us, rfl, -, ha⟩ := h.opens
  subst hc
  exact assigns_before (by simp) (ha rfl) (ne_of_reach hk)

/-- An atom is a node of every level that the next token does not go on with. -/
theorem Reads.atLevel (h : Reads (.node .atom n) ts k) (level : Level)
    (hk : level.rank < reach k) : Reads (.node level n) ts k := by
  have hpower (hk : 2 < reach k) : Reads (.node .power n) ts k :=
    .base (.application (.target h) (ne_of_reach (Nat.lt_of_succ_lt hk))
      (ne_of_reach (Nat.lt_of_succ_lt hk))) (ne_of_reach hk)
  have hproduct (hk : 3 < reach k) := Reads.single .product (.unsigned (hpower (by omega))) hk
  have hsum (hk : 4 < reach k) := Reads.single .sum (hproduct (by omega)) hk
  have hcomparison (hk : 5 < reach k) := Reads.single .comparison (hsum (by omega)) hk
  have hexpression (hk : 6 < reach k) := Reads.single .logic (hcomparison (by omega)) hk
  cases level with
  | atom => exact h
  | application => exact .application (.target h) (ne_of_reach hk) (ne_of_reach hk)
  | power => exact hpower hk
  | factor => exact .unsigned (hpower hk)
  | product => exact hproduct hk
  | sum => exact hsum hk
  | comparison => exact hcomparison hk
  | expression => exact hexpression hk
  | statement => exact .expression (hexpression (Nat.lt_of_succ_lt hk))

theorem Reads.asExpression {level : Level} (h : Reads (.node level n) ts k)
    (hl : level.rank ≤ 6) (hk : 6 < reach k) : Reads (.node .expression n) ts k := by
  have ofSum (h : Reads (.node .sum n) ts k) : Reads (.node .expression n) ts k :=
    .single .logic (.single .comparison h (Nat.lt_of_succ_lt hk)) hk
  have hsum : Level.rank .sum < reach k := Nat.lt_trans (by decide) hk
  have hproduct : Level.rank .product < reach k := Nat.lt_trans (by decide) hk
  cases level with
  | atom => exact h.atLevel .expression hk
  | application =>
    have hpower : Reads (.node .power n) ts k :=
      .base h (ne_of_reach (Nat.lt_trans (by decide) hk))
    exact ofSum (.single .sum (.single .product (.unsigned hpower) hproduct) hsum)
  | power => exact ofSum (.single .sum (.single .product (.unsigned h) hproduct) hsum)
  | factor => exact ofSum (.single .sum (.single .product h hproduct) hsum)
  | product => exact ofSum (.single .sum h hsum)
  | sum => exact ofSum h
  | comparison => exact .single .logic h hk
  | expression => exact h
  | statement => simp [Level.rank] at hl

/-! ## Reading what is written -/

/-- Tokens of these kinds are read as the node, its places aside, before a token of kind `k`. -/
def Regains (level : Level) (n : Node) (ks : List Kind) (k : Kind) : Prop :=
  ∃ ts n', kinds ts = ks ∧ n'.bare = n.bare ∧ Reads (.node level n') ts k

/-- What comes after an expression that is not part of another. -/
def Closing (k : Kind) : Prop := k = .mark .rightParen ∨ k = .mark .separator ∨ k = .mark .stop

theorem Closing.reach (h : Closing k) : reach k = 8 := by
  rcases h with rfl | rfl | rfl <;> rfl

theorem Closing.ne_leftParen (h : Closing k) : k ≠ .mark .leftParen := by
  rcases h with rfl | rfl | rfl <;> simp

theorem Closing.ne_leftSquare (h : Closing k) : k ≠ .mark .leftSquare := by
  rcases h with rfl | rfl | rfl <;> simp

theorem Regains.atLevel {ks : List Kind} (h : Regains .atom n ks k) (level : Level)
    (hk : level.rank < Grammar.reach k) : Regains level n ks k := by
  obtain ⟨ts, n', hks, hn, hr⟩ := h
  exact ⟨ts, n', hks, hn, hr.atLevel level hk⟩

theorem Regains.asExpression (level : Level) {ks : List Kind} (h : Regains level n ks k)
    (hl : level.rank ≤ 6) (hk : Closing k) : Regains .expression n ks k := by
  obtain ⟨ts, n', hks, hn, hr⟩ := h
  exact ⟨ts, n', hks, hn, hr.asExpression hl (by simp [hk.reach])⟩

/-- A block is read before each word that closes it. -/
def RegainsBlock (n : Node) (ks : List Kind) : Prop :=
  ∀ close opened k, closes close k = true →
    ∃ ts n', kinds ts = ks ∧ n'.bare = n.bare ∧ Reads (.block close opened n') ts k

/-- How what is written for a node is read, by what the node stands for. -/
def Rewritten (lists : Bool) : Role → Node → Prop
  | .expression, n => (∀ k, Closing k → Regains .expression n (n.written lists) k) ∧
      ∀ k, Regains .atom n (n.part lists) k
  | .statement, n => (∀ k, Closing k → Regains .statement n (n.written lists) k) ∧
      (∀ k, 7 < reach k → Regains .statement n (n.part lists) k) ∧ n.isBlock = false
  | .body, n => if n.isBlock then RegainsBlock n (n.part lists)
      else ∀ k, 7 < reach k → Regains .statement n (n.part lists) k
  | .routine, n => if n.isBlock then RegainsBlock n (n.part lists)
      else ∀ k, Regains .atom n (n.part lists) k

/-- An expression in parentheses. -/
theorem Rewritten.compound {e : Expr} {span : Span} (hp : e.plain lists = false)
    (h : ∀ k, Closing k → Regains .expression (.mk e span) (e.written lists) k) :
    Rewritten lists .expression (.mk e span) := by
  refine ⟨by simpa only [Node.written] using h, fun k => ?_⟩
  obtain ⟨ts, n', hks, hn, hr⟩ := h (.mark .rightParen) (.inl rfl)
  refine ⟨ofKind (.mark .leftParen) :: (ts ++ [ofKind (.mark .rightParen)]), _, ?_, ?_,
    .parens rfl hr rfl⟩
  · simp [hks, ofKind, Node.part, hp]
  · rw [← hn, Node.bare_eq_iff, Node.expr]

/-- An expression that needs no parentheses. -/
theorem Rewritten.plain {e : Expr} {span : Span} (hp : e.plain lists = true)
    (h : ∀ k, Regains .atom (.mk e span) (e.written lists) k) :
    Rewritten lists .expression (.mk e span) := by
  refine ⟨fun k hk => ?_, fun k => ?_⟩
  · simpa only [Node.written] using (h k).asExpression .atom (Nat.zero_le _) hk
  · simpa only [Node.part, hp, if_true] using h k

theorem Rewritten.literal {e : Expr} {l : Kind} (hl : literal? l = some e)
    (hp : e.plain lists = true) (hw : e.written lists = [l]) (span : Span) :
    Rewritten lists .expression (.mk e span) := by
  refine .plain hp fun k => ⟨[ofKind l], .mk e (ofKind l).span, ?_, ?_, .literal hl⟩
  · rw [hw]
    rfl
  · rw [Node.bare_eq_iff, Node.expr, Node.expr]

/-! ### Items -/

theorem further_regained {ns : List Node} (h : ∀ n ∈ ns, ∀ k, Regains .atom n (n.part lists) k)
    (hk : k = .mark .rightParen ∨ k = .mark .rightSquare) :
    6 < reach (ahead (writtenFurther lists ns) k) ∧
      ∃ ts ns', kinds ts = writtenFurther lists ns ∧ bareAll ns' = bareAll ns ∧
        Reads (.further ns') ts k := by
  induction ns with
  | nil =>
    refine ⟨?_, [], [], rfl, rfl, .noFurther ?_⟩
    · rw [writtenFurther, ahead_nil]
      rcases hk with rfl | rfl <;> decide
    · rcases hk with rfl | rfl <;> simp
  | cons n ns ih =>
    obtain ⟨hn, hns⟩ := List.forall_mem_cons.mp h
    obtain ⟨hnext, us, ns', hls, hb, hr⟩ := ih hns
    obtain ⟨ts, n', hks, hb', hr'⟩ := (hn _).atLevel .expression hnext
    rw [← hls, ← following_eq] at hr'
    refine ⟨by rw [writtenFurther, ahead_cons]; decide,
      ofKind (.mark .comma) :: (ts ++ us), n' :: ns', ?_, by rw [bareAll, bareAll, hb, hb'],
      .further rfl hr' hr⟩
    simp [hks, hls, ofKind, writtenFurther]

theorem items_regained {ns : List Node} (h : ∀ n ∈ ns, ∀ k, Regains .atom n (n.part lists) k)
    (hk : k = .mark .rightParen ∨ k = .mark .rightSquare) :
    ∃ ts ns', kinds ts = writtenItems lists ns ∧ bareAll ns' = bareAll ns ∧
      Reads (.items ns') ts k := by
  cases ns with
  | nil => exact ⟨[], [], rfl, rfl, .noItems⟩
  | cons n ns =>
    obtain ⟨hn, hns⟩ := List.forall_mem_cons.mp h
    obtain ⟨hnext, us, ns', hls, hb, hr⟩ := further_regained hns hk
    obtain ⟨ts, n', hks, hb', hr'⟩ := (hn _).atLevel .expression hnext
    rw [← hls, ← following_eq] at hr'
    refine ⟨ts ++ us, n' :: ns', ?_, by rw [bareAll, bareAll, hb, hb'], .items hr' hr⟩
    rw [kinds_append, hks, hls, writtenItems]

/-! ### Statements -/

/-- What may come after the last of some statements. -/
def Ended (close : List Keyword) (k : Kind) (tail : List Kind) : Prop :=
  tail = [] ∧ k = .mark .stop ∨
    tail = [.mark .separator] ∧ (k = .mark .stop ∨ closes close k = true)

theorem lines_regained {close : List Keyword} {tail : List Kind} (he : Ended close k tail)
    (n : Node) (ns : List Node)
    (h : ∀ m ∈ n :: ns, ∀ k, Closing k → Regains .statement m (m.written lists) k) :
    ∃ ts ns', kinds ts = n.written lists ++ (writtenLines lists ns ++ tail) ∧
      bareAll ns' = bareAll (n :: ns) ∧ Reads (.lines close ns') ts k := by
  obtain ⟨hn, hns⟩ := List.forall_mem_cons.mp h
  induction ns generalizing n with
  | nil =>
    rcases he with ⟨rfl, rfl⟩ | ⟨rfl, hk⟩
    · obtain ⟨ts, n', hks, hb, hr⟩ := hn _ (.inr (.inr rfl))
      refine ⟨ts, [n'], ?_, by rw [bareAll, bareAll, hb]; rfl, .lastLine hr (by simp)⟩
      simp [hks, writtenLines]
    · obtain ⟨ts, n', hks, hb, hr⟩ := hn _ (.inr (.inl rfl))
      refine ⟨_, [n'], ?_, by rw [bareAll, bareAll, hb]; rfl,
        .line hr ⟨List.cons_ne_nil (ofKind (.mark .separator)) [], by simp [ofKind]⟩
          (.noLines hk)⟩
      simp [hks, ofKind, writtenLines]
  | cons m ns ih =>
    obtain ⟨hm, hns'⟩ := List.forall_mem_cons.mp hns
    obtain ⟨us, ns', hls, hb', hr'⟩ := ih m hns hm hns'
    obtain ⟨ts, n', hks, hb, hr⟩ := hn _ (.inr (.inl rfl))
    refine ⟨_, n' :: ns', ?_, by rw [bareAll, bareAll, hb, hb'],
      .line hr ⟨List.cons_ne_nil (ofKind (.mark .separator)) [], by simp [ofKind]⟩ hr'⟩
    simp [hks, hls, ofKind, writtenLines]

theorem block_regained {ns : List Node} {span : Span}
    (h : ∀ m ∈ ns, ∀ k, Closing k → Regains .statement m (m.written lists) k) :
    RegainsBlock (.mk (.block ns) span) (Node.part lists (.mk (.block ns) span)) := by
  intro close opened k hk
  cases ns with
  | nil =>
    have hs : Separators [ofKind (.mark .separator), ofKind (.mark .separator)] :=
      ⟨by simp, by simp [ofKind]⟩
    refine ⟨_, _, ?_, ?_, .block hs (.noLines (.inr hk)) hk⟩
    · simp [ofKind, Node.part, Expr.plain, Expr.written, writtenRows]
    · rfl
  | cons n ns =>
    obtain ⟨ts, ns', hks, hb, hr⟩ := lines_regained (.inr ⟨rfl, .inr hk⟩) n ns h
    have hs : Separators [ofKind (.mark .separator)] := ⟨by simp, by simp [ofKind]⟩
    refine ⟨_, _, ?_, ?_, .block hs hr hk⟩
    · simp [hks, ofKind, Node.part, Expr.plain, Expr.written, writtenRows]
    · rw [Node.bare_eq_iff, Node.expr, Node.expr, Expr.bare, Expr.bare, hb]

/-! ### Bodies -/

/-- What closes a body is written once. -/
theorem Rewritten.body (h : Rewritten lists .body n) (hk : 7 < reach k) (opened : Position) :
    ∃ ts n', kinds ts = n.part lists ++ n.closing ∧ n'.bare = n.bare ∧
      Reads (.body opened n') ts k := by
  cases hblock : n.isBlock with
  | true =>
    rw [Rewritten, if_pos hblock] at h
    obtain ⟨ts, n', hks, hn, hr⟩ := h [.close] opened (.keyword .close) rfl
    refine ⟨ts ++ [ofKind (.keyword .close)], n', ?_, hn, .lined hr rfl⟩
    simp [hks, ofKind, Node.closing, hblock]
  | false =>
    rw [Rewritten, if_neg (by simp [hblock])] at h
    obtain ⟨ts, n', hks, hn, hr⟩ := h k hk
    exact ⟨ts, n', by simp [hks, Node.closing, hblock], hn, .inline hr⟩

theorem Rewritten.routine (h : Rewritten lists .routine n) (hk : 6 < reach k)
    (opened : Position) :
    ∃ ts n', kinds ts = (if n.isBlock then [] else [.mark .arrow]) ++
        (n.part lists ++ n.closing) ∧ n'.bare = n.bare ∧ Reads (.routine opened n') ts k := by
  cases hblock : n.isBlock with
  | true =>
    rw [Rewritten, if_pos hblock] at h
    obtain ⟨ts, n', hks, hn, hr⟩ := h [.close] opened (.keyword .close) rfl
    refine ⟨ts ++ [ofKind (.keyword .close)], n', ?_, hn, .routine hr rfl⟩
    simp [hks, ofKind, Node.closing, hblock]
  | false =>
    rw [Rewritten, if_neg (by simp [hblock])] at h
    obtain ⟨ts, n', hks, hn, hr⟩ := (h k).atLevel .expression hk
    refine ⟨ofKind (.mark .arrow) :: ts, n', ?_, hn, .arrow rfl hr⟩
    simp [hks, ofKind, Node.closing, hblock]

/-- A condition and a body before a token of kind `k`. -/
def RegainsArm (lists lined : Bool) (b : Node × Node) (k : Kind) : Prop :=
  ∃ ts test inner, kinds ts = b.1.part lists ++ .keyword .then :: b.2.part lists ∧
    test.bare = b.1.bare ∧ inner.bare = b.2.bare ∧ Reads (.arm lined test inner) ts k

theorem arm_lined {b : Node × Node} (ht : Rewritten lists .expression b.1)
    (hb : Rewritten lists .body b.2) (hblock : b.2.isBlock = true)
    (hk : closes [.close, .elif, .else] k = true) : RegainsArm lists true b k := by
  rw [Rewritten, if_pos hblock] at hb
  obtain ⟨ts, test, hks, htest, hr⟩ := (ht.2 (.keyword .then)).atLevel .expression (by decide)
  obtain ⟨us, inner, hls, hinner, hr'⟩ := hb [.close, .elif, .else] _ k hk
  refine ⟨ts ++ ofKind (.keyword .then) :: us, test, inner, ?_, htest, hinner,
    .armLined hr rfl hr'⟩
  simp [hks, hls, ofKind]

theorem arm_inline {b : Node × Node} (ht : Rewritten lists .expression b.1)
    (hb : Rewritten lists .body b.2) (hblock : b.2.isBlock = false) (hk : 7 < reach k) :
    RegainsArm lists false b k := by
  rw [Rewritten, if_neg (by simp [hblock])] at hb
  obtain ⟨ts, test, hks, htest, hr⟩ := (ht.2 (.keyword .then)).atLevel .expression (by decide)
  obtain ⟨us, inner, hls, hinner, hr'⟩ := hb k hk
  refine ⟨ts ++ ofKind (.keyword .then) :: us, test, inner, ?_, htest, hinner,
    .armInline hr rfl hr'⟩
  simp [hks, hls, ofKind]

/-- Before a further branch it does not matter whether the body is a block. -/
theorem arm_regained {b : Node × Node} (ht : Rewritten lists .expression b.1)
    (hb : Rewritten lists .body b.2) (hk : closes [.close, .elif, .else] k = true)
    (hk' : 7 < reach k) : ∃ lined, RegainsArm lists lined b k := by
  cases hblock : b.2.isBlock with
  | true => exact ⟨true, arm_lined ht hb hblock hk⟩
  | false => exact ⟨false, arm_inline ht hb hblock hk'⟩

theorem branches_regained {otherwise : Option Node} (hk : Closing k)
    (ho : ∀ n ∈ otherwise, Rewritten lists .body n) (b : Node × Node) (bs : List (Node × Node))
    (ht : ∀ c ∈ b :: bs, Rewritten lists .expression c.1)
    (hb : ∀ c ∈ b :: bs, Rewritten lists .body c.2) :
    ∃ ts bs' otherwise', kinds ts = b.1.part lists ++ .keyword .then :: (b.2.part lists ++
        (writtenBranches lists .elif bs ++ (writtenOption lists .else otherwise ++
          ((lastBody (b :: bs) otherwise).map Node.closing).getD []))) ∧
      bareBranches bs' = bareBranches (b :: bs) ∧ bareOption otherwise' = bareOption otherwise ∧
      Reads (.branches bs' otherwise') ts k := by
  have hreach : 7 < reach k := by simp [hk.reach]
  induction bs generalizing b with
  | nil =>
    have ht := ht b (List.mem_singleton.mpr rfl)
    have hb := hb b (List.mem_singleton.mpr rfl)
    cases otherwise with
    | none =>
      cases hblock : b.2.isBlock with
      | true =>
        obtain ⟨ts, test, inner, hks, htest, hinner, hr⟩ :=
          arm_lined (k := .keyword .close) ht hb hblock rfl
        refine ⟨ts ++ [ofKind (.keyword .close)], [(test, inner)], none, ?_, ?_, rfl,
          .closed hr rfl⟩
        · simp [hks, ofKind, writtenBranches, writtenOption, lastBody, Node.closing, hblock]
        · simp [bareBranches, htest, hinner]
      | false =>
        obtain ⟨ts, test, inner, hks, htest, hinner, hr⟩ := arm_inline ht hb hblock hreach
        refine ⟨ts, [(test, inner)], none, ?_, ?_, rfl, .only hr ?_ ?_⟩
        · simp [hks, writtenBranches, writtenOption, lastBody, Node.closing, hblock]
        · simp [bareBranches, htest, hinner]
        · rcases hk with rfl | rfl | rfl <;> simp
        · rcases hk with rfl | rfl | rfl <;> simp
    | some other =>
      obtain ⟨lined, ts, test, inner, hks, htest, hinner, hr⟩ :=
        arm_regained (k := .keyword .else) ht hb rfl (by decide)
      obtain ⟨us, other', hls, hother, hr'⟩ := (ho other rfl).body hreach
        (ofKind (.keyword .else)).span.stop
      refine ⟨ts ++ ofKind (.keyword .else) :: us, [(test, inner)], some other', ?_, ?_, ?_,
        .otherwise hr rfl hr'⟩
      · simp [hks, hls, ofKind, writtenBranches, writtenOption, lastBody]
      · simp [bareBranches, htest, hinner]
      · simp [bareOption, hother]
  | cons c bs ih =>
    obtain ⟨ht, hts⟩ := List.forall_mem_cons.mp ht
    obtain ⟨hb, hbs⟩ := List.forall_mem_cons.mp hb
    obtain ⟨us, bs', otherwise', hls, hbranches, hotherwise, hr'⟩ := ih c hts hbs
    obtain ⟨lined, ts, test, inner, hks, htest, hinner, hr⟩ :=
      arm_regained (k := .keyword .elif) ht hb rfl (by decide)
    have hlast : lastBody (b :: c :: bs) otherwise = lastBody (c :: bs) otherwise := by
      cases otherwise <;> simp [lastBody]
    refine ⟨ts ++ ofKind (.keyword .elif) :: us, (test, inner) :: bs', otherwise', ?_, ?_,
      hotherwise, .elif hr rfl hr'⟩
    · simp [hks, hls, ofKind, writtenBranches, hlast]
    · simp [bareBranches, htest, hinner, hbranches]

/-! ### Operators -/

theorem BinaryOp.joins (op : BinaryOp) : op = .pow ∨ ∃ chain, Joins chain op.kind op := by
  cases op <;> first | exact .inl rfl | exact .inr ⟨_, by constructor⟩

theorem binary_regained {op : BinaryOp} {left right : Node} {span : Span}
    (hl : ∀ k, Regains .atom left (left.part lists) k)
    (hr : ∀ k, Regains .atom right (right.part lists) k) (hk : Closing k) :
    Regains .expression (.mk (.binary op left right) span)
      (left.part lists ++ op.kind :: right.part lists) k := by
  rcases BinaryOp.joins op with rfl | ⟨chain, hj⟩
  · obtain ⟨ts, l, hks, hl, hrl⟩ := (hl (.mark .caret)).atLevel .application (by decide)
    obtain ⟨us, r, hls, hr, hrr⟩ := (hr k).atLevel .factor (by simp [hk.reach, Level.rank])
    refine Regains.asExpression .power
      ⟨ts ++ ofKind (.mark .caret) :: us, _, ?_, ?_, .power hrl rfl hrr⟩ (by decide) hk
    · simp [hks, hls, ofKind, BinaryOp.kind]
    · simp [joined, Expr.bare, hl, hr]
  · have hrank := chain.operand_rank
    have hlevel : chain.level.rank ≤ 6 := by cases chain <;> decide
    have hreach := hk.reach
    obtain ⟨ts, l, hks, hl, hrl⟩ := (hl op.kind).atLevel chain.operand (hj.reach ▸ hrank)
    obtain ⟨us, r, hls, hr, hrr⟩ := (hr k).atLevel chain.operand (by omega)
    have hchain := Reads.joined (o := ofKind op.kind) (.first hrl) (joins_iff.mp hj) hrr
    refine Regains.asExpression chain.level ⟨ts ++ ofKind op.kind :: us, _, ?_, ?_,
      .chain hchain (Chain.op?_of_reach (by omega)) fun _ => ?_⟩ hlevel hk
    · simp [hks, hls, ofKind]
    · simp [joined, Expr.bare, hl, hr]
    · obtain ⟨t, vs, hts, -, ha⟩ := hchain.opens
      exact assigns_before (by simp) ha (by rcases hk with rfl | rfl | rfl <;> simp)

theorem unary_regained {op : UnaryOp} {x : Node} {span : Span}
    (h : ∀ k, Regains .atom x (x.part lists) k) (hk : Closing k) :
    Regains .expression (.mk (.unary op x) span) (op.kind :: x.part lists) k := by
  have signed {l : Kind} (hs : signOp? l = some op) :
      Regains .expression (.mk (.unary op x) span) (l :: x.part lists) k := by
    obtain ⟨ts, x', hks, hx, hr⟩ := (h k).atLevel .factor (by simp [hk.reach, Level.rank])
    refine Regains.asExpression .factor ⟨ofKind l :: ts, _, congrArg (l :: ·) hks, ?_,
      .signed hs hr⟩ (by decide) hk
    simp [Expr.bare, hx]
  cases op with
  | neg => exact signed rfl
  | pos => exact signed rfl
  | not =>
    obtain ⟨ts, x', hks, hx, hr⟩ := (h k).atLevel .comparison (by simp [hk.reach, Level.rank])
    refine Regains.asExpression .comparison
      ⟨ofKind (.keyword .not) :: ts, _, congrArg (_ :: ·) hks, ?_, .not rfl hr⟩ (by decide) hk
    simp [Expr.bare, hx]

/-! ### Compound expressions -/

theorem step_regained {step : Option Node} (h : ∀ n ∈ step, Rewritten lists .expression n)
    (hk : 6 < reach k) (hs : k ≠ .keyword .step) :
    6 < reach (ahead (writtenOption lists .step step) k) ∧
      ∃ ts step', kinds ts = writtenOption lists .step step ∧
        bareOption step' = bareOption step ∧ Reads (.step step') ts k := by
  cases step with
  | none => exact ⟨hk, [], none, rfl, rfl, .noStep hs⟩
  | some s =>
    obtain ⟨ts, s', hks, hb, hr⟩ := ((h s rfl).2 k).atLevel .expression hk
    refine ⟨by rw [writtenOption, ahead_cons]; decide, ofKind (.keyword .step) :: ts, some s', ?_,
      ?_, .step rfl hr⟩
    · simp [hks, ofKind, writtenOption]
    · simp [bareOption, hb]

theorem forTo_regained {var : String} {start stop body : Node} {step : Option Node} {span : Span}
    (h₁ : Rewritten lists .expression start) (h₂ : Rewritten lists .expression stop)
    (h₃ : ∀ n ∈ step, Rewritten lists .expression n) (h₄ : Rewritten lists .body body)
    (hk : Closing k) :
    Regains .expression (.mk (.forTo var start stop step body) span)
      (Expr.written lists (.forTo var start stop step body)) k := by
  have hreach : 7 < reach k := by simp [hk.reach]
  obtain ⟨ts₁, start', hks₁, hb₁, hr₁⟩ := (h₁.2 (.keyword .to)).atLevel .expression (by decide)
  obtain ⟨hnext, ts₃, step', hks₃, hb₃, hr₃⟩ :=
    step_regained (k := .keyword .then) h₃ (by decide) (by simp)
  obtain ⟨ts₂, stop', hks₂, hb₂, hr₂⟩ := (h₂.2 _).atLevel .expression hnext
  rw [← hks₃, ← following_eq] at hr₂
  obtain ⟨ts₄, body', hks₄, hb₄, hr₄⟩ := h₄.body hreach (ofKind (.keyword .then)).span.stop
  refine Regains.asExpression .atom ⟨_, _, ?_, ?_, .forTo (w := ofKind (.keyword .for))
    (v := ofKind (.identifier var)) (q := ofKind (.mark .equal)) (u := ofKind (.keyword .to))
    (t := ofKind (.keyword .then)) rfl rfl rfl hr₁ rfl hr₂ hr₃ rfl hr₄⟩ (by decide) hk
  · simp [hks₁, hks₂, hks₃, hks₄, ofKind, Expr.written]
  · simp [Expr.bare, hb₁, hb₂, hb₃, hb₄]

theorem whileDo_regained {test body : Node} {span : Span} (h₁ : Rewritten lists .expression test)
    (h₂ : Rewritten lists .body body) (hk : Closing k) :
    Regains .expression (.mk (.whileDo test body) span)
      (Expr.written lists (.whileDo test body)) k := by
  have hreach : 7 < reach k := by simp [hk.reach]
  obtain ⟨ts, test', hks, hb, hr⟩ := (h₁.2 (.keyword .then)).atLevel .expression (by decide)
  obtain ⟨us, body', hls, hb', hr'⟩ := h₂.body hreach (ofKind (.keyword .then)).span.stop
  refine Regains.asExpression .atom ⟨_, _, ?_, ?_, .whileDo
    (w := ofKind (.keyword .while)) (t := ofKind (.keyword .then)) rfl hr rfl hr'⟩ (by decide) hk
  · simp [hks, hls, ofKind, Expr.written]
  · simp [Expr.bare, hb, hb']

theorem params_regained (params : List Param) :
    ∃ ts ps, kinds ts = writtenParams params ∧ ps.map Param.bare = params.map Param.bare ∧
      Params ps ts := by
  have further (params : List Param) : ∃ ts ps,
      kinds ts = (params.flatMap fun q => [.mark .comma, .identifier q.name]) ∧
      ps.map Param.bare = params.map Param.bare ∧ FurtherParams ps ts := by
    induction params with
    | nil => exact ⟨[], [], rfl, rfl, .nil⟩
    | cons p params ih =>
      obtain ⟨ts, ps, hks, hps, h⟩ := ih
      refine ⟨ofKind (.mark .comma) :: ofKind (.identifier p.name) :: ts, _, ?_, ?_,
        .cons rfl rfl h⟩
      · simp [hks, ofKind]
      · simp [hps, Param.bare]
  cases params with
  | nil => exact ⟨[], [], rfl, rfl, .nil⟩
  | cons p params =>
    obtain ⟨ts, ps, hks, hps, h⟩ := further params
    refine ⟨ofKind (.identifier p.name) :: ts, _, ?_, ?_, .cons rfl h⟩
    · simp [hks, ofKind, writtenParams]
    · simp [hps, Param.bare]

theorem named_regained (name : Option String) :
    ∃ ts, kinds ts = (name.map Kind.identifier).toList ∧ Named name ts := by
  cases name with
  | none => exact ⟨[], rfl, .none⟩
  | some name => exact ⟨[ofKind (.identifier name)], rfl, .some rfl⟩

theorem function_regained {name : Option String} {params : List Param} {body : Node} {span : Span}
    (h : Rewritten lists .routine body) (hk : Closing k) :
    Regains .expression (.mk (.function name params body) span)
      (Expr.written lists (.function name params body)) k := by
  obtain ⟨names, hnames, hn⟩ := named_regained name
  obtain ⟨ts, ps, hks, hps, hp⟩ := params_regained params
  obtain ⟨us, body', hls, hb, hr⟩ := h.routine (k := k) (by simp [hk.reach])
    (ofKind (.mark .rightParen)).span.stop
  refine Regains.asExpression .atom ⟨_, _, ?_, ?_, .function
    (w := ofKind (.keyword .fun)) (o := ofKind (.mark .leftParen))
    (c := ofKind (.mark .rightParen)) rfl hn rfl hp rfl hr⟩ (by decide) hk
  · simp [hnames, hks, hls, ofKind, Expr.written]
  · simp [Expr.bare, hps, hb]

theorem ifElse_regained {branches : List (Node × Node)} {otherwise : Option Node} {span : Span}
    (hne : branches ≠ []) (ht : ∀ b ∈ branches, Rewritten lists .expression b.1)
    (hb : ∀ b ∈ branches, Rewritten lists .body b.2)
    (ho : ∀ n ∈ otherwise, Rewritten lists .body n) (hk : Closing k) :
    Regains .expression (.mk (.ifElse branches otherwise) span)
      (Expr.written lists (.ifElse branches otherwise)) k := by
  obtain ⟨b, bs, rfl⟩ := List.exists_cons_of_ne_nil hne
  obtain ⟨ts, bs', otherwise', hks, hbranches, hotherwise, hr⟩ :=
    branches_regained hk ho b bs ht hb
  refine Regains.asExpression .atom ⟨ofKind (.keyword .if) :: ts, _, ?_, ?_,
    .ifElse rfl hr⟩ (by decide) hk
  · simp [hks, ofKind, Expr.written, writtenBranches]
  · simp only [Node.bare_mk, Expr.bare, hbranches, hotherwise]

theorem call_regained {callee : Node} {args : List Node} {span : Span}
    (hc : Rewritten lists .expression callee) (ha : ∀ n ∈ args, Rewritten lists .expression n)
    (hk : Closing k) :
    Regains .expression (.mk (.call callee args) span)
      (Expr.written lists (.call callee args)) k := by
  obtain ⟨ts, callee', hks, hb, hr⟩ := hc.2 (.mark .leftParen)
  obtain ⟨us, args', hls, hb', hr'⟩ :=
    items_regained (k := .mark .rightParen) (fun n hn => (ha n hn).2) (.inl rfl)
  have hf : Reads (.applied (covering ts).start callee') ts (.mark .leftParen) := .target hr
  have happlied := Reads.call (o := ofKind (.mark .leftParen)) (c := ofKind (.mark .rightParen))
    (k := k) hf rfl hr' rfl
  rw [← covering_start_append hr.ne_nil (ofKind (.mark .leftParen) ::
    (us ++ [ofKind (.mark .rightParen)]))] at happlied
  refine Regains.asExpression .application ⟨_, _, ?_, ?_, .application happlied
    hk.ne_leftParen hk.ne_leftSquare⟩ (by decide) hk
  · simp [hks, hls, ofKind, Expr.written]
  · simp [Expr.bare, hb, hb']

theorem index_regained {target place : Node} {span : Span}
    (ht : Rewritten lists .expression target) (hp : Rewritten lists .expression place)
    (hk : Closing k) :
    Regains .expression (.mk (.index target place) span)
      (Expr.written lists (.index target place)) k := by
  obtain ⟨ts, target', hks, hb, hr⟩ := ht.2 (.mark .leftSquare)
  obtain ⟨us, place', hls, hb', hr'⟩ := (hp.2 (.mark .rightSquare)).atLevel .expression (by decide)
  have hf : Reads (.applied (covering ts).start target') ts (.mark .leftSquare) := .target hr
  have happlied := Reads.index (o := ofKind (.mark .leftSquare)) (c := ofKind (.mark .rightSquare))
    (k := k) hf rfl hr' rfl
  rw [← covering_start_append hr.ne_nil (ofKind (.mark .leftSquare) ::
    (us ++ [ofKind (.mark .rightSquare)]))] at happlied
  refine Regains.asExpression .application ⟨_, _, ?_, ?_, .application happlied
    hk.ne_leftParen hk.ne_leftSquare⟩ (by decide) hk
  · simp [hks, hls, ofKind, Expr.written]
  · simp [Expr.bare, hb, hb']

theorem list_regained {items : List Node} {span : Span}
    (h : ∀ n ∈ items, Rewritten lists .expression n) (k : Kind) :
    Regains .atom (.mk (.list items) span) (Expr.written lists (.list items)) k := by
  obtain ⟨ts, items', hks, hb, hr⟩ :=
    items_regained (k := .mark .rightSquare) (fun n hn => (h n hn).2) (.inr rfl)
  refine ⟨_, _, ?_, ?_, .list (o := ofKind (.mark .leftSquare))
    (c := ofKind (.mark .rightSquare)) rfl hr rfl⟩
  · simp [hks, ofKind, Expr.written]
  · simp [Expr.bare, hb]

theorem assign_regained {name : String} {value : Node} {declare : Bool} {span : Span}
    (h : Rewritten lists .expression value) (hk : Closing k) :
    Regains .expression (.mk (.assign name value declare) span)
      (Expr.written lists (.assign name value declare)) k := by
  obtain ⟨ts, value', hks, hb, hr⟩ := (h.2 k).atLevel .expression (by simp [hk.reach, Level.rank])
  cases declare with
  | true =>
    refine ⟨_, _, ?_, ?_, .declare (w := ofKind (.keyword .var)) (v := ofKind (.identifier name))
      (q := ofKind (.mark .equal)) rfl rfl rfl hr⟩
    · simp [hks, ofKind, Expr.written]
    · simp [Expr.bare, hb]
  | false =>
    refine ⟨_, _, ?_, ?_, .rebind (v := ofKind (.identifier name)) (q := ofKind (.mark .equal))
      rfl rfl hr⟩
    · simp [hks, ofKind, Expr.written]
    · simp [Expr.bare, hb]

/-! ### Statements by themselves -/

/-- What is written alike as a statement and inside an expression. -/
theorem Rewritten.jump {e : Expr} {span : Span} (hp : e.plain lists = true)
    (hb : (Node.mk e span).isBlock = false)
    (h : ∀ k, 7 < reach k → Regains .statement (.mk e span) (e.written lists) k) :
    Rewritten lists .statement (.mk e span) := by
  refine ⟨fun k hk => ?_, fun k hk => ?_, hb⟩
  · simpa only [Node.written] using h k (by simp [hk.reach])
  · simpa only [Node.part, hp, if_true] using h k hk

theorem Formed.rewritten {role : Role} (h : Formed role n) : Rewritten lists role n := by
  induction h with
  | int n span => exact .literal (l := .int n) rfl rfl (by simp only [Expr.written]) span
  | float x span => exact .literal (l := .float x) rfl rfl (by simp only [Expr.written]) span
  | text s span => exact .literal (l := .text s) rfl rfl (by simp only [Expr.written]) span
  | var name span =>
    exact .literal (l := .identifier name) rfl rfl (by simp only [Expr.written]) span
  | list _ span ih =>
    cases lists with
    | true => exact .plain rfl (list_regained ih)
    | false =>
      exact .compound rfl fun k hk => (list_regained ih k).asExpression .atom (by decide) hk
  | assign _ name declare span ih => exact .compound rfl fun k hk => assign_regained ih hk
  | binary _ _ op span ih ih' =>
    refine .compound rfl fun k hk => ?_
    simpa only [Expr.written] using binary_regained ih.2 ih'.2 hk
  | unary _ op span ih =>
    refine .compound rfl fun k hk => ?_
    simpa only [Expr.written] using unary_regained ih.2 hk
  | ifElse hne _ _ _ span ih ih' ih'' =>
    exact .compound rfl fun k hk => ifElse_regained hne ih ih' ih'' hk
  | forTo _ _ _ _ var span ih₁ ih₂ ih₃ ih₄ =>
    exact .compound rfl fun k hk => forTo_regained ih₁ ih₂ ih₃ ih₄ hk
  | whileDo _ _ span ih ih' => exact .compound rfl fun k hk => whileDo_regained ih ih' hk
  | function _ name params span ih => exact .compound rfl fun k hk => function_regained ih hk
  | call _ _ span ih ih' => exact .compound rfl fun k hk => call_regained ih ih' hk
  | index _ _ span ih ih' => exact .compound rfl fun k hk => index_regained ih ih' hk
  | alone h ih =>
    refine ⟨fun k hk => ?_, fun k hk => (ih.2 k).atLevel .statement hk, h.notBlock (.inl rfl)⟩
    obtain ⟨ts, n', hks, hn, hr⟩ := ih.1 k hk
    exact ⟨ts, n', hks, hn, .expression hr⟩
  | @«return» value _ span ih =>
    refine .jump rfl rfl fun k hk => ?_
    cases value with
    | none =>
      exact ⟨[ofKind (.keyword .return)], _, by simp [ofKind, Expr.written], by simp,
        .returnNothing rfl (startsExpression_of_reach hk)⟩
    | some value =>
      obtain ⟨ts, value', hks, hb, hr⟩ :=
        ((ih value rfl).2 k).atLevel .expression (Nat.lt_of_succ_lt hk)
      refine ⟨ofKind (.keyword .return) :: ts, _, ?_, ?_, .returnValue rfl hr⟩
      · simp [hks, ofKind, Expr.written]
      · simp [Expr.bare, bareOption, hb]
  | «continue» span =>
    exact .jump rfl rfl fun k _ => ⟨[ofKind (.keyword .continue)], _,
      by simp [ofKind, Expr.written], by simp, .continue rfl⟩
  | «break» span =>
    exact .jump rfl rfl fun k _ => ⟨[ofKind (.keyword .break)], _,
      by simp [ofKind, Expr.written], by simp, .break rfl⟩
  | inline _ ih =>
    rw [Rewritten, if_neg (by simp [ih.2.2])]
    exact ih.2.1
  | lined _ span ih | routine _ span ih =>
    rw [Rewritten, if_pos (show (Node.mk (.block _) span).isBlock = true from rfl)]
    exact block_regained fun m hm => (ih m hm).1
  | arrow h ih =>
    rw [Rewritten, if_neg (by simp [h.notBlock (.inl rfl)])]
    exact ih.2

end Grammar

namespace Program

open Grammar

/-- Whatever is read as a program is well formed, and a well-formed program that is written down is
read as itself. -/
theorem ofTokens_written (lists : Bool) :
    (∀ ts p, Program.ofTokens ts = .ok p → ∀ n ∈ p.statements, Formed .statement n) ∧
    ∀ ns : List Node, (∀ n ∈ ns, Formed .statement n) → ∀ ts e,
      kinds ts = writtenRows lists ns → e.kind = .mark .stop →
      ∃ p, Program.ofTokens (ts ++ [e]) = .ok p ∧
        p.statements.map Node.bare = ns.map Node.bare := by
  refine ⟨fun ts p hp => ofTokens_formed hp, fun ns hns ts e hts he => ?_⟩
  obtain ⟨row, ns', hrow, hb, hr⟩ : ∃ row ns', kinds row = writtenRows lists ns ∧
      bareAll ns' = bareAll ns ∧ Reads (.lines [] ns') row (.mark .stop) := by
    cases ns with
    | nil => exact ⟨[], [], rfl, rfl, .noLines (.inl rfl)⟩
    | cons n ns =>
      have hlines : ∀ m ∈ n :: ns, ∀ k, Closing k → Regains .statement m (m.written lists) k :=
        fun m hm => (hns m hm).rewritten.1
      obtain ⟨row, ns', hrow, hb, hr⟩ := lines_regained (.inl ⟨rfl, rfl⟩) n ns hlines
      exact ⟨row, ns', by rw [hrow, List.append_nil, writtenRows], hb, hr⟩
  obtain ⟨p, hp, hlike⟩ := ofTokens_of_lines ts he (List.forall_mem_nil _) hr
    (by rw [hts, ← hrow, List.nil_append])
  exact ⟨p, hp, by rw [← bareAll_eq_map, ← bareAll_eq_map, hlike, hb]⟩

/-- An `IF` with a block, a body on the same line, and an empty block at its end. -/
def mixedBranches : Node :=
  unplaced (.ifElse
    [(unplaced (.var "a"), unplaced (.block [unplaced (.var "b")])),
      (unplaced (.unary .not (unplaced (.list []))), unplaced (.return none))]
    (some (unplaced (.block []))))

def mixedKinds : List Kind :=
  [.keyword .if, .identifier "a", .keyword .then, .mark .separator, .identifier "b",
    .mark .separator, .keyword .elif, .mark .leftParen, .keyword .not, .mark .leftParen,
    .mark .leftSquare, .mark .rightSquare, .mark .rightParen, .mark .rightParen,
    .keyword .then, .keyword .return, .keyword .else, .mark .separator, .mark .separator,
    .keyword .close]

theorem mixedBranches_written : writtenRows false [mixedBranches] = mixedKinds := by
  cbv

theorem mixedBranches_formed : Formed .statement mixedBranches := by
  refine .alone (.ifElse (by simp) ?_ ?_ ?_ _)
  · simp only [List.forall_mem_cons, List.not_mem_nil, false_imp_iff, implies_true, and_true]
    exact ⟨.var _ _, .unary (.list (List.forall_mem_nil _) _) _ _⟩
  · simp only [List.forall_mem_cons, List.not_mem_nil, false_imp_iff, implies_true, and_true]
    exact ⟨.lined (by simpa using .alone (.var _ _)) _, .inline (.return (by simp) _)⟩
  · rintro n ⟨⟩
    exact .lined (List.forall_mem_nil _) _

theorem ofTokens_written_mixedBranches : ∃ p,
    Program.ofTokens (mixedKinds.map ofKind ++ [ofKind (.mark .stop)]) = .ok p ∧
      p.statements.map Node.bare = [mixedBranches.bare] :=
  (ofTokens_written false).2 [mixedBranches] (List.forall_mem_singleton.mpr mixedBranches_formed)
    _ _ (by rw [kinds_ofKinds, mixedBranches_written]) rfl

end Program

end Scriptlet

import Scriptlet.Proofs.Grammar.Productions
import Scriptlet.Proofs.Grammar.Reparse

/-!
# The written grammar is what is read

Without the words that begin a compound expression, the readers read just the
texts that the written grammar derives, and as the trees that go with the
derivations. What a reader has read is derived, whatever comes next. What is
derived is read before every token that cannot go on with it.
-/

set_option autoImplicit false

namespace Scriptlet

open Token (Kind)

namespace Grammar

/-! ## What is read is derived -/

/-- None of the words that begin a compound expression. -/
def Simple (k : Kind) : Prop := ∀ w ∈ [Keyword.if, .for, .while, .fun], k ≠ .keyword w

def Derived : Phrase → List Kind → Prop
  | .node level n, ks => Derives (.node level n.bare) ks
  | .operands chain n, ks => ∃ first rest ls ms, ks = ls ++ ms ∧ n.bare = fromLeft first rest ∧
      Derives (.node chain.operand first) ls ∧ Derives (.rest chain rest) ms
  | .applied _ n, ks => ∃ target ts ls ms, ks = ls ++ ms ∧ n.bare = applyAll target ts ∧
      Derives (.node .atom target) ls ∧ Derives (.trailers ts) ms
  | .items ns, ks => Derives (.items (bareAll ns)) ks
  | .further ns, ks => Derives (.further (bareAll ns)) ks
  | .lines _ ns, ks => ns = [] ∧ ks = [] ∨ ∃ row seps, ks = row ++ seps ∧
      Derives (.rows (bareAll ns)) row ∧ ∀ k ∈ seps, k = .mark .separator
  | _, _ => True

/-- One trailer more after an atom. -/
theorem Derived.trailer {start : Position} {f n : Node} {ks ls : List Kind} {t : Trailer}
    (h : Derived (.applied start f) ks) (ht : Derives (.trailers [t]) ls)
    (hn : n.bare = t.on f.bare) : Derived (.applied start n) (ks ++ ls) := by
  obtain ⟨target, rs, ms, us, rfl, hf, hm, hu⟩ := h
  refine ⟨target, rs ++ [t], ms, us ++ ls, List.append_assoc .., ?_, hm, hu.trailers_append ht⟩
  rw [hn, applyAll_concat, hf]

/-- One operand more on the right. -/
theorem Derived.operand {chain : Chain} {l n r : Node} {op : BinaryOp} {k : Kind}
    {ks ls : List Kind} (h : Derived (.operands chain l) ks) (hj : Joins chain k op)
    (hr : Derives (.node chain.operand r) ls) (hn : n.bare = unplaced (.binary op l.bare r)) :
    Derived (.operands chain n) (ks ++ k :: ls) := by
  obtain ⟨first, rest, ms, us, rfl, hl, hm, hu⟩ := h
  refine ⟨first, rest ++ [(op, r)], ms, us ++ k :: ls, List.append_assoc .., ?_, hm,
    hu.rest_concat hj hr⟩
  rw [hn, fromLeft_concat, hl]

theorem separators_kinds {seps : List Token} (h : ∀ t ∈ seps, t.kind = .mark .separator) :
    ∀ k ∈ kinds seps, k = .mark .separator := by
  intro k hk
  obtain ⟨t, ht, rfl⟩ := List.mem_map.mp hk
  exact h t ht

theorem Reads.derived {p : Phrase} {ts : List Token} {k : Kind} (h : Reads p ts k)
    (hw : ∀ t ∈ ts, Simple t.kind) : Derived p (kinds ts) := by
  induction h with
  | @literal t e k h =>
    cases hk : t.kind <;> simp only [hk, literal?, Option.some.injEq, reduceCtorEq] at h <;>
      subst h <;> simp only [Derived, kinds_cons, kinds_nil, hk] <;> constructor
  | @parens o c inner ts k ho _ hc ih =>
    have h := Derives.parens (ih fun t ht => hw t (by simp [ht]))
    have hb : (Node.mk inner.expr ⟨o.span.start, c.span.stop⟩).bare = inner.bare :=
      Node.bare_eq_iff.mpr rfl
    simpa [Derived, hb, ho, hc] using h
  | list ho _ hc ih =>
    have h := Derives.list (ih fun t ht => hw t (by simp [ht]))
    change Derives (.node _ _) _
    simp only [kinds_cons, kinds_append, kinds_nil, ho, hc]
    exact h
  | ifElse hw' _ _ => exact absurd hw' (hw _ (by simp) .if (by simp))
  | forTo hw' => exact absurd hw' (hw _ (by simp) .for (by simp))
  | whileDo hw' => exact absurd hw' (hw _ (by simp) .while (by simp))
  | function hw' => exact absurd hw' (hw _ (by simp) .fun (by simp))
  | target _ ih =>
    exact ⟨_, [], _, [], (List.append_nil _).symm, rfl, ih hw, .noTrailers⟩
  | call _ ho _ hc ih ih' =>
    have hargs := Derives.call (ih' fun t ht => hw t (by simp [ht])) .noTrailers
    rw [kinds_append]
    exact .trailer (ih fun t ht => hw t (by simp [ht])) (by simpa [ho, hc] using hargs) rfl
  | index _ ho _ hc ih ih' =>
    have hplace := Derives.index (ih' fun t ht => hw t (by simp [ht])) .noTrailers
    rw [kinds_append]
    exact .trailer (ih fun t ht => hw t (by simp [ht])) (by simpa [ho, hc] using hplace) rfl
  | application _ _ _ ih =>
    obtain ⟨target, rs, ls, ms, hks, hn, ht, hr⟩ := ih hw
    simp only [Derived]
    rw [hks, hn]
    exact .application ht hr
  | base _ _ ih => exact .base (ih hw)
  | power _ ho _ ih ih' =>
    have h := Derives.power (ih fun t ht => hw t (by simp [ht]))
      (ih' fun t ht => hw t (by simp [ht]))
    change Derives (.node _ _) _
    simp only [kinds_append, kinds_cons, ho]
    exact h
  | unsigned _ ih => exact .unsigned (ih hw)
  | signed hs _ ih =>
    exact Derives.signed (signs_iff.mpr hs) (ih fun t ht => hw t (by simp [ht]))
  | first _ ih => exact ⟨_, [], _, [], (List.append_nil _).symm, rfl, ih hw, .noRest⟩
  | joined _ ho _ ih ih' =>
    rw [kinds_append]
    exact .operand (ih fun t ht => hw t (by simp [ht])) (joins_iff.mpr ho)
      (ih' fun t ht => hw t (by simp [ht])) rfl
  | chain _ _ _ ih =>
    obtain ⟨first, rest, ls, ms, hks, hn, hf, hr⟩ := ih hw
    simp only [Derived]
    rw [hks, hn]
    exact .chain hf hr
  | not hw' _ ih =>
    have h := Derives.not (ih fun t ht => hw t (by simp [ht]))
    change Derives (.node _ _) (_ :: _)
    rw [hw']
    exact h
  | @declare w v q name x ts k hw' hv hq _ ih =>
    have h := ih fun t ht => hw t (by simp [ht])
    change Derives (.node _ _) (_ :: _ :: _ :: _)
    rw [hw', hv, hq]
    exact .declare h
  | @rebind v q name x ts k hv hq _ ih =>
    have h := ih fun t ht => hw t (by simp [ht])
    change Derives (.node _ _) (_ :: _ :: _)
    rw [hv, hq]
    exact .rebind h
  | returnNothing hw' _ =>
    change Derives (.node _ _) [_]
    rw [hw']
    exact .returnNothing
  | returnValue hw' _ ih =>
    have h := Derives.returnValue (ih fun t ht => hw t (by simp [ht]))
    change Derives (.node _ _) (_ :: _)
    rw [hw']
    exact h
  | «continue» hw' =>
    change Derives (.node _ _) [_]
    rw [hw']
    exact .continue
  | «break» hw' =>
    change Derives (.node _ _) [_]
    rw [hw']
    exact .break
  | expression _ ih => exact .expression (ih hw)
  | noItems => exact .noItems
  | items _ _ ih ih' =>
    rw [kinds_append]
    exact .items (ih fun t ht => hw t (by simp [ht])) (ih' fun t ht => hw t (by simp [ht]))
  | noFurther _ => exact .noFurther
  | further hc _ _ ih ih' =>
    have h := Derives.further (ih fun t ht => hw t (by simp [ht]))
      (ih' fun t ht => hw t (by simp [ht]))
    change Derives (.further _) (_ :: _)
    rw [hc, List.map_append]
    exact h
  | noLines _ => exact .inl ⟨rfl, rfl⟩
  | lastLine _ _ ih =>
    exact .inr ⟨_, [], (List.append_nil _).symm, .row (ih hw), by simp⟩
  | @line close n ns ts seps us k _ hs _ ih ih' =>
    have hrow := ih fun t ht => hw t (by simp [ht])
    have hseps := separators_kinds hs.2
    rw [kinds_append, kinds_append]
    rcases ih' fun t ht => hw t (by simp [ht]) with ⟨rfl, hks⟩ | ⟨row, tail, hks, hrows, htail⟩
    · exact .inr ⟨_, kinds seps, by rw [hks, List.append_nil], .row hrow, hseps⟩
    · refine .inr ⟨_, tail, ?_, .rows hrow (by simpa [kinds] using hs.1) hseps hrows, htail⟩
      rw [hks]
      simp
  | _ => trivial

/-! ## What is derived is read -/

/-- Nothing that comes after a factor is told apart from what comes after a power. -/
def Level.rank : Level → Nat
  | .atom => 0
  | .application => 1
  | .power | .factor => 2
  | .product => 3
  | .sum => 4
  | .comparison => 5
  | .expression => 6
  | .statement => 7

/-- The rank of the tightest production that goes on with a token of this kind. -/
def reach : Kind → Nat
  | .mark .leftParen | .mark .leftSquare => 1
  | .mark .caret => 2
  | .mark .times | .mark .slash | .mark .bar | .mark .percent => 3
  | .mark .plus | .mark .minus => 4
  | .mark .equalEqual | .mark .notEqual | .mark .less | .mark .greater | .mark .lessEqual
  | .mark .greaterEqual => 5
  | .keyword .and | .keyword .or | .mark .equal => 6
  | k => if startsExpression k then 7 else 8

theorem Joins.reach {chain : Chain} {k : Kind} {op : BinaryOp} (h : Joins chain k op) :
    reach k = chain.level.rank := by
  cases h <;> rfl

theorem Chain.operand_rank (chain : Chain) : chain.operand.rank < chain.level.rank := by
  cases chain <;> decide

theorem Chain.op?_of_reach {chain : Chain} {k : Kind} (h : chain.level.rank < reach k) :
    chain.op? k = none := by
  cases hop : chain.op? k with
  | none => rfl
  | some op => exact absurd (joins_iff.mpr hop).reach (Nat.ne_of_gt h)

theorem ne_of_reach {k l : Kind} (h : reach l < reach k) : k ≠ l := by
  rintro rfl
  exact Nat.lt_irrefl _ h

theorem startsExpression_of_reach {k : Kind} (h : 7 < reach k) : startsExpression k = false := by
  cases k with
  | mark m => cases m <;> first | rfl | simp [reach] at h
  | keyword w => cases w <;> first | rfl | simp [reach, startsExpression] at h
  | _ => simp [reach, startsExpression] at h

theorem reach_pos (k : Kind) : 0 < reach k := by
  unfold reach
  split <;> first | omega | (split <;> omega)

theorem assigns_before {ts : List Token} {k : Kind} (hne : ts ≠ [])
    (h : assigns (kinds ts) = false) (hk : k ≠ .mark .equal) :
    assigns (kinds ts ++ [k]) = false := by
  have h : assigns (kinds (ts ++ ⟨k, default⟩ :: [])) = false := assigns_append hne h hk
  simpa using h

/-- A token without a place. -/
def ofKind (k : Kind) : Token := ⟨k, default⟩

/-- The tokens that are read in the place of a derived text, where no token of `k` can go on with
it. -/
def Readable : Symbol → List Kind → Prop
  | .node level n, ks => ∀ k, level.rank < reach k →
      ∃ ts n', kinds ts = ks ∧ n'.bare = n ∧ Reads (.node level n') ts k
  | .rest chain ops, ks => ∀ k, chain.level.rank < reach k →
      chain.operand.rank < reach (ahead ks k) ∧
      ∀ l ts, Reads (.operands chain l) ts (ahead ks k) → ∃ us l', kinds us = ks ∧
        l'.bare = fromLeft l.bare ops ∧ Reads (.operands chain l') (ts ++ us) k
  | .trailers rs, ks => ∀ k, 1 < reach k → ∀ start f ts, Reads (.applied start f) ts (ahead ks k) →
      ∃ us f', kinds us = ks ∧ f'.bare = applyAll f.bare rs ∧
        Reads (.applied start f') (ts ++ us) k
  | .items ns, ks => ∀ k, k = .mark .rightParen ∨ k = .mark .rightSquare →
      ∃ ts ns', kinds ts = ks ∧ bareAll ns' = ns ∧ Reads (.items ns') ts k
  | .further ns, ks => ∀ k, k = .mark .rightParen ∨ k = .mark .rightSquare →
      6 < reach (ahead ks k) ∧
      ∃ ts ns', kinds ts = ks ∧ bareAll ns' = ns ∧ Reads (.further ns') ts k
  | .rows ns, ks => ∀ seps : List Token, (∀ t ∈ seps, t.kind = .mark .separator) →
      ∃ ts ns', kinds ts = ks ∧ bareAll ns' = ns ∧
        Reads (.lines [] ns') (ts ++ seps) (.mark .stop)
  | .program ns, ks => ∃ seps ts ns', kinds (seps ++ ts) = ks ∧
      (∀ t ∈ seps, t.kind = .mark .separator) ∧ bareAll ns' = ns ∧
      Reads (.lines [] ns') ts (.mark .stop)

theorem kinds_ofKinds (ks : List Kind) : kinds (ks.map ofKind) = ks := by
  induction ks with
  | nil => rfl
  | cons k ks ih => exact congrArg (k :: ·) ih

theorem separators_ofKinds {ks : List Kind} (h : ∀ k ∈ ks, k = .mark .separator) :
    ∀ t ∈ ks.map ofKind, t.kind = .mark .separator := by
  intro t ht
  obtain ⟨k, hk, rfl⟩ := List.mem_map.mp ht
  exact h k hk

namespace Readable

variable {n : Node} {ns : List Node} {ks ls : List Kind}

theorem literal {k : Kind} {e : Expr} (h : literal? k = some e) (he : e.bare = e) :
    Readable (.node .atom (unplaced e)) [k] := fun _ _ =>
  ⟨[ofKind k], .mk e (ofKind k).span, rfl, by rw [Node.bare_mk, he]; rfl, .literal h⟩

theorem parens (h : Readable (.node .expression n) ks) :
    Readable (.node .atom n) (.mark .leftParen :: (ks ++ [.mark .rightParen])) := by
  intro k _
  obtain ⟨ts, n', hks, hn, hr⟩ := h (.mark .rightParen) (by decide)
  refine ⟨ofKind (.mark .leftParen) :: (ts ++ [ofKind (.mark .rightParen)]), _, ?_, ?_,
    .parens rfl hr rfl⟩
  · simp [hks, ofKind]
  · rw [← hn, Node.bare_eq_iff, Node.expr]

theorem list (h : Readable (.items ns) ks) : Readable (.node .atom (unplaced (.list ns)))
    (.mark .leftSquare :: (ks ++ [.mark .rightSquare])) := by
  intro k _
  obtain ⟨ts, ns', hks, hn, hr⟩ := h (.mark .rightSquare) (.inr rfl)
  refine ⟨ofKind (.mark .leftSquare) :: (ts ++ [ofKind (.mark .rightSquare)]), _, ?_, ?_,
    .list rfl hr rfl⟩
  · simp [hks, ofKind]
  · rw [← hn]
    rfl

theorem items (h : Readable (.node .expression n) ks) (h' : Readable (.further ns) ls) :
    Readable (.items (n :: ns)) (ks ++ ls) := by
  intro k hk
  obtain ⟨hnext, us, ns', hls, hns, hr'⟩ := h' k hk
  obtain ⟨ts, n', hks, hn, hr⟩ := h _ hnext
  rw [← hls, ← following_eq] at hr
  exact ⟨ts ++ us, n' :: ns', by rw [kinds_append, hks, hls], by rw [bareAll, hn, hns],
    .items hr hr'⟩

theorem noFurther : Readable (.further []) [] := by
  intro k hk
  refine ⟨?_, [], [], rfl, rfl, .noFurther ?_⟩
  · rcases hk with rfl | rfl <;> decide
  · rcases hk with rfl | rfl <;> simp

theorem further (h : Readable (.node .expression n) ks) (h' : Readable (.further ns) ls) :
    Readable (.further (n :: ns)) (.mark .comma :: (ks ++ ls)) := by
  intro k hk
  obtain ⟨hnext, us, ns', hls, hns, hr'⟩ := h' k hk
  obtain ⟨ts, n', hks, hn, hr⟩ := h _ hnext
  rw [← hls, ← following_eq] at hr
  exact ⟨by simp; decide, ofKind (.mark .comma) :: (ts ++ us), n' :: ns',
    by simp [hks, hls, ofKind], by rw [bareAll, hn, hns], .further rfl hr hr'⟩

theorem application {rs : List Trailer} (h : Readable (.node .atom n) ks)
    (h' : Readable (.trailers rs) ls) :
    Readable (.node .application (applyAll n rs)) (ks ++ ls) := by
  intro k hk
  obtain ⟨ts, n', hks, hn, hr⟩ := h (ahead ls k) (reach_pos _)
  obtain ⟨us, f', hls, hf, hr'⟩ := h' k hk (covering ts).start n' ts (.target hr)
  rw [← covering_start_append hr.ne_nil us] at hr'
  exact ⟨ts ++ us, f', by rw [kinds_append, hks, hls], by rw [hf, hn],
    .application hr' (ne_of_reach hk) (ne_of_reach hk)⟩

theorem call {rs : List Trailer} (h : Readable (.items ns) ks) (h' : Readable (.trailers rs) ls) :
    Readable (.trailers (.args ns :: rs))
      (.mark .leftParen :: (ks ++ .mark .rightParen :: ls)) := by
  intro k hk start f ts hf
  obtain ⟨us, ns', hks, hns, hr⟩ := h (.mark .rightParen) (.inl rfl)
  obtain ⟨vs, f', hls, hf', hr'⟩ := h' k hk start _ _
    (.call (o := ofKind (.mark .leftParen)) (c := ofKind (.mark .rightParen)) hf rfl hr rfl)
  refine ⟨ofKind (.mark .leftParen) :: (us ++ ofKind (.mark .rightParen) :: vs), f', ?_, ?_, ?_⟩
  · simp [hks, hls, ofKind]
  · rw [hf', ← hns]
    rfl
  · simpa using hr'

theorem index {rs : List Trailer} (h : Readable (.node .expression n) ks)
    (h' : Readable (.trailers rs) ls) : Readable (.trailers (.place n :: rs))
      (.mark .leftSquare :: (ks ++ .mark .rightSquare :: ls)) := by
  intro k hk start f ts hf
  obtain ⟨us, n', hks, hn, hr⟩ := h (.mark .rightSquare) (by decide)
  obtain ⟨vs, f', hls, hf', hr'⟩ := h' k hk start _ _
    (.index (o := ofKind (.mark .leftSquare)) (c := ofKind (.mark .rightSquare)) hf rfl hr rfl)
  refine ⟨ofKind (.mark .leftSquare) :: (us ++ ofKind (.mark .rightSquare) :: vs), f', ?_, ?_, ?_⟩
  · simp [hks, hls, ofKind]
  · rw [hf', ← hn]
    rfl
  · simpa using hr'

theorem power {x : Node} (h : Readable (.node .application n) ks)
    (h' : Readable (.node .factor x) ls) :
    Readable (.node .power (unplaced (.binary .pow n x))) (ks ++ .mark .caret :: ls) := by
  intro k hk
  obtain ⟨us, x', hls, hx, hr'⟩ := h' k hk
  obtain ⟨ts, n', hks, hn, hr⟩ := h (.mark .caret) (by decide)
  refine ⟨ts ++ ofKind (.mark .caret) :: us, _, ?_, ?_, .power hr rfl hr'⟩
  · simp [hks, hls, ofKind]
  · rw [← hn, ← hx]
    rfl

theorem chain {c : Chain} {ops : List (BinaryOp × Node)} (h : Readable (.node c.operand n) ks)
    (h' : Readable (.rest c ops) ls) : Readable (.node c.level (fromLeft n ops)) (ks ++ ls) := by
  intro k hk
  obtain ⟨hnext, hrest⟩ := h' k hk
  obtain ⟨ts, n', hks, hn, hr⟩ := h _ hnext
  obtain ⟨us, l', hls, hl, hr'⟩ := hrest n' ts (.first hr)
  refine ⟨ts ++ us, l', by rw [kinds_append, hks, hls], by rw [hl, hn],
    .chain hr' (Chain.op?_of_reach hk) fun hc => ?_⟩
  obtain ⟨t, vs, hts, -, ha⟩ := hr'.opens
  subst hc
  exact assigns_before (by simp [hts]) ha (ne_of_reach hk)

theorem noRest (c : Chain) : Readable (.rest c []) [] := fun _ hk =>
  ⟨Nat.lt_trans c.operand_rank hk, fun l ts hl => ⟨[], l, rfl, rfl, by rwa [List.append_nil]⟩⟩

theorem rest {c : Chain} {k' : Kind} {op : BinaryOp} {ops : List (BinaryOp × Node)}
    (hj : Joins c k' op) (h : Readable (.node c.operand n) ks) (h' : Readable (.rest c ops) ls) :
    Readable (.rest c ((op, n) :: ops)) (k' :: (ks ++ ls)) := by
  intro k hk
  refine ⟨hj.reach ▸ c.operand_rank, fun l ts hl => ?_⟩
  obtain ⟨hnext, hrest⟩ := h' k hk
  obtain ⟨us, r', hks, hr, hread⟩ := h _ hnext
  obtain ⟨vs, l', hls, hl', hread'⟩ := hrest _ _
    (.joined (o := ofKind k') hl (joins_iff.mp hj) hread)
  refine ⟨ofKind k' :: (us ++ vs), l', ?_, ?_, ?_⟩
  · simp [hks, hls, ofKind]
  · rw [hl', ← hr]
    rfl
  · simpa using hread'

/-- What is read at one level and stands at another by itself. -/
theorem lifted {level level' : Level} (h : Readable (.node level n) ks)
    (hle : level.rank ≤ level'.rank)
    (step : ∀ {ts n' k}, level'.rank < reach k → Reads (.node level n') ts k →
      Reads (.node level' n') ts k) : Readable (.node level' n) ks := by
  intro k hk
  obtain ⟨ts, n', hks, hn, hr⟩ := h k (Nat.lt_of_le_of_lt hle hk)
  exact ⟨ts, n', hks, hn, step hk hr⟩

/-- What is read at one level and stands at another after further words. -/
theorem prefixed {level level' : Level} (h : Readable (.node level n) ks) (ws : List Kind)
    (f : Node → Expr) (hle : level.rank ≤ level'.rank)
    (hf : ∀ m, (f m).bare = f m.bare)
    (step : ∀ {ts n' k}, Reads (.node level n') ts k →
      ∃ span, Reads (.node level' (.mk (f n') span)) (ws.map ofKind ++ ts) k) :
    Readable (.node level' (unplaced (f n))) (ws ++ ks) := by
  intro k hk
  obtain ⟨ts, n', hks, hn, hr⟩ := h k (Nat.lt_of_le_of_lt hle hk)
  obtain ⟨span, hr'⟩ := step hr
  refine ⟨ws.map ofKind ++ ts, _, by rw [kinds_append, kinds_ofKinds, hks], ?_, hr'⟩
  rw [Node.bare_mk, hf, hn, unplaced]

theorem row (h : Readable (.node .statement n) ks) : Readable (.rows [n]) ks := by
  intro seps hs
  cases seps with
  | nil =>
    obtain ⟨ts, n', hks, hn, hr⟩ := h (.mark .stop) (by decide)
    refine ⟨ts, [n'], hks, by rw [bareAll, hn]; rfl, ?_⟩
    have hrow : Reads (.lines [] [n']) ts (.mark .stop) := .lastLine hr (by simp)
    simpa using hrow
  | cons t seps =>
    obtain ⟨ts, n', hks, hn, hr⟩ := h (.mark .separator) (by decide)
    refine ⟨ts, [n'], hks, by rw [bareAll, hn]; rfl, ?_⟩
    have hend : Reads (.lines [] []) [] (.mark .stop) := .noLines (.inl rfl)
    simpa using Reads.line hr ⟨by simp, hs⟩ hend

theorem rows {seps : List Kind} (h : Readable (.node .statement n) ks) (hne : seps ≠ [])
    (hs : ∀ k ∈ seps, k = .mark .separator) (h' : Readable (.rows ns) ls) :
    Readable (.rows (n :: ns)) (ks ++ (seps ++ ls)) := by
  intro tail htail
  obtain ⟨ts, n', hks, hn, hr⟩ := h (.mark .separator) (by decide)
  obtain ⟨us, ns', hls, hns, hr'⟩ := h' tail htail
  refine ⟨ts ++ (seps.map ofKind ++ us), n' :: ns', ?_, by rw [bareAll, hn, hns], ?_⟩
  · rw [kinds_append, kinds_append, kinds_ofKinds, hks, hls]
  · simpa using Reads.line hr ⟨by simpa using hne, separators_ofKinds hs⟩ hr'

theorem program {seps seps' : List Kind} (hs : ∀ k ∈ seps, k = .mark .separator)
    (h : Readable (.rows ns) ks) (hs' : ∀ k ∈ seps', k = .mark .separator) :
    Readable (.program ns) (seps ++ (ks ++ seps')) := by
  obtain ⟨ts, ns', hks, hns, hr⟩ := h (seps'.map ofKind) (separators_ofKinds hs')
  refine ⟨seps.map ofKind, ts ++ seps'.map ofKind, ns', ?_, separators_ofKinds hs, hns, hr⟩
  rw [kinds_append, kinds_append, kinds_ofKinds, kinds_ofKinds, hks]

end Readable

theorem Derives.readable {s : Symbol} {ks : List Kind} (h : Derives s ks) : Readable s ks := by
  induction h with
  | int | float | text | identifier => exact .literal rfl (by simp only [Expr.bare])
  | parens _ ih => exact ih.parens
  | list _ ih => exact ih.list
  | noItems => exact fun k _ => ⟨[], [], rfl, rfl, .noItems⟩
  | items _ _ ih ih' => exact ih.items ih'
  | noFurther => exact .noFurther
  | further _ _ ih ih' => exact ih.further ih'
  | application _ _ ih ih' => exact ih.application ih'
  | noTrailers => exact fun k _ start f ts hf => ⟨[], f, rfl, rfl, by rwa [List.append_nil]⟩
  | call _ _ ih ih' => exact ih.call ih'
  | index _ _ ih ih' => exact ih.index ih'
  | base _ ih => exact ih.lifted (by decide) fun hk hr => .base hr (ne_of_reach hk)
  | power _ _ ih ih' => exact ih.power ih'
  | unsigned _ ih => exact ih.lifted (Nat.le_refl _) fun _ hr => .unsigned hr
  | @signed k op _ _ hs _ ih =>
    exact ih.prefixed [k] (.unary op) (Nat.le_refl _) (fun _ => rfl)
      fun hr => ⟨_, .signed (signs_iff.mp hs) hr⟩
  | chain _ _ ih ih' => exact ih.chain ih'
  | noRest => exact .noRest _
  | rest hj _ _ ih ih' => exact .rest hj ih ih'
  | not _ ih =>
    exact ih.prefixed [.keyword .not] (.unary .not) (Nat.le_refl _) (fun _ => rfl)
      fun hr => ⟨_, .not rfl hr⟩
  | @declare name _ _ _ ih =>
    exact ih.prefixed [.keyword .var, .identifier name, .mark .equal]
      (.assign name · true) (Nat.le_refl _) (fun _ => rfl)
      fun hr => ⟨_, .declare rfl rfl rfl hr⟩
  | @rebind name _ _ _ ih =>
    exact ih.prefixed [.identifier name, .mark .equal] (.assign name · false)
      (Nat.le_refl _) (fun _ => rfl) fun hr => ⟨_, .rebind rfl rfl hr⟩
  | returnNothing =>
    exact fun k hk => ⟨[ofKind (.keyword .return)], _, rfl, rfl,
      .returnNothing rfl (startsExpression_of_reach hk)⟩
  | returnValue _ ih =>
    exact ih.prefixed [.keyword .return] (.return <| some ·) (by decide)
      (fun _ => rfl) fun hr => ⟨_, .returnValue rfl hr⟩
  | «continue» => exact fun k _ => ⟨[ofKind (.keyword .continue)], _, rfl, rfl, .continue rfl⟩
  | «break» => exact fun k _ => ⟨[ofKind (.keyword .break)], _, rfl, rfl, .break rfl⟩
  | expression _ ih => exact ih.lifted (by decide) fun _ hr => .expression hr
  | row _ ih => exact ih.row
  | rows _ hne hs _ ih ih' => exact ih.rows hne hs ih'
  | program hs _ hs' ih => exact .program hs ih hs'

end Grammar

/-! ## Programs -/

namespace Program

open Grammar

variable {ts : List Token} {e : Token}

/-- What stands before the end of the text, where it ends one row of tokens and begins a rest of
it. -/
theorem append_stop_unique {us rest : List Token} (he : e.kind = .mark .stop)
    (hts : ∀ t ∈ ts, t.kind ≠ .mark .stop) (hus : ∀ t ∈ us, t.kind ≠ .mark .stop)
    (hk : following rest (.mark .stop) = .mark .stop) (h : ts ++ [e] = us ++ rest) :
    ts = us ∧ rest = [e] := by
  rcases List.append_eq_append_iff.mp h with ⟨mid, rfl, hend⟩ | ⟨mid, rfl, hend⟩
  · cases mid with
    | nil => exact ⟨(List.append_nil _).symm, hend.symm⟩
    | cons t mid =>
      obtain ⟨rfl, -⟩ := List.cons.inj hend
      exact absurd he (hus e (by simp))
  · cases mid with
    | nil => exact ⟨List.append_nil _, hend⟩
    | cons t mid =>
      rw [hend] at hk
      exact absurd hk (hts t (by simp))

theorem ofTokens_ok (he : e.kind = .mark .stop) {p : Program}
    (h : Program.ofTokens (ts ++ [e]) = .ok p) :
    ∃ c', Grammar.program (.ofTokens (ts ++ [e])) = .ok (p, c') := by
  simp only [Program.ofTokens, closed_stop he] at h
  cases hrun : Grammar.program (.ofTokens (ts ++ [e])) with
  | error e => simp [hrun] at h
  | ok r =>
    obtain ⟨p', c'⟩ := r
    simp only [hrun, Except.ok.injEq] at h
    exact ⟨c', by rw [h]⟩

/-- A program is read from all tokens before the end. -/
theorem lines_of_ofTokens (he : e.kind = .mark .stop) (hstop : ∀ t ∈ ts, t.kind ≠ .mark .stop)
    {p : Program} (h : Program.ofTokens (ts ++ [e]) = .ok p) :
    ∃ seps row, ts = seps ++ row ∧ (∀ t ∈ seps, t.kind = .mark .separator) ∧
      Reads (.lines [] p.statements) row (.mark .stop) := by
  obtain ⟨c', hrun⟩ := ofTokens_ok he h
  obtain ⟨seps, row, hseps, ha, hr, hk⟩ := program_sound hrun
  have hnone : ∀ t ∈ seps ++ row, t.kind ≠ .mark .stop := fun t ht =>
    (List.mem_append.mp ht).elim (fun ht => by simp [hseps t ht]) (hr.no_stop t)
  rw [Cursor.kind_eq] at hk
  exact ⟨seps, row, (append_stop_unique he hstop hnone hk ha.rest).1, hseps, hr⟩

/-- Tokens of the same kinds as some that are read make a program. -/
theorem ofTokens_of_lines (ts : List Token) (he : e.kind = .mark .stop) {seps row : List Token}
    {ns : List Node}
    (hs : ∀ t ∈ seps, t.kind = .mark .separator)
    (h : Reads (.lines [] ns) row (.mark .stop)) (hk : kinds ts = kinds (seps ++ row)) :
    ∃ p, Program.ofTokens (ts ++ [e]) = .ok p ∧ bareAll p.statements = bareAll ns := by
  obtain ⟨p, c', hp, hlike, -⟩ := program_accepts_after hs h (.ofTokens (ts ++ [e])) ts [e] rfl
    (by rw [hk, kinds_append]) he
  exact ⟨p, by simp only [Program.ofTokens, closed_stop he, hp], hlike⟩

theorem ofTokens_derives (he : e.kind = .mark .stop) (hstop : ∀ t ∈ ts, t.kind ≠ .mark .stop)
    (hw : ∀ t ∈ ts, Simple t.kind) (ns : List Node) :
    (∃ p, Program.ofTokens (ts ++ [e]) = .ok p ∧ p.statements.map Node.bare = ns) ↔
      (∀ t ∈ ts, t.kind = .mark .separator) ∧ ns = [] ∨ Derives (.program ns) (kinds ts) := by
  constructor
  · rintro ⟨p, hp, rfl⟩
    obtain ⟨seps, row, rfl, hseps, hr⟩ := lines_of_ofTokens he hstop hp
    rcases hr.derived fun t ht => hw t (by simp [ht]) with ⟨hnil, hks⟩ | ⟨rows, tail, hks, hd, ht⟩
    · obtain rfl := List.map_eq_nil_iff.mp hks
      exact .inl ⟨by simpa using hseps, by rw [hnil]; rfl⟩
    · rw [kinds_append, hks, ← bareAll_eq_map]
      exact .inr (.program (separators_kinds hseps) hd ht)
  · rintro (⟨hseps, rfl⟩ | hd)
    · have hend : Reads (.lines [] []) [] (.mark .stop) := .noLines (.inl rfl)
      obtain ⟨p, hp, hns⟩ := ofTokens_of_lines ts he hseps hend (by simp)
      exact ⟨p, hp, by rw [← bareAll_eq_map, hns]; rfl⟩
    · obtain ⟨seps, row, ns', hks, hseps, hns, hr⟩ := hd.readable
      obtain ⟨p, hp, hlike⟩ := ofTokens_of_lines ts he hseps hr hks.symm
      exact ⟨p, hp, by rw [← bareAll_eq_map, hlike, hns]⟩

/-- Where no word begins a compound expression, a row of tokens is a program if and only if it has
newlines only or the written grammar derives it, and its statements are the tree of the
derivation. -/
theorem ofTokens_iff_derives (he : e.kind = .mark .stop) (hstop : ∀ t ∈ ts, t.kind ≠ .mark .stop)
    (hw : ∀ t ∈ ts, ∀ w ∈ [Keyword.if, .for, .while, .fun], t.kind ≠ .keyword w) :
    ((∃ p, Program.ofTokens (ts ++ [e]) = .ok p) ↔
      (∀ t ∈ ts, t.kind = .mark .separator) ∨ ∃ ns, Derives (.program ns) (kinds ts)) ∧
    ∀ p, Program.ofTokens (ts ++ [e]) = .ok p → ∀ ns,
      ((∀ t ∈ ts, t.kind = .mark .separator) ∧ ns = [] ∨ Derives (.program ns) (kinds ts)) ↔
        p.statements.map Node.bare = ns := by
  have hiff := ofTokens_derives he hstop hw
  refine ⟨⟨?_, ?_⟩, fun p hp ns => ?_⟩
  · rintro ⟨p, hp⟩
    exact ((hiff _).mp ⟨p, hp, rfl⟩).imp And.left fun hd => ⟨_, hd⟩
  · rintro (hs | ⟨ns, hd⟩)
    · exact ((hiff []).mpr (.inl ⟨hs, rfl⟩)).imp fun _ => And.left
    · exact ((hiff ns).mpr (.inr hd)).imp fun _ => And.left
  · rw [← hiff ns]
    constructor
    · rintro ⟨q, hq, hns⟩
      obtain rfl := Except.ok.inj (hp.symm.trans hq)
      exact hns
    · exact fun hns => ⟨p, hp, hns⟩

/-- `-2 ^ -x - 1 - 2` -/
def signedPower : List Token :=
  [.mark .minus, .int 2, .mark .caret, .mark .minus, .identifier "x", .mark .minus, .int 1,
    .mark .minus, .int 2].map ofKind

def signedPowerTree : Node :=
  let power := unplaced (.binary .pow (unplaced (.int 2))
    (unplaced (.unary .neg (unplaced (.var "x")))))
  fromLeft (unplaced (.unary .neg power)) [(.sub, unplaced (.int 1)), (.sub, unplaced (.int 2))]

/-- A sign takes the power after it, a power the sign on its right, and differences associate to
the left. -/
theorem ofTokens_iff_derives_signedPower :
    (∃ p, Program.ofTokens (signedPower ++ [ofKind (.mark .stop)]) = .ok p ∧
      p.statements.map Node.bare = [signedPowerTree]) ∧
    Derives (.program [signedPowerTree]) (kinds signedPower) := by
  have hrun : ∃ p, Program.ofTokens (signedPower ++ [ofKind (.mark .stop)]) = .ok p ∧
      p.statements.map Node.bare = [signedPowerTree] := ⟨_, by cbv, by cbv⟩
  refine ⟨hrun, ?_⟩
  obtain ⟨p, hp, htree⟩ := hrun
  have hiff := (ofTokens_iff_derives rfl (by simp [signedPower, ofKind])
    (by simp [signedPower, ofKind])).2 p hp
  refine ((hiff _).mpr htree).resolve_left fun h => ?_
  simp at h

end Program

end Scriptlet

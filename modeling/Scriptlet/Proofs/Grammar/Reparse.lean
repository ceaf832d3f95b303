import Scriptlet.Proofs.Grammar.Complete
import Scriptlet.Proofs.Grammar.Parts
import Scriptlet.Proofs.Grammar.Sound
import Scriptlet.Program.Reading
import Mathlib

/-!
# Reading a node again

The text under the span of a node, taken by itself, is a program of that node
alone. The tokens under the span are those that the node was read from, the
text under it is lexed to tokens of the same kinds, and these are read as the
node whatever came after it before.
-/

set_option autoImplicit false

namespace Scriptlet

open Token (Kind)

namespace Grammar

open Reader

variable {ts : List Token} {k : Kind} {n : Node} {ns : List Node}

/-- What is read as a node is no block. -/
def Phrase.Plain : Phrase → Prop
  | .node _ n | .operands _ n | .applied _ n => n.isBlock = false
  | _ => True

theorem Reads.plain {p : Phrase} (h : Reads p ts k) : p.Plain := by
  induction h with
  | @literal t e k h =>
    cases hk : t.kind <;> simp only [hk, literal?, Option.some.injEq, reduceCtorEq] at h <;>
      exact h ▸ rfl
  | @parens o c inner ts k ho h hc ih =>
    cases inner with
    | mk e span => cases e <;> first | rfl | exact ih
  | target _ ih | application _ _ _ ih | base _ _ ih | unsigned _ ih | first _ ih
  | chain _ _ _ ih | expression _ ih => exact ih
  | _ => trivial

theorem program_accepts_after {seps : List Token} (hs : ∀ t ∈ seps, t.kind = .mark .separator)
    (h : Reads (.lines [] ns) ts (.mark .stop)) :
    Accepts program (fun p => LikeAll ns p.statements) (kinds seps ++ kinds ts) (.mark .stop) := by
  apply Accepts.here
  intro p
  apply Accepts.remaining
  intro d hd
  have hlines := h.read (d + 1) (by simp [Phrase.levels] at hd ⊢; omega) nofun
  have hstatements : Accepts (statements (reader (d + 1)) []) (LikeAll ns)
      (kinds seps ++ kinds ts) (.mark .stop) := by
    apply Accepts.skipSeparators hs h.kinds_lines
    apply Accepts.remaining
    exact fun b hb => hlines (b + 1) (Nat.lt_succ_of_le hb)
  apply Accepts.last hstatements
  intro ms hms
  apply Accepts.atMark
  intro c us rest hc hus hk
  exact ⟨_, c, rfl, hms, by rw [hc, List.map_eq_nil_iff.mp hus, List.nil_append]⟩

theorem program_accepts (h : Reads (.lines [] ns) ts (.mark .stop)) :
    Accepts program (fun p => LikeAll ns p.statements) (kinds ts) (.mark .stop) :=
  program_accepts_after (List.forall_mem_nil _) h

theorem closed_stop {e : Token} (he : e.kind = .mark .stop) :
    closed (ts ++ [e]) = ts ++ [e] := by
  simp [closed, he, Kind.isMark]

end Grammar

namespace Source

open Grammar

variable {s : Source} {ts : List Token} {ns : List Node}

theorem program_ok {p : Program} (h : s.program = .ok p) :
    ∃ ts, tokenize s.text = .ok ts ∧ Program.ofTokens ts = .ok p := by
  unfold program tokens programOf at h
  cases htok : tokenize s.text with
  | error e => simp [htok] at h
  | ok ts =>
    simp only [htok] at h
    cases hp : Program.ofTokens ts with
    | error e => simp [hp] at h
    | ok q =>
      simp only [hp, Except.ok.injEq] at h
      obtain rfl := h
      exact ⟨ts, rfl, hp⟩

/-- A text whose tokens are read as some statements is a program of these statements. -/
theorem program_of_lines {us : List Token} (htok : tokenize s.text = .ok us)
    (hus : kinds us = kinds ts ++ [.mark .stop]) (h : Reads (.lines [] ns) ts (.mark .stop)) :
    ∃ q, s.program = .ok q ∧ q.statements.map Node.bare = ns.map Node.bare := by
  obtain ⟨vs, es, rfl, hvs, hes⟩ := List.map_eq_append_iff.mp hus
  obtain ⟨e, rest, rfl, he, hrest⟩ := List.map_eq_cons_iff.mp hes
  obtain rfl := List.map_eq_nil_iff.mp hrest
  obtain ⟨q, c', hq, hlike, -⟩ := program_accepts h (.ofTokens (vs ++ [e])) vs [e] rfl hvs he
  refine ⟨q, ?_, ?_⟩
  · simp only [program, tokens, htok, programOf, Program.ofTokens, closed_stop he, hq]
  · have hlike : bareAll q.statements = bareAll ns := hlike
    simpa only [bareAll_eq_map] using hlike

/-- The text under a row of tokens that is read as some statements. -/
theorem program_of_slice {front row back : List Token}
    (htok : tokenize s.text = .ok (front ++ (row ++ back))) (hrow : row ≠ []) (hback : back ≠ [])
    (h : Reads (.lines [] ns) row (.mark .stop)) (name : String) :
    ∃ q, Source.program ⟨name, s.slice (covering row)⟩ = .ok q ∧
      q.statements.map Node.bare = ns.map Node.bare := by
  obtain ⟨us, hus, hk⟩ := tokenize_slice htok hrow hback
  have htext : tokenize (Source.mk name (s.slice (covering row))).text = .ok us := hus
  exact program_of_lines htext hk h

theorem slice_emptyAt (s : Source) (p : Position) : s.slice (.emptyAt p) = "" := by
  simp [slice, Span.emptyAt, Text.takeBytes]

/-- Where the tokens of a program come from. -/
theorem program_lines {p : Program} (h : s.program = .ok p) :
    ∃ front ts back, tokenize s.text = .ok (front ++ (ts ++ back)) ∧ back ≠ [] ∧ InOrder ts ∧
      Reads (.lines [] p.statements) ts (.mark .stop) := by
  obtain ⟨tokens, htok, hp⟩ := program_ok h
  have hlex := Lexer.tokenize_iff.mp htok
  obtain ⟨q, hlast⟩ := hlex.getLast?
  obtain ⟨init, rfl⟩ := List.getLast?_eq_some_iff.mp hlast
  simp only [Program.ofTokens, closed_stop (show (Lexer.ending q).kind = .mark .stop from rfl)]
    at hp
  cases hrun : Grammar.program (.ofTokens (init ++ [Lexer.ending q])) with
  | error e => simp [hrun] at hp
  | ok r =>
    obtain ⟨p', c'⟩ := r
    simp only [hrun, Except.ok.injEq] at hp
    obtain rfl := hp
    obtain ⟨seps, ts, hseps, ha, hr, -⟩ := program_sound hrun
    have hrest : init ++ [Lexer.ending q] = seps ++ (ts ++ c'.rest) := by
      rw [← List.append_assoc]
      exact ha.rest
    rw [hrest] at htok hlex
    refine ⟨seps, ts, c'.rest, htok, ?_, hlex.inOrder.2.right.left, hr⟩
    intro hnil
    -- The end of the text is none of the tokens that are read.
    have hmem : Lexer.ending q ∈ seps ++ ts := by
      rw [hnil, List.append_nil] at hrest
      rw [← hrest]
      simp
    rcases List.mem_append.mp hmem with hmem | hmem
    · cases hseps _ hmem
    · exact hr.no_stop _ hmem rfl

/-- The text under the span of any node of a program, by itself, is a program of that node alone,
or of the statements of the node if it is a block. -/
theorem program_of_span {p : Program} (h : s.program = .ok p) {m n : Node}
    (hm : m ∈ p.statements) (hn : n.PartOf m) (name : String) :
    ∃ q, Source.program ⟨name, s.slice n.span⟩ = .ok q ∧
      q.statements.map Node.bare = n.statements.map Node.bare := by
  obtain ⟨front, ts, back, htok, hback, hord, hlines⟩ := program_lines h
  cases hlines.parts List.infix_rfl trivial m hm n hn with
  | @alone row hrow hr =>
    obtain ⟨before, after, rfl⟩ := hrow
    have hspan : n.span = covering row := hr.spanned hord.left.right
    have hstatements : n.statements = [n] := Node.statements_of_not_block hr.plain
    have htok' : tokenize s.text = .ok ((front ++ before) ++ (row ++ (after ++ back))) := by
      simpa using htok
    rw [hspan, hstatements]
    exact program_of_slice htok' hr.ne_nil (by simp [hback]) (.lastLine hr (by simp)) name
  | @block close opened row k hrow hr =>
    obtain ⟨before, after, rfl⟩ := hrow
    rcases hr.block_covers hord.left.right with rfl | ⟨ns, seps, rows, seps', rfl, hrows, rfl⟩
    · have hempty : tokenize (Source.mk name (s.slice (.emptyAt opened))).text =
          .ok [Lexer.ending .origin] := by
        rw [slice_emptyAt]
        rfl
      have hnone : Reads (.lines [] []) [] (.mark .stop) := .noLines (.inl rfl)
      exact program_of_lines hempty rfl hnone
    · have htok' : tokenize s.text =
          .ok ((front ++ before ++ seps) ++ (rows ++ (seps' ++ (after ++ back)))) := by
        simpa using htok
      exact program_of_slice htok' hrows.ne_nil (by simp [hback]) hrows.lines name

/-- An `IF` with its body on lines of its own. -/
def branching : Source := ⟨"main", "IF a THEN\n  b ^ c\nEND"⟩

def branchingBlock : Node :=
  .mk (.block [.mk (.binary .pow (.mk (.var "b") ⟨⟨12, 1, 2⟩, ⟨13, 1, 3⟩⟩)
    (.mk (.var "c") ⟨⟨16, 1, 6⟩, ⟨17, 1, 7⟩⟩)) ⟨⟨12, 1, 2⟩, ⟨17, 1, 7⟩⟩])
    ⟨⟨12, 1, 2⟩, ⟨17, 1, 7⟩⟩

def branchingTree : Node :=
  .mk (.ifElse [(.mk (.var "a") ⟨⟨3, 0, 3⟩, ⟨4, 0, 4⟩⟩, branchingBlock)] none)
    ⟨⟨0, 0, 0⟩, ⟨21, 2, 3⟩⟩

theorem branching_program :
    branching.program = .ok ⟨[branchingTree], ⟨⟨0, 0, 0⟩, ⟨21, 2, 3⟩⟩⟩ := by
  cbv

theorem branchingBlock_partOf : branchingBlock.PartOf branchingTree :=
  .child (List.mem_cons_of_mem _ (List.mem_cons_self ..)) (.self _)

theorem program_of_span_block : branchingBlock.PartOf branchingTree ∧
    ∃ q, Source.program ⟨"body", branching.slice branchingBlock.span⟩ = .ok q ∧
      q.statements.map Node.bare = branchingBlock.statements.map Node.bare :=
  ⟨branchingBlock_partOf, program_of_span branching_program (List.mem_cons_self ..)
    branchingBlock_partOf "body"⟩

end Source

end Scriptlet

import Scriptlet.Proofs.Grammar.Unbounded
import Scriptlet.Proofs.Grammar.Reparse
import Scriptlet.Proofs.Text.Lines
import Scriptlet.Proofs.Token.Newline
import Scriptlet.Proofs.Token.Tiling

/-!
# Texts one after the other

After another text and a newline a text has its own tokens, moved past these.
A reader of the first text stops at the newline as it stops at the end, and
before the second text nothing of the first matters. So the statements of both
are those of the first and those of the second, moved.
-/

set_option autoImplicit false

namespace Scriptlet

open Token (Kind)

/-! ## Tokens -/

namespace Move

theorem past_advance (bytes lines : Nat) (p : Position) (c : Char) :
    (past bytes lines).on (p.advance c) = ((past bytes lines).on p).advance c := by
  by_cases hc : c = '\n'
  · simp [past, Position.advance, hc, Nat.add_right_comm]
  · simp [past, Position.advance, hc, Nat.add_right_comm]

theorem past_walk (bytes lines : Nat) (p : Position) (cs : List Char) :
    (past bytes lines).on (p.walk cs) = ((past bytes lines).on p).walk cs := by
  induction cs generalizing p with
  | nil => rfl
  | cons c cs ih =>
    show (past bytes lines).on ((p.advance c).walk cs) = _
    rw [ih, past_advance]
    rfl

/-- Past a text and the newline after it. -/
def pastText (text : String) : Move := past (text.utf8ByteSize + 1) (text.toList.count '\n' + 1)

theorem pastText_origin (text : String) :
    (pastText text).on .origin = (Position.origin.walk text.toList).advance '\n' := by
  have hindex := Position.walk_index .origin text.toList
  have hline := Position.walk_line text.toList
  rw [← Text.utf8ByteSize_eq] at hindex
  simp only [pastText, past, Position.advance, if_true, hindex, hline]
  rw [show '\n'.utf8Size = 1 from rfl]
  simp [Position.origin]

end Move

namespace Lexer

/-- A text has the same tokens wherever it begins on a line of its own. -/
theorem Lexes.moved {p : Position} {cs : List Char} {ts : List Token} (h : Lexes p cs ts)
    (bytes lines : Nat) :
    Lexes ((Move.past bytes lines).on p) cs (Movable.moved (.past bytes lines) ts) := by
  induction h with
  | stop p => exact .stop _
  | blank hs _ ih =>
    rw [Move.past_walk] at ih
    exact .blank hs ih
  | @token p c cs taken rest kind ts hs _ ih =>
    rw [Move.past_walk] at ih
    have hmoved : Movable.moved (.past bytes lines)
        ((⟨kind, ⟨p, p.walk taken⟩⟩ : Token) :: ts) =
        ⟨kind, ⟨(Move.past bytes lines).on p, ((Move.past bytes lines).on p).walk taken⟩⟩ ::
          Movable.moved (.past bytes lines) ts := by
      rw [← Move.past_walk]
      rfl
    rw [hmoved]
    exact .token hs ih

end Lexer

/-- The tokens of two texts with a newline between them. -/
theorem tokenize_successive {a b : String} {ts us : List Token} (ha : tokenize a = .ok ts)
    (hb : tokenize b = .ok us) :
    ∃ init e, ts = init ++ [e] ∧ e.kind = .mark .stop ∧
      tokenize (a ++ "\n" ++ b) =
        .ok (init ++ Lexer.newline e.span.start :: moved (.pastText a) us) := by
  have hus := (Lexer.tokenize_iff.mp hb).moved (a.utf8ByteSize + 1) (a.toList.count '\n' + 1)
  have horigin := Move.pastText_origin a
  rw [Move.pastText] at horigin
  rw [horigin] at hus
  obtain ⟨init, rfl, hlex⟩ := (Lexer.tokenize_iff.mp ha).newline hus
  have htext : (a ++ "\n" ++ b).toList = a.toList ++ '\n' :: b.toList := by simp
  rw [← htext] at hlex
  exact ⟨init, _, rfl, rfl, Lexer.tokenize_iff.mpr hlex⟩

/-! ## Statements -/

namespace Cursor

/-- The cursor after some tokens that come next. -/
theorem exists_after {c : Cursor} {ts rest : List Token} (h : c.rest = ts ++ rest) :
    ∃ c', c.After ts c' ∧ c'.rest = rest :=
  ⟨⟨rest, endFrom c.lastEnd ts, contentFrom c.contentEnd ts⟩, ⟨h, rfl, rfl⟩, rfl⟩

theorem After.skipSeparators {c c' : Cursor} {seps : List Token} (h : c.After seps c')
    (hseps : ∀ t ∈ seps, t.kind = .mark .separator) : c.skipSeparators = c'.skipSeparators := by
  obtain ⟨hk, more, hmore, ha⟩ := c.after_skipSeparators
  obtain ⟨hk', rest, hrest, hb⟩ := c'.after_skipSeparators
  have hall := h.trans hb
  refine ha.unique hall ?_
  have hskipped : ∀ t ∈ seps ++ rest, t.kind = .mark .separator :=
    List.forall_mem_append.mpr ⟨hseps, hrest⟩
  rw [Cursor.skipSeparators, hall.rest]
  exact skipFrom_rest hskipped (by rwa [← kind_eq]) c.contentEnd c.lastEnd

theorem skipSeparators_length (c : Cursor) : c.skipSeparators.rest.length ≤ c.rest.length := by
  obtain ⟨-, seps, -, ha⟩ := c.after_skipSeparators
  rw [ha.length]
  exact Nat.le_add_left _ _

end Cursor

namespace Grammar

open Reader

variable {S : Alignment} {tokens : List Token} {c c' d d' : Cursor} {n : Node} {ns ms : List Node}

theorem statementsUntil_more {b : Nat} (hk : d.kind ≠ .mark .stop)
    (h : production .statement d = .ok (n, c)) (hsep : c.kind = .mark .separator)
    (hmore : statementsUntil production [] b c.skipSeparators = .ok (ns, d')) :
    statementsUntil production [] (b + 1) d = .ok (n :: ns, d') := by
  have hstop : d.kind.isMark .stop = false :=
    Bool.eq_false_iff.mpr fun he => hk (Kind.isMark_iff.mp he)
  simp only [statementsUntil, atMark_bind, atAnyKeyword_bind, hstop, List.any_nil, Bool.or_self,
    Bool.false_eq_true, if_false]
  refine bind_ok.mpr ⟨n, c, h, ?_⟩
  rw [skipSeparators_bind, hsep]
  exact bind_ok.mpr ⟨ns, d', hmore, rfl⟩

/-- A statement that is read from tokens in common is read on the right. -/
theorem statement_beside (hS : S.edge) {ts ws : List Token} (hbeside : S.Beside false ts c d)
    (h : production .statement c = .ok (n, c')) (hrest : c'.rest = ws ++ S.left) :
    ∃ d', production .statement d = .ok (moved S.move n, d') ∧ S.Beside true ws c' d' ∧
      d'.rest.length < d.rest.length := by
  obtain ⟨d', hd', hbeside'⟩ := (production_keeps .statement false fun _ => True).ok hbeside
    (Nat.le_refl _) trivial h hrest fun _ => hS
  have hadvances := production_advances .statement d
  rw [hd'] at hadvances
  obtain ⟨us, ha, -, hus⟩ := hadvances
  have hpos := List.length_pos_of_ne_nil (hus rfl)
  have hlen := ha.length
  exact ⟨d', hd', hbeside', by omega⟩

/-- Separators in common are passed on the right. -/
theorem separators_beside {seps ws : List Token} (hbeside : S.Beside true (seps ++ ws) c d)
    (hseps : ∀ t ∈ seps, t.kind = .mark .separator) :
    ∃ d' : Cursor, d'.rest = moved S.move ws ++ S.right ∧ d.skipSeparators = d'.skipSeparators ∧
      d'.rest.length ≤ d.rest.length := by
  have hright : d.rest = moved S.move seps ++ (moved S.move ws ++ S.right) := by
    rw [hbeside.right, ← List.append_assoc]
    exact congrArg (· ++ S.right) List.map_append
  obtain ⟨d', ha, hd'⟩ := Cursor.exists_after hright
  refine ⟨d', hd', ha.skipSeparators (List.forall_mem_map.mpr hseps), ?_⟩
  rw [ha.length]
  exact Nat.le_add_left _ _

/-- Up to the end of what two rows have in common the same statements are read. If a line ends there
on the right, what is read after it follows them. -/
theorem statementsUntil_successive (hS : S.edge) {rest : List Token}
    (hright : ∀ d : Cursor, d.rest = S.right → d.skipSeparators.rest = rest)
    (htail : ∀ (d : Cursor) b, d.rest = rest → rest.length < b →
      ∃ d', statementsUntil production [] b d = .ok (ms, d') ∧ d'.kind = .mark .stop)
    {b b' : Nat} {ts : List Token} (hbeside : S.Beside false ts c d)
    (hk : c.kind ≠ .mark .separator) (hb : d.skipSeparators.rest.length < b')
    (h : statementsUntil production [] b c = .ok (ns, c')) (hend : c'.rest = S.left) :
    ∃ d', statementsUntil production [] b' d.skipSeparators = .ok (moved S.move ns ++ ms, d') ∧
      d'.kind = .mark .stop := by
  have hdone {d : Cursor} {b' : Nat} (hd : d.rest = S.right)
      (hb : d.skipSeparators.rest.length < b') :
      ∃ d', statementsUntil production [] b' d.skipSeparators = .ok (ms, d') ∧
        d'.kind = .mark .stop :=
    htail _ b' (hright d hd) (hright d hd ▸ hb)
  induction b generalizing ts c d ns b' with
  | zero =>
    obtain ⟨rfl, rfl⟩ := pure_ok.mp h
    obtain rfl : ts = [] := List.append_left_eq_self.mp (hbeside.left.symm.trans hend)
    exact hdone hbeside.right hb
  | succ b ih =>
    simp only [statementsUntil, atMark_bind, atAnyKeyword_bind, List.any_nil, Bool.or_false] at h
    split at h
    · obtain ⟨rfl, rfl⟩ := pure_ok.mp h
      obtain rfl : ts = [] := List.append_left_eq_self.mp (hbeside.left.symm.trans hend)
      exact hdone hbeside.right hb
    · next hstop =>
      obtain ⟨n, c₁, h₁, h⟩ := bind_ok.mp h
      have hstop : c.kind ≠ .mark .stop := fun he => hstop (Kind.isMark_iff.mpr he)
      have hne : ts ≠ [] := by
        rintro rfl
        exact hstop (hbeside.left_kind hS)
      have hkd : d.kind = c.kind := hbeside.kind hne
      have hskip : d.skipSeparators = d := Cursor.skipSeparators_of_kind (hkd ▸ hk)
      rw [hskip] at hb ⊢
      obtain ⟨b', rfl⟩ : ∃ n, b' = n + 1 := ⟨b' - 1, by omega⟩
      rw [skipSeparators_bind] at h
      split at h
      · next hsep =>
        have hsep := Kind.isMark_iff.mp hsep
        obtain ⟨seps, hseps, ha⟩ := Cursor.separators_skipped hsep
        simp only [bind_ok, pure_ok] at h
        obtain ⟨ns, c₂, h₂, rfl, rfl⟩ := h
        have hws := statementsUntil_advances [] b c₁.skipSeparators
        rw [h₂] at hws
        obtain ⟨ws, hb, -, -⟩ := hws
        have hrest : c₁.rest = (seps ++ ws) ++ S.left := by
          rw [(ha.trans hb).rest, hend]
        obtain ⟨d₁, hd₁, hbeside₁, hfew⟩ := statement_beside hS hbeside h₁ hrest
        have hkd₁ : d₁.kind = c₁.kind := hbeside₁.kind (by simp [hseps.1])
        obtain ⟨d₂, hright₂, hskip₁, hlen⟩ := separators_beside hbeside₁ hseps.2
        have hfew₂ := d₂.skipSeparators_length
        have hleft₂ := hb.rest.trans (congrArg (ws ++ ·) hend)
        obtain ⟨d', hd', hkd'⟩ := ih
          ⟨hleft₂, hright₂, (absurd · Bool.false_ne_true)⟩ c₁.after_skipSeparators.1
          (show _ < b' by omega) h₂
        exact ⟨d', statementsUntil_more (hkd ▸ hstop) hd₁ (hkd₁.trans hsep) (hskip₁ ▸ hd'), hkd'⟩
      · next hsep =>
        have hsep : c₁.kind ≠ .mark .separator := fun he => hsep (Kind.isMark_iff.mpr he)
        obtain ⟨rfl, rfl⟩ := pure_ok.mp h
        rw [Cursor.skipSeparators_of_kind hsep] at hend
        have hrest : c₁.rest = [] ++ S.left := hend
        obtain ⟨d₁, hd₁, hbeside₁, hfew⟩ := statement_beside hS hbeside h₁ hrest
        have hfew₁ := d₁.skipSeparators_length
        obtain ⟨d', hd', hkd'⟩ := hdone hbeside₁.right (show _ < b' by omega)
        exact ⟨d', statementsUntil_more (hkd ▸ hstop) hd₁ (hbeside₁.right_kind hS) hd', hkd'⟩

/-- The statements of a program are read alike after separators, wherever they are moved. -/
theorem statements_moved (hc : c.Inside (closed tokens)) (μ : Move)
    (h : statements production [] c = .ok (ms, c')) (hend : c'.kind = .mark .stop) :
    ∃ rest, (∀ (d : Cursor) (sep : Token), sep.kind = .mark .separator →
        d.rest = sep :: moved μ c.rest → d.skipSeparators.rest = rest) ∧
      ∀ (d : Cursor) b, d.rest = rest → rest.length < b →
        ∃ d', statementsUntil production [] b d = .ok (moved μ ms, d') ∧
          d'.kind = .mark .stop := by
  obtain ⟨hk, seps, hseps, ha⟩ := c.after_skipSeparators
  have hin := inside_after hc ha fun t ht => by simp [hseps t ht]
  refine ⟨moved μ c.skipSeparators.rest, fun d sep hsep hd => ?_, fun d b hd hb => ?_⟩
  · have hsplit : d.rest = (sep :: moved μ seps) ++ moved μ c.skipSeparators.rest := by
      rw [hd, ha.rest]
      exact congrArg (sep :: ·) List.map_append
    rw [Cursor.skipSeparators, hsplit]
    refine Cursor.skipFrom_rest ?_ ?_ _ _
    · exact List.forall_mem_cons.mpr ⟨hsep, List.forall_mem_map.mpr hseps⟩
    · obtain ⟨t, rest, hrest⟩ := List.exists_cons_of_ne_nil hin.2
      rw [Cursor.kind_eq, hrest] at hk
      rw [hrest]
      exact hk
  · rw [statements, skipSeparators_bind, remaining_bind] at h
    let S : Alignment := ⟨μ, [], [], False, False.elim, False.elim⟩
    have hbeside : S.Beside false c.skipSeparators.rest c.skipSeparators d :=
      ⟨(List.append_nil _).symm, hd.trans (List.append_nil _).symm,
        (absurd · Bool.false_ne_true)⟩
    have hlen : (moved μ c.skipSeparators.rest).length = c.skipSeparators.rest.length :=
      List.length_map _
    have hkeeps : Keeps S c.skipSeparators.rest.length (fun _ => True) false false
        (statementsUntil production [] (c.skipSeparators.rest.length + 1))
        (statementsUntil production [] b) :=
      statementsUntil_keeps id production_keeps (Nat.le_refl _) (Nat.le_succ _) (by omega)
    have hadvances := statementsUntil_advances [] (c.skipSeparators.rest.length + 1)
      c.skipSeparators
    rw [h] at hadvances
    have hne : c'.rest ≠ [] := (hadvances.endsInside hin).2
    obtain ⟨d', hd', hbeside'⟩ := hkeeps.ok hbeside (Nat.le_refl _) trivial h
      (List.append_nil _).symm fun hnil => absurd hnil hne
    exact ⟨d', hd', (hbeside'.kind hne).trans hend⟩

/-! ## Programs -/

/-- A program is read as its statements, up to the end of the text. -/
theorem program_iff (hc : c.Inside (closed tokens)) :
    (∃ p, program c = .ok (p, c') ∧ p.statements = ns) ↔
      statements production [] c = .ok (ns, c') ∧ c'.kind = .mark .stop := by
  rw [program_production hc]
  constructor
  · rintro ⟨p, h, rfl⟩
    rw [programWith, here_bind] at h
    obtain ⟨body, c₁, hbody, h⟩ := bind_ok.mp h
    rw [atMark_bind] at h
    split at h
    · next hk =>
      obtain ⟨rfl, rfl⟩ := Prod.mk.inj (Except.ok.inj h)
      exact ⟨hbody, Kind.isMark_iff.mp hk⟩
    · exact (fail_ok.mp h).elim
  · rintro ⟨hbody, hk⟩
    refine ⟨⟨ns, ⟨c.span.start, c'.span.stop⟩⟩, ?_, rfl⟩
    rw [programWith, here_bind]
    refine bind_ok.mpr ⟨ns, c', hbody, ?_⟩
    rw [atMark_bind, Kind.isMark_iff.mpr hk]
    rfl

end Grammar

namespace Program

open Grammar Reader

/-- A program is separators and the tokens that its statements are read from, to the end. -/
theorem ofTokens_rows {ts : List Token} {e : Token} {p : Program}
    (hts : ∀ t ∈ ts, t.kind ≠ .mark .stop) (he : e.kind = .mark .stop)
    (h : Program.ofTokens (ts ++ [e]) = .ok p) :
    ∃ seps row c c', ts = seps ++ row ∧ (∀ t ∈ seps, t.kind = .mark .separator) ∧
      c.rest = row ++ [e] ∧ c.kind ≠ .mark .separator ∧
      statementsUntil production [] (c.rest.length + 1) c = .ok (p.statements, c') ∧
      c'.rest = [e] := by
  have hin := inside_closed (closed_stop he : closed (ts ++ [e]) = ts ++ [e])
  obtain ⟨c', hrun⟩ := ofTokens_ok he h
  obtain ⟨hbody, hend⟩ := (program_iff hin).mp ⟨p, hrun, rfl⟩
  rw [Grammar.statements, skipSeparators_bind, remaining_bind] at hbody
  obtain ⟨hk, seps, hseps, ha⟩ := (Cursor.ofTokens (ts ++ [e])).after_skipSeparators
  generalize (Cursor.ofTokens (ts ++ [e])).skipSeparators = c at hbody hk ha
  have hadvances := statementsUntil_advances [] (c.rest.length + 1) c
  rw [hbody] at hadvances
  obtain ⟨row, hb, hrow, -⟩ := hadvances
  rw [Cursor.kind_eq] at hend
  obtain ⟨rfl, hrest⟩ := append_stop_unique he hts (List.forall_mem_append.mpr
    ⟨fun t ht => by simp [hseps t ht], hrow⟩) hend (ha.trans hb).rest
  exact ⟨seps, row, c, c', rfl, hseps, hb.rest.trans (congrArg (row ++ ·) hrest), hk, hbody, hrest⟩

/-- The statements of a program, a separator and the statements of another, moved. -/
theorem ofTokens_successive {ts us : List Token} {e e' sep : Token} {p q : Program} (μ : Move)
    (hts : ∀ t ∈ ts, t.kind ≠ .mark .stop) (he : e.kind = .mark .stop)
    (he' : e'.kind = .mark .stop) (hsep : sep.kind = .mark .separator)
    (hp : Program.ofTokens (ts ++ [e]) = .ok p) (hq : Program.ofTokens (us ++ [e']) = .ok q) :
    ∃ whole, Program.ofTokens (ts ++ sep :: moved μ (us ++ [e'])) = .ok whole ∧
      whole.statements = p.statements ++ moved μ q.statements := by
  have hwhole : closed (ts ++ sep :: moved μ (us ++ [e'])) = ts ++ sep :: moved μ (us ++ [e']) := by
    have hlast : ts ++ sep :: moved μ (us ++ [e']) =
        (ts ++ sep :: moved μ us) ++ [moved μ e'] := by simp [moved]
    rw [hlast, closed_stop (show (moved μ e').kind = .mark .stop from he')]
  have hin := inside_closed (closed_stop he' : closed (us ++ [e']) = us ++ [e'])
  obtain ⟨d', hrun⟩ := ofTokens_ok he' hq
  obtain ⟨hbody, hend⟩ := (program_iff hin).mp ⟨q, hrun, rfl⟩
  obtain ⟨rest, hright, htail⟩ := statements_moved hin μ hbody hend
  obtain ⟨seps, row, c, c', rfl, hseps, hc, hk, hlines, hrest⟩ := ofTokens_rows hts he hp
  let S : Alignment := ⟨.none, [e], sep :: moved μ (us ++ [e']), True, fun _ => he, fun _ => hsep⟩
  obtain ⟨d, hd, hdrest⟩ := Cursor.exists_after
    (c := .ofTokens (seps ++ row ++ sep :: moved μ (us ++ [e']))) (List.append_assoc seps row _)
  have hbeside : S.Beside false row c d := by
    refine ⟨hc, hdrest.trans ?_, nofun⟩
    exact congrArg (· ++ _) (moved_none_list (fun _ => rfl) row).symm
  obtain ⟨end', hstatements, hstop⟩ := statementsUntil_successive (S := S) trivial
    (fun d hd => hright d sep hsep hd) htail hbeside hk (Nat.lt_succ_self _) hlines hrest
  rw [← hd.skipSeparators hseps] at hstatements
  obtain ⟨whole, hw, hns⟩ := (program_iff (inside_closed hwhole)).mpr ⟨hstatements, hstop⟩
  refine ⟨whole, by simp only [Program.ofTokens, hwhole, hw], hns.trans ?_⟩
  exact congrArg (· ++ _) (moved_none_list Node.moved_none _)

end Program

namespace Source

open Grammar

/-- The tokens of a text with a newline and another text after it are those of the first without
the end, a separator, and those of the second past the first. If both are programs, so is the whole,
and its statements are those of the first and those of the second past the first. -/
theorem newline_joins {a b : Source} {ts us : List Token} (ha : tokenize a.text = .ok ts)
    (hb : tokenize b.text = .ok us) (name : String) :
    ∃ init e, ts = init ++ [e] ∧ e.kind = .mark .stop ∧
      tokenize (a.text ++ "\n" ++ b.text) =
        .ok (init ++ Lexer.newline e.span.start :: moved (.pastText a.text) us) ∧
      ∀ p q, a.program = .ok p → b.program = .ok q →
        ∃ whole, program ⟨name, a.text ++ "\n" ++ b.text⟩ = .ok whole ∧
          whole.statements = p.statements ++ moved (.pastText a.text) q.statements := by
  obtain ⟨init, e, rfl, he, hwhole⟩ := tokenize_successive ha hb
  refine ⟨init, e, rfl, he, hwhole, fun p q hp hq => ?_⟩
  obtain ⟨_, htok, hp⟩ := program_ok hp
  obtain ⟨_, htok', hq⟩ := program_ok hq
  obtain rfl := Except.ok.inj (ha.symm.trans htok)
  obtain rfl := Except.ok.inj (hb.symm.trans htok')
  obtain ⟨_, _, hinit, hstop⟩ := (Lexer.tokenize_iff.mp ha).ends
  obtain ⟨rfl, -⟩ := List.append_inj' hinit rfl
  obtain ⟨rest, _, rfl, -⟩ := (Lexer.tokenize_iff.mp hb).ends
  obtain ⟨whole, hw, hns⟩ := Program.ofTokens_successive (.pastText a.text) hstop he rfl
    (show (Lexer.newline e.span.start).kind = _ from rfl) hp hq
  refine ⟨whole, ?_, hns⟩
  simp only [program, Source.tokens, hwhole, programOf, hw]

/-- A comment, and a word that takes an expression on its own line. -/
def returning : Source := ⟨"first", "x # y\nRETURN"⟩

def returningProgram : Program :=
  ⟨[.mk (.var "x") ⟨⟨0, 0, 0⟩, ⟨1, 0, 1⟩⟩, .mk (.return none) ⟨⟨6, 1, 0⟩, ⟨12, 1, 6⟩⟩],
    ⟨⟨0, 0, 0⟩, ⟨12, 1, 6⟩⟩⟩

theorem returning_program : returning.program = .ok returningProgram := by cbv

def bracketed : Source := ⟨"second", "(1)"⟩

def bracketedProgram : Program :=
  ⟨[.mk (.int 1) ⟨⟨0, 0, 0⟩, ⟨3, 0, 3⟩⟩], ⟨⟨0, 0, 0⟩, ⟨3, 0, 3⟩⟩⟩

theorem bracketed_program : bracketed.program = .ok bracketedProgram := by cbv

theorem newline_joins_returning : ∃ init e us whole,
    tokenize returning.text = .ok (init ++ [e]) ∧ tokenize bracketed.text = .ok us ∧
      tokenize "x # y\nRETURN\n(1)" =
        .ok (init ++ Lexer.newline e.span.start :: moved (.past 13 2) us) ∧
      program ⟨"both", "x # y\nRETURN\n(1)"⟩ = .ok whole ∧
      whole.statements = returningProgram.statements ++
        [.mk (.int 1) ⟨⟨13, 2, 0⟩, ⟨16, 2, 3⟩⟩] := by
  obtain ⟨_, htok, -⟩ := program_ok returning_program
  obtain ⟨us, htok', -⟩ := program_ok bracketed_program
  obtain ⟨init, e, rfl, -, hwhole, hprogram⟩ := newline_joins htok htok' "both"
  obtain ⟨whole, hw, hns⟩ := hprogram _ _ returning_program bracketed_program
  exact ⟨init, e, us, whole, htok, htok', hwhole, hw, hns⟩

end Source

end Scriptlet

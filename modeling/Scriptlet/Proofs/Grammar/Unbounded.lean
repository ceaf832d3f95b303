import Scriptlet.Proofs.Grammar.Beside.Productions
import Scriptlet.Proofs.Grammar.Derived

/-!
# Levels and turns that never run out

The readers take as many levels of nesting, and as many turns of each loop, as
tokens are left. With more of them they read the same, so they stop for what
they read and not for want of levels or turns. On the way a cursor only goes
forward, never over the end of the text, and a production that succeeds has
passed a token.
-/

set_option autoImplicit false

namespace Scriptlet

open Token (Kind)

namespace Cursor

/-- The cursor stands before one of the tokens. -/
def Inside (tokens : List Token) (c : Cursor) : Prop := c.rest <:+ tokens ∧ c.rest ≠ []

theorem After.unique {c c' d' : Cursor} {ts us : List Token} (h : c.After ts c')
    (h' : c.After us d') (hrest : c'.rest = d'.rest) : c' = d' := by
  obtain rfl : ts = us := by
    have hall := h.rest.symm.trans h'.rest
    rw [hrest] at hall
    exact List.append_cancel_right hall
  have hlast := h.lastEnd.trans h'.lastEnd.symm
  have hcontent := h.contentEnd.trans h'.contentEnd.symm
  obtain ⟨rest, last, content⟩ := c'
  obtain ⟨rest', last', content'⟩ := d'
  obtain rfl : rest = rest' := hrest
  obtain rfl : last = last' := hlast
  obtain rfl : content = content' := hcontent
  rfl

end Cursor

namespace Grammar

open Reader

/-! ## Tokens that end with the end of the text -/

theorem closed_last (tokens : List Token) :
    ∃ init e, closed tokens = init ++ [e] ∧ e.kind = .mark .stop := by
  unfold closed
  split
  · exact ⟨[], _, rfl, rfl⟩
  · next last hlast =>
    split
    · next hk =>
      obtain ⟨init, rfl⟩ := List.getLast?_eq_some_iff.mp hlast
      exact ⟨init, last, rfl, Kind.isMark_iff.mp hk⟩
    · exact ⟨tokens, _, rfl, rfl⟩

/-- What has passed no end of the text has not passed the last token. -/
theorem inside_after {tokens us : List Token} {c c' : Cursor} (h : c.Inside (closed tokens))
    (ha : c.After us c') (hus : ∀ t ∈ us, t.kind ≠ .mark .stop) : c'.Inside (closed tokens) := by
  refine ⟨.trans ⟨us, ha.rest.symm⟩ h.1, fun hnil => ?_⟩
  obtain ⟨init, e, he, hk⟩ := closed_last tokens
  obtain ⟨before, hbefore⟩ := h.1
  have hall : c.rest = us := by rw [ha.rest, hnil, List.append_nil]
  have hlast : c.rest.getLast? = some e := by
    have hboth := congrArg List.getLast? (hbefore.trans he)
    rwa [List.getLast?_append_of_ne_nil _ h.2, List.getLast?_concat] at hboth
  exact hus e (hall ▸ List.mem_of_getLast? hlast) hk

theorem inside_start (tokens : List Token) :
    (Cursor.ofTokens (closed tokens)).Inside (closed tokens) := by
  obtain ⟨init, e, he, -⟩ := closed_last tokens
  exact ⟨List.suffix_refl _, by simp [Cursor.ofTokens, he]⟩

theorem inside_closed {tokens : List Token} (h : closed tokens = tokens) :
    (Cursor.ofTokens tokens).Inside (closed tokens) := by
  have hstart := inside_start tokens
  rwa [h] at hstart ⊢

end Grammar

/-- The same tokens on both sides, up to the end. -/
def Alignment.same : Alignment := ⟨.none, [], [], False, nofun, nofun⟩

namespace Reader

variable {α : Type} {s : Bool}

/-- Where a reader stands in its tokens when it is done. -/
def EndsInside (tokens : List Token) : Except Misfit (α × Cursor) → Prop
  | .ok (_, c') => c'.Inside (Grammar.closed tokens)
  | .error m => m.cursor.Inside (Grammar.closed tokens)

theorem Advances.endsInside {tokens : List Token} {c : Cursor} {r : Except Misfit (α × Cursor)}
    (h : Advances s c r) (hc : c.Inside (Grammar.closed tokens)) : EndsInside tokens r := by
  cases r with
  | ok r =>
    obtain ⟨us, ha, hus, -⟩ := h
    exact Grammar.inside_after hc ha hus
  | error m =>
    obtain ⟨us, ha, hus⟩ := h
    exact Grammar.inside_after hc ha hus

/-- Readers that keep to each other on the same tokens do the same. -/
theorem Keeps.same [Movable α] {tokens : List Token} {c : Cursor} {A B : Reader α}
    (hnone : ∀ x : α, moved .none x = x)
    (h : Keeps .same c.rest.length (fun _ => True) true s A B) (hB : Advances false c (B c))
    (hc : c.Inside (Grammar.closed tokens)) : A c = B c := by
  have hmoved (ts : List Token) : moved Alignment.same.move ts ++ Alignment.same.right = ts :=
    (List.append_nil _).trans (moved_none_list (fun _ => rfl) ts)
  have hbeside : Alignment.same.Beside true c.rest c c :=
    ⟨(List.append_nil _).symm, (hmoved _).symm, fun _ => rfl⟩
  have hA := h.goes c
  have hends := hA.endsInside hc
  cases hrun : A c with
  | ok r =>
    obtain ⟨x, c'⟩ := r
    rw [hrun] at hA hends
    obtain ⟨d', hd', hrest⟩ := h.ok hbeside (Nat.le_refl _) trivial hrun
      (List.append_nil _).symm fun hnil => absurd hnil hends.2
    rw [hd'] at hB ⊢
    obtain ⟨us, ha, -, -⟩ := hA
    obtain ⟨vs, hb, -, -⟩ := hB
    rw [ha.unique hb (hrest.right.trans (hmoved _)).symm]
    exact congrArg (fun x => Except.ok (x, d')) (hnone x).symm
  | error m =>
    rw [hrun] at hA hends
    obtain ⟨d', hd', hrest⟩ := h.error hbeside (Nat.le_refl _) trivial hrun
      (List.append_nil _).symm hends.2
    rw [hd'] at hB ⊢
    obtain ⟨us, ha, -⟩ := hA
    obtain ⟨vs, hb, -⟩ := hB
    exact congrArg (fun c => Except.error (Misfit.mk m.expected c))
      (ha.unique hb (hrest.right.trans (hmoved _)).symm)

/-- At a cursor it makes no difference how large a bound is, from the number of tokens that are
left on. -/
def Unbounded (A : Nat → Reader α) (c : Cursor) : Prop :=
  ∀ bound, c.rest.length ≤ bound → A bound c = A c.rest.length c

theorem Keeps.unbounded [Movable α] {tokens : List Token} {c : Cursor} {A : Nat → Reader α}
    (hnone : ∀ x : α, moved .none x = x) (hc : c.Inside (Grammar.closed tokens))
    (h : ∀ b b', c.rest.length ≤ b → c.rest.length ≤ b' →
      Keeps .same c.rest.length (fun _ => True) true s (A b) (A b')) : Unbounded A c := by
  intro bound hbound
  have hback := (h _ bound (Nat.le_refl _) hbound).less (t := false) nofun
  exact (h bound _ hbound (Nat.le_refl _)).same hnone (hback.goes c) hc

end Reader

namespace Grammar

open Reader

/-- The reader for a goal, with as many levels of nesting as there are tokens. -/
def production (goal : Goal) : Reader Node := do reader (← remaining) goal

variable {S : Alignment} {size : Nat} {tokens : List Token} {c : Cursor}

theorem production_keeps : Nests S size production production :=
  fun goal _ _ => .remaining fun _ _ _ _ hb hb' => reader_keeps hb hb' goal _ _

theorem production_advances (goal : Goal) (c : Cursor) : Advances true c (production goal c) := by
  have hkeeps : Nests .same 0 production production := production_keeps
  exact (hkeeps goal true fun _ => True).goes c

theorem reader_production {depth : Nat} (hd : size ≤ depth) :
    Nests S size (reader depth) production :=
  fun goal _ _ => Keeps.remaining (r := fun _ => reader depth goal)
    fun _ _ _ hn _ hb' => reader_keeps (Nat.le_trans hn hd) hb' goal _ _

/-- The levels of nesting and the turns of every loop, where the readers stand at a cursor. -/
structure Limitless (c : Cursor) : Prop where
  levels : ∀ goal, Unbounded (reader · goal) c
  items : Unbounded (itemsAfter (production .expression)) c
  params : Unbounded (itemsAfter param) c
  operands : ∀ (ch : Chain) left,
    Unbounded (chainAfter ch.op? (ch.operand.reader production) · left) c
  trailers : ∀ start target, Unbounded (trailersAfter production start · target) c
  branches : Unbounded (branches production) c
  lines : ∀ close, Unbounded (statementsUntil production close) c

theorem limitless (hc : c.Inside (closed tokens)) : Limitless c where
  levels goal := Keeps.unbounded Node.moved_none hc fun _ _ hb hb' => reader_keeps hb hb' goal _ _
  items := Keeps.unbounded (moved_none_list Node.moved_none) hc fun _ _ hb hb' =>
    .itemsAfter (production_keeps .expression) (Nat.le_succ _) hb hb'
  params := Keeps.unbounded (moved_none_list fun _ => rfl) hc fun _ _ hb hb' =>
    .itemsAfter (fun _ _ => param_keeps) (Nat.le_succ _) hb hb'
  operands ch left := Keeps.unbounded Node.moved_none hc fun b b' hb hb' => by
    have hkeeps : Keeps .same c.rest.length (fun _ => True) true false
        (chainAfter ch.op? (ch.operand.reader production) b left)
        (chainAfter ch.op? (ch.operand.reader production) b' (moved .none left)) :=
      chainAfter_keeps ch (fun _ _ => (ch.operand.reader_keeps production_keeps).mono
        (Nat.le_succ _) fun _ => id) (Nat.le_succ _) hb hb' left
    rwa [show moved Move.none left = left from left.moved_none] at hkeeps
  trailers start target := Keeps.unbounded Node.moved_none hc fun b b' hb hb' => by
    have hkeeps : Keeps .same c.rest.length (fun _ => True) true false
        (trailersAfter production start b target)
        (trailersAfter production start b' (moved .none target)) :=
      trailersAfter_keeps production_keeps start (Nat.le_succ _) hb hb' target
    rwa [show moved Move.none target = target from target.moved_none] at hkeeps
  branches :=
    have harms := moved_none_list (moved_none_pair Node.moved_none Node.moved_none)
    have hnone := moved_none_pair harms (moved_none_option Node.moved_none)
    Keeps.unbounded hnone hc fun _ _ hb hb' =>
      branches_keeps production_keeps (Nat.le_refl _) hb hb'
  lines close := Keeps.unbounded (moved_none_list Node.moved_none) hc fun _ _ hb hb' =>
    statementsUntil_keeps id production_keeps (Nat.le_refl _) hb hb'

/-- With enough levels a production is read as its own parts are. -/
theorem production_eq (goal : Goal) (hc : c.Inside (closed tokens)) :
    production goal c = goal.level.reader production c := by
  have hmore : reader (c.rest.length + 1) goal c = production goal c :=
    (limitless hc).levels goal _ (Nat.le_succ _)
  rw [← hmore, reader_succ]
  have hkeeps : Keeps .same (c.rest.length + 1) (fun _ => True) true true
      (goal.level.reader (reader c.rest.length)) (goal.level.reader production) :=
    goal.level.reader_keeps (reader_production (Nat.le_refl _))
  have hback : Keeps .same 1 (fun _ => True) true true
      (goal.level.reader production) (goal.level.reader production) :=
    goal.level.reader_keeps production_keeps
  exact (hkeeps.mono (Nat.le_succ _) fun _ => id).same Node.moved_none
    ((hback.less (t := false) nofun).goes c) hc

theorem level_advances (level : Level) (c : Cursor) :
    Advances true c (level.reader production c) := by
  have hkeeps : Keeps .same 1 (fun _ => True) true true (level.reader production)
      (level.reader production) := level.reader_keeps production_keeps
  exact hkeeps.goes c

theorem statementsUntil_advances (close : List Keyword) (b : Nat) (c : Cursor) :
    Advances false c (statementsUntil production close b c) := by
  have hkeeps : Keeps .same 0 (fun _ => True) true false (statementsUntil production close b)
      (statementsUntil production close b) :=
    statementsUntil_keeps id production_keeps (Nat.le_refl _) (Nat.zero_le _) (Nat.zero_le _)
  exact hkeeps.goes c

theorem programWith_advances (c : Cursor) : Advances false c (programWith production c) := by
  have hkeeps : Keeps .same 0 (fun _ => True) true false (programWith production)
      (programWith production) := programWith_keeps id production_keeps
  exact hkeeps.goes c

theorem program_production (hc : c.Inside (closed tokens)) :
    program c = programWith production c := by
  have hkeeps : Keeps .same c.rest.length (fun _ => True) true false
      (programWith (reader (c.rest.length + 1))) (programWith production) :=
    programWith_keeps id (reader_production (Nat.le_succ _))
  rw [program_eq]
  exact hkeeps.same (fun p => by
    cases p
    exact congrArg (Program.mk · _) (moved_none_list Node.moved_none _))
    (programWith_advances c) hc

/-- Where the cursor is when the tokens are read as a program. -/
theorem ofTokens_inside (tokens : List Token) :
    ∃ used rest, closed tokens = used ++ rest ∧ rest ≠ [] ∧ (∀ t ∈ used, t.kind ≠ .mark .stop) ∧
      ((∃ p, Program.ofTokens tokens = .ok p ∧ following rest (.mark .separator) = .mark .stop) ∨
        ∃ m, Program.ofTokens tokens = .error m ∧ m.cursor.rest = rest) := by
  have hc := inside_start tokens
  have hadvances := programWith_advances (.ofTokens (closed tokens))
  rw [← program_production hc] at hadvances
  have hends := hadvances.endsInside hc
  cases hrun : program (.ofTokens (closed tokens)) with
  | ok r =>
    obtain ⟨p, c'⟩ := r
    rw [hrun] at hadvances hends
    obtain ⟨used, ha, hused, -⟩ := hadvances
    refine ⟨used, c'.rest, ha.rest, hends.2, hused, .inl ⟨p, ?_, ?_⟩⟩
    · simp only [Program.ofTokens, hrun]
    · obtain ⟨-, -, -, -, -, hk⟩ := program_sound hrun
      obtain ⟨t, rest, hrest⟩ := List.exists_cons_of_ne_nil hends.2
      rw [Cursor.kind_eq, hrest] at hk
      rw [hrest]
      exact hk
  | error m =>
    rw [hrun] at hadvances hends
    obtain ⟨used, ha, hused⟩ := hadvances
    refine ⟨used, m.cursor.rest, ha.rest, hends.2, hused, .inr ⟨m, ?_, rfl⟩⟩
    simp only [Program.ofTokens, hrun]

/-- Any tokens are a program or have a syntax error at one of them. The readers never want for
levels or turns, so each is read as its own parts are, whatever bounds these have. From a cursor
before one of the tokens a production goes forward, over no end of the text, to a cursor before one
of them, and passes a token if it succeeds. -/
theorem parsing_halts (tokens : List Token) :
    (∃ used rest, closed tokens = used ++ rest ∧ rest ≠ [] ∧
      (∀ t ∈ used, t.kind ≠ .mark .stop) ∧
      ((∃ p, Program.ofTokens tokens = .ok p ∧
          following rest (.mark .separator) = .mark .stop) ∨
        ∃ m, Program.ofTokens tokens = .error m ∧ m.cursor.rest = rest)) ∧
    program (.ofTokens (closed tokens)) = programWith production (.ofTokens (closed tokens)) ∧
    ∀ c : Cursor, c.Inside (closed tokens) →
      Limitless c ∧
      (∀ goal, production goal c = goal.level.reader production c) ∧
      ∀ level : Level, EndsInside tokens (level.reader production c) ∧
        Advances true c (level.reader production c) :=
  ⟨ofTokens_inside tokens, program_production (inside_start tokens), fun _ hc =>
    ⟨limitless hc, fun goal => production_eq goal hc, fun level =>
      ⟨(level_advances level _).endsInside hc, level_advances level _⟩⟩⟩

end Grammar

end Scriptlet

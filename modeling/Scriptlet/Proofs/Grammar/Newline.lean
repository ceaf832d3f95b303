import Scriptlet.Proofs.Grammar.Derived
import Scriptlet.Proofs.Token.Newline
import Scriptlet.Proofs.Token.Tiling

/-!
# Two programs with a newline between them

The text of a program, a newline and the text of another are one program, of
the statements of both.
-/

set_option autoImplicit false

namespace Scriptlet

namespace Grammar

variable {ns ms : List Node} {ts us seps : List Token}

/-- Separators and further statements go on where statements end, after the separators that these
may end with themselves. -/
theorem Reads.lines_append (h : Reads (.lines [] ns) ts (.mark .stop)) (hs : Separators seps)
    (hr : Reads (.lines [] ms) us (.mark .stop)) :
    ∃ front row, ts ++ (seps ++ us) = front ++ row ∧ (∀ t ∈ front, t.kind = .mark .separator) ∧
      Reads (.lines [] (ns ++ ms)) row (.mark .stop) := by
  generalize hp : Phrase.lines [] ns = p at h
  generalize hk : Token.Kind.mark Mark.stop = k at h
  induction h generalizing ns with
  | noLines _ =>
    obtain ⟨-, rfl⟩ := Phrase.lines.inj hp
    subst hk
    exact ⟨seps, us, rfl, hs.2, hr⟩
  | @lastLine close n ts k h _ _ =>
    obtain ⟨-, rfl⟩ := Phrase.lines.inj hp
    subst hk
    have hline : Reads (.node .statement n) ts (.mark .separator) := h.endsAt .separator
    exact ⟨[], ts ++ (seps ++ us), rfl, by simp, .line hline hs hr⟩
  | @line close n ns ts inner rest k h hin _ _ ih =>
    obtain ⟨rfl, rfl⟩ := Phrase.lines.inj hp
    obtain ⟨front, row, hsplit, hfront, hrow⟩ := ih rfl hk
    have hseps : Separators (inner ++ front) :=
      ⟨by simp [hin.1], fun t ht => (List.mem_append.mp ht).elim (hin.2 t) (hfront t)⟩
    refine ⟨[], ts ++ ((inner ++ front) ++ row), ?_, by simp, .line h hseps hrow⟩
    simp [hsplit]
  | _ => cases hp

end Grammar

namespace Source

open Grammar

/-- The tokens of a program: separators, its statements, and the end of the text. -/
theorem program_rows {s : Source} {p : Program} (h : s.program = .ok p) :
    ∃ seps row q, tokenize s.text = .ok (seps ++ row ++ [Lexer.ending q]) ∧
      (∀ t ∈ seps, t.kind = .mark .separator) ∧
      Reads (.lines [] p.statements) row (.mark .stop) := by
  obtain ⟨tokens, htok, hp⟩ := program_ok h
  obtain ⟨init, q, rfl, hstop⟩ := (Lexer.tokenize_iff.mp htok).ends
  obtain ⟨seps, row, rfl, hseps, hr⟩ := Program.lines_of_ofTokens rfl hstop hp
  exact ⟨seps, row, q, htok, hseps, hr⟩

/-- A text of separators and of tokens that are read as some statements is a program of these. -/
theorem program_of_rows {s : Source} {ns : List Node} {ts seps row : List Token}
    (htok : tokenize s.text = .ok ts) (hk : kinds ts = kinds (seps ++ row) ++ [.mark .stop])
    (hseps : ∀ t ∈ seps, t.kind = .mark .separator)
    (h : Reads (.lines [] ns) row (.mark .stop)) :
    ∃ p, s.program = .ok p ∧ bareAll p.statements = bareAll ns := by
  obtain ⟨init, es, rfl, hinit, hes⟩ := List.map_eq_append_iff.mp hk
  obtain ⟨e, tail, rfl, he, htail⟩ := List.map_eq_cons_iff.mp hes
  obtain rfl := List.map_eq_nil_iff.mp htail
  obtain ⟨p, hp, hlike⟩ := Program.ofTokens_of_lines init he hseps h hinit
  exact ⟨p, by simp only [program, Source.tokens, htok, programOf, hp], hlike⟩

/-- The statements of a program are those of the texts it is put together from. -/
theorem program_newline {a b : Source} {p q : Program} (ha : a.program = .ok p)
    (hb : b.program = .ok q) (name : String) :
    ∃ whole, program ⟨name, a.text ++ "\n" ++ b.text⟩ = .ok whole ∧
      bareAll whole.statements = bareAll (p.statements ++ q.statements) := by
  obtain ⟨seps, row, e, htok, hseps, hrow⟩ := program_rows ha
  obtain ⟨seps', row', e', htok', hseps', hrow'⟩ := program_rows hb
  obtain ⟨init, stop, nl, ts, hinit, hk, hwhole⟩ := tokenize_newline htok htok'
  obtain ⟨rfl, -⟩ := List.append_inj' hinit rfl
  have hbetween : Separators (Lexer.newline nl :: seps') :=
    ⟨by simp, fun t ht => (List.mem_cons.mp ht).elim (fun h => h ▸ rfl) (hseps' t)⟩
  obtain ⟨front, rows, hsplit, hfront, hrows⟩ := hrow.lines_append hbetween hrow'
  refine program_of_rows hwhole ?_
    (fun t ht => (List.mem_append.mp ht).elim (hseps t) (hfront t)) hrows
  have hkinds : kinds row ++ kinds (Lexer.newline nl :: (seps' ++ row')) =
      kinds front ++ kinds rows := by
    rw [← kinds_append, ← kinds_append, ← hsplit]
    rfl
  simp only [kinds_append, kinds_cons, List.append_assoc] at hk hkinds ⊢
  rw [hk, ← List.append_assoc (kinds front), ← hkinds]
  simp [Lexer.ending]

end Source

end Scriptlet

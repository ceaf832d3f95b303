import Scriptlet.Proofs.Grammar.Newline
import Scriptlet.Proofs.Machine.Sequel
import Scriptlet.Session

/-!
# Layout shows in places only

Where code stands is seen in the places of errors and in nothing else. Two
programs that are the same but for spans, run in sessions that are the same
but for where their functions come from, go step by step together, and leave
sessions that are the same in this way.
-/

set_option autoImplicit false

namespace Scriptlet

namespace Machine

variable {settings : Settings} {m k : Machine}

/-- The machines differ in the places of their code only. -/
def SameWork (m k : Machine) : Prop := m.atop [] "" = k.atop [] ""

namespace SameWork

theorem ofProgram {s t : Store} {p q : Program} (hs : s.unplaced = t.unplaced)
    (hp : bareAll p.statements = bareAll q.statements) (a b : Source) :
    SameWork (.ofProgram s a p) (.ofProgram t b q) := by
  simp only [SameWork, atop, Machine.ofProgram, List.map_cons, List.map_nil, Frame.unplaced, hs, hp]
  rfl

protected theorem step (h : SameWork m k) :
    SameWork (Machine.step settings m) (Machine.step settings k) := by
  rw [SameWork, step_atop_nil, h, ← step_atop_nil]

theorem outcome? (h : SameWork m k) :
    m.outcome?.map (Except.mapError Diagnostic.unplaced) =
      k.outcome?.map (Except.mapError Diagnostic.unplaced) := by
  rw [← outcome?_atop_nil "", h, outcome?_atop_nil]

/-- Both runs end within as many steps, or neither does. -/
theorem runFor (h : SameWork m k) (settings : Settings) (count : Nat) :
    Option.Rel SameWork (Machine.runFor settings count m) (Machine.runFor settings count k) :=
  runFor_rel (fun _ _ h => by simpa using congrArg Option.isSome h.outcome?)
    (fun _ _ h => h.step) h count

theorem store (h : SameWork m k) : m.store.unplaced = k.store.unplaced := congrArg Machine.store h

theorem printed (h : SameWork m k) : m.printed = k.printed := by
  simpa [atop] using congrArg Machine.printed h

end SameWork

end Machine

/-- A text whose tokens are those of a program but for their places is the same program but for
its spans. -/
theorem Source.program_of_kinds {a b : Source} {p : Program} (ha : a.program = .ok p)
    (hk : (tokenize b.text).map kinds = (tokenize a.text).map kinds) :
    ∃ q, b.program = .ok q ∧ bareAll q.statements = bareAll p.statements := by
  obtain ⟨seps, row, e, htok, hseps, hrow⟩ := program_rows ha
  rw [htok] at hk
  cases hus : tokenize b.text with
  | error misread => simp [hus, Except.map] at hk
  | ok us =>
    rw [hus] at hk
    have hkinds : kinds us = kinds (seps ++ row ++ [Lexer.ending e]) := Except.ok.inj hk
    exact program_of_rows hus (by rw [hkinds, kinds_append]; rfl) hseps hrow

/-- How a run has ended, but for where: the text of its value, or the name and the message of its
error. -/
def Report.ending (r : Report) (heap : Heap) : Except (String × String) String :=
  (r.result.map (·.display heap)).mapError fun d => (d.name, d.message)

namespace Session

/-- The session without where the code of its functions stands. -/
def unplaced (s : Session) : Session := ⟨s.store.unplaced, s.settings⟩

/-- The same was printed, the runs have ended in the same way, and the sessions they leave have the
same scopes, bindings and lists, and functions that are the same but for places. -/
structure SameButPlaces (x y : Report × Session) : Prop where
  printed : x.1.printed = y.1.printed
  ending : x.1.ending x.2.store.heap = y.1.ending y.2.store.heap
  session : x.2.unplaced = y.2.unplaced

variable {s t : Session}

theorem ending_report (m : Machine) (heap : Heap) :
    (report m).ending heap =
      (((m.outcome?.map (Except.mapError Diagnostic.unplaced)).getD (.ok .nothing)).map
        (·.display heap.unplaced)).mapError fun d => (d.name, d.message) := by
  rw [Report.ending, report]
  cases m.outcome? with
  | none => simp [Except.map]
  | some r =>
    cases r with
    | ok v => simp [Except.map, Except.mapError]
    | error d => rfl

theorem SameButPlaces.afterProgram {m k : Machine} (h : m.SameWork k) (settings : Settings) :
    SameButPlaces (Session.afterProgram settings m) (Session.afterProgram settings k) := by
  have hstore : (m.store.tidy settings.reclaim).unplaced =
      (k.store.tidy settings.reclaim).unplaced := by
    rw [Store.unplaced_tidy, h.store, Store.unplaced_tidy]
  have hheap : (m.store.tidy settings.reclaim).heap.unplaced =
      (k.store.tidy settings.reclaim).heap.unplaced := congrArg Store.heap hstore
  refine ⟨h.printed, ?_, congrArg (Session.mk · settings) hstore⟩
  simp only [Session.afterProgram, ending_report, h.outcome?, hheap]

theorem runProgramFor_layout (hs : s.unplaced = t.unplaced) (a b : Source) {p q : Program}
    (hp : bareAll p.statements = bareAll q.statements) (count : Nat) :
    Option.Rel SameButPlaces (s.runProgramFor count a p) (t.runProgramFor count b q) := by
  obtain ⟨hstore, hsettings⟩ := Session.mk.inj hs
  have hruns := (Machine.SameWork.ofProgram hstore hp a b).runFor s.settings count
  rw [runProgramFor, runProgramFor, ← hsettings]
  generalize Machine.runFor s.settings count (.ofProgram s.store a p) = last at hruns
  generalize Machine.runFor s.settings count (.ofProgram t.store b q) = last' at hruns
  cases hruns with
  | none => exact .none
  | some h => exact .some (.afterProgram h s.settings)

/-- Layout does not influence results, neither that of the program nor that of the code which the
session has from other programs. So programs that are the same but for spans, as those of texts
with the same tokens at other places, do the same and leave the same. -/
theorem layout_unobservable (hs : s.unplaced = t.unplaced) (a b : Source) (count : Nat) :
    (∀ p q : Program, bareAll p.statements = bareAll q.statements →
      Option.Rel SameButPlaces (s.runProgramFor count a p) (t.runProgramFor count b q)) ∧
    ∀ p, a.program = .ok p → (tokenize b.text).map kinds = (tokenize a.text).map kinds →
      Option.Rel SameButPlaces (s.runFor count a) (t.runFor count b) := by
  refine ⟨fun p q hp => runProgramFor_layout hs a b hp count, fun p ha hk => ?_⟩
  obtain ⟨q, hb, hlike⟩ := Source.program_of_kinds ha hk
  simp only [runFor, ha, hb]
  exact runProgramFor_layout hs a b hlike.symm count

/-- A function that divides by what it is given. -/
def dense : Source := ⟨"dense", "FUN f(n) -> 1 / n"⟩

def denseProgram : Program :=
  ⟨[.mk (.function (some "f") [⟨"n", ⟨⟨6, 0, 6⟩, ⟨7, 0, 7⟩⟩⟩]
    (.mk (.binary .div (.mk (.int 1) ⟨⟨12, 0, 12⟩, ⟨13, 0, 13⟩⟩)
      (.mk (.var "n") ⟨⟨16, 0, 16⟩, ⟨17, 0, 17⟩⟩)) ⟨⟨12, 0, 12⟩, ⟨17, 0, 17⟩⟩))
    ⟨⟨0, 0, 0⟩, ⟨17, 0, 17⟩⟩], ⟨⟨0, 0, 0⟩, ⟨17, 0, 17⟩⟩⟩

/-- The same with a comment, blanks, and parentheses around what is one expression anyway. -/
def loose : Source := ⟨"loose", "# Halves.\nFUN f ( n ) -> ((1) / n)"⟩

def looseProgram : Program :=
  ⟨[.mk (.function (some "f") [⟨"n", ⟨⟨18, 1, 8⟩, ⟨19, 1, 9⟩⟩⟩]
    (.mk (.binary .div (.mk (.int 1) ⟨⟨26, 1, 16⟩, ⟨29, 1, 19⟩⟩)
      (.mk (.var "n") ⟨⟨32, 1, 22⟩, ⟨33, 1, 23⟩⟩)) ⟨⟨25, 1, 15⟩, ⟨34, 1, 24⟩⟩))
    ⟨⟨10, 1, 0⟩, ⟨34, 1, 24⟩⟩], ⟨⟨9, 0, 9⟩, ⟨34, 1, 24⟩⟩⟩

/-- A call of it, and the same with blanks and a comment. -/
def denseCall : Source := ⟨"dense", "f(0)"⟩

def looseCall : Source := ⟨"loose", "f( 0 )  # Fails."⟩

def denseCallProgram : Program :=
  ⟨[.mk (.call (.mk (.var "f") ⟨⟨0, 0, 0⟩, ⟨1, 0, 1⟩⟩)
    [.mk (.int 0) ⟨⟨2, 0, 2⟩, ⟨3, 0, 3⟩⟩]) ⟨⟨0, 0, 0⟩, ⟨4, 0, 4⟩⟩], ⟨⟨0, 0, 0⟩, ⟨4, 0, 4⟩⟩⟩

theorem denseCall_program : denseCall.program = .ok denseCallProgram := by cbv

theorem dense_program : dense.program = .ok denseProgram := by cbv

theorem loose_program : loose.program = .ok looseProgram := by cbv

/-- What either definition leaves. -/
def defined (source : Source) (program : Program) : Report × Session :=
  afterProgram ⟨9, true⟩ (Machine.steps ⟨9, true⟩ 3 (.ofProgram .bare source program))

/-- Both functions fail in the same way, though at other places. -/
theorem layout_unobservable_division : ∃ s t x y,
    (bare 9).runFor 20 dense = some s ∧ (bare 9).runFor 20 loose = some t ∧
      s.2.runFor 20 denseCall = some x ∧ t.2.runFor 20 looseCall = some y ∧ SameButPlaces x y ∧
      y.1.ending y.2.store.heap = .error ("DivisionByZero", "division by zero") := by
  have hdense : (bare 9).runProgramFor 20 dense denseProgram =
      some (defined dense denseProgram) := rfl
  have hloose : (bare 9).runProgramFor 20 loose looseProgram =
      some (defined loose looseProgram) := rfl
  have hdefined := (layout_unobservable (Eq.refl (bare 9).unplaced) dense loose 20).1
    denseProgram looseProgram rfl
  rw [hdense, hloose, Option.rel_some_some] at hdefined
  have hcalled := (layout_unobservable hdefined.session denseCall looseCall 20).2
    denseCallProgram denseCall_program (by cbv)
  have hfailed : ∃ x, (defined dense denseProgram).2.runFor 20 denseCall = some x ∧
      x.1.ending x.2.store.heap = .error ("DivisionByZero", "division by zero") := by
    simp only [runFor, denseCall_program]
    exact ⟨_, rfl, rfl⟩
  obtain ⟨x, hx, hending⟩ := hfailed
  rw [hx] at hcalled
  generalize hy : (defined loose looseProgram).2.runFor 20 looseCall = last at hcalled
  cases hcalled with
  | some hsame =>
    refine ⟨_, _, x, _, ?_, ?_, hx, hy, hsame, hsame.ending.symm.trans hending⟩
    · simpa only [runFor, dense_program] using hdense
    · simpa only [runFor, loose_program] using hloose

end Session

end Scriptlet

import Scriptlet.Proofs.Machine.Limit
import Scriptlet.Session

/-!
# A session under another limit

A program that ends under some limit, and has not been cut off by it, does the
same under every higher limit: the same report, and the same store after it.
One that has been cut off has printed the beginning of what it would print.
-/

set_option autoImplicit false

namespace Scriptlet

/-- Whether the program or call was cut off by the limit. -/
def Report.Cut (r : Report) : Prop := ∃ d, r.result = .error d ∧ d.Cut

namespace Session

variable {count : Nat} {s next : Session} {source : Source} {program : Program} {r : Report}

/-- The same session under another limit. -/
def limited (limit : Nat) (s : Session) : Session := ⟨s.store, ⟨limit, s.settings.reclaim⟩⟩

theorem cut_report {m : Machine} {out : String} (h : m.CutAt out) (ho : m.outcome?.isSome) :
    (report m).Cut := by
  obtain ⟨control, stack, store, active, depth, printed⟩ := m
  obtain ⟨⟨d, hcontrol, hd⟩, -⟩ := h
  obtain rfl : control = .failed d := hcontrol
  cases stack with
  | nil => exact ⟨d, rfl, hd⟩
  | cons frame stack => simp [Machine.outcome?] at ho

/-- The limit only cuts: it changes no run but one that it cuts off, and of that one it keeps what
was printed until then. -/
theorem limit_only_cuts {low high : Nat} (hle : low ≤ high)
    (hrun : (s.limited low).runProgramFor count source program = some (r, next)) :
    (¬ r.Cut →
      (s.limited high).runProgramFor count source program = some (r, next.limited high)) ∧
    ∀ n r' next', (s.limited high).runProgramFor n source program = some (r', next') →
      ∃ more, r'.printed = r.printed ++ more := by
  obtain ⟨m, hm, hafter⟩ := Option.map_eq_some_iff.mp hrun
  obtain ⟨rfl, rfl⟩ := Prod.mk.inj hafter
  rcases Machine.runFor_limit hle hm with hsame | ⟨out, hcut, hmore⟩
  · refine ⟨fun _ => Option.map_eq_some_iff.mpr ⟨m, hsame, rfl⟩, fun n r' next' hrun' => ?_⟩
    obtain ⟨m', hm', hafter'⟩ := Option.map_eq_some_iff.mp hrun'
    obtain rfl : m = m' := Machine.Ends.unique ⟨count, hsame⟩ ⟨n, hm'⟩
    obtain ⟨rfl, -⟩ := Prod.mk.inj hafter'
    exact ⟨"", by simp⟩
  · refine ⟨fun h => absurd (cut_report hcut (Machine.runFor_eq_steps hm).2) h, ?_⟩
    intro n r' next' hrun'
    obtain ⟨m', hm', hafter'⟩ := Option.map_eq_some_iff.mp hrun'
    obtain ⟨rfl, -⟩ := Prod.mk.inj hafter'
    rw [report, report, hcut.printed]
    exact hmore n m' hm'

/-- A function that prints what it is given and goes on with one less, and its call with one. -/
def countdown : Program :=
  ⟨[.mk (.function (some "f") [⟨"n", default⟩] (.mk (.block [
      .mk (.call (.mk (.var "PRINT") default) [.mk (.var "n") default]) default,
      .mk (.ifElse [(.mk (.var "n") default,
        .mk (.call (.mk (.var "f") default)
          [.mk (.binary .sub (.mk (.var "n") default) (.mk (.int 1) default)) default]) default)]
        none) default]) default)) default,
    .mk (.call (.mk (.var "f") default) [.mk (.int 1) default]) default], default⟩

/-- Cut off under the limit 1 after one line of two, and the same under 2 and under 5. -/
theorem limit_only_cuts_countdown : ∃ cut next whole next₂,
    (new 1).runProgramFor 60 ⟨"main", ""⟩ countdown = some (cut, next) ∧ cut.Cut ∧
    (new 2).runProgramFor 60 ⟨"main", ""⟩ countdown = some (whole, next₂) ∧
    (∃ more, whole.printed = cut.printed ++ more) ∧
    (new 5).runProgramFor 60 ⟨"main", ""⟩ countdown = some (whole, next₂.limited 5) := by
  have hlow : ((new 1).limited 1).runProgramFor 60 ⟨"main", ""⟩ countdown = some _ := rfl
  have hhigh : ((new 1).limited 2).runProgramFor 60 ⟨"main", ""⟩ countdown = some _ := rfl
  refine ⟨_, _, _, _, hlow, ⟨_, rfl, rfl⟩, hhigh, ?_, ?_⟩
  · exact (limit_only_cuts (by decide) hlow).2 _ _ _ hhigh
  · refine (limit_only_cuts (by decide) hhigh).1 ?_
    rintro ⟨d, hd, -⟩
    cases hd

end Session

end Scriptlet

import Scriptlet.Proofs.Text.Slices
import Mathlib.Data.List.DropRight

/-!
# Places in a text

A position that is walked to from the start of a text counts what stands
before it: its index the bytes, its line the newlines, and its column the
characters since the last newline. The line of that number is the one that
the position is in.
-/

set_option autoImplicit false

namespace Scriptlet

namespace Text

/-- What stands after the last newline. -/
def lastLine (cs : List Char) : List Char := cs.rtakeWhile (· ≠ '\n')

theorem lastLine_concat (cs : List Char) (c : Char) :
    lastLine (cs ++ [c]) = if c = '\n' then [] else lastLine cs ++ [c] := by
  by_cases hc : c = '\n' <;> simp [lastLine, hc]

theorem newline_not_mem_lastLine (cs : List Char) : '\n' ∉ lastLine cs := by
  intro hm
  have hc := List.mem_rtakeWhile_imp hm
  simp at hc

theorem afterLine?_append {cs : List Char} (h : '\n' ∉ cs) (ds : List Char) :
    afterLine? (cs ++ '\n' :: ds) = some ds := by
  induction cs with
  | nil => simp [afterLine?]
  | cons c cs ih =>
    rw [List.mem_cons, not_or] at h
    simp [afterLine?, Ne.symm h.1, ih h.2]

/-- The last of some lines can be passed after the others. -/
theorem afterLines?_succ (n : Nat) (cs : List Char) :
    afterLines? (n + 1) cs = (afterLines? n cs).bind afterLine? := by
  induction n generalizing cs with
  | zero => simp [afterLines?]
  | succ n ih =>
    cases h : afterLine? cs with
    | none => simp [afterLines?, h]
    | some ds =>
      have hrest (k : Nat) : afterLines? (k + 1) cs = afterLines? k ds := by simp [afterLines?, h]
      rw [hrest, hrest, ih]

/-- After all lines that end in the first part of a text comes the line that it breaks off in. -/
theorem afterLines?_count (front back : List Char) :
    afterLines? (front.count '\n') (front ++ back) = some (lastLine front ++ back) := by
  induction front using List.reverseRecOn generalizing back with
  | nil => simp [afterLines?, lastLine]
  | append_singleton front c ih =>
    have hline := ih (c :: back)
    by_cases hc : c = '\n'
    · subst hc
      simp only [List.append_assoc, List.cons_append, List.nil_append, List.count_append,
        List.count_singleton_self, afterLines?_succ, hline, Option.bind_some, lastLine_concat,
        if_true]
      exact afterLine?_append (newline_not_mem_lastLine front) back
    · simpa [List.count_append, List.count_singleton, hc, lastLine_concat] using hline

theorem firstLine_append {cs : List Char} (h : '\n' ∉ cs) (ds : List Char) :
    firstLine (cs ++ ds) = cs ++ firstLine ds := by
  rw [firstLine, List.takeWhile_append_of_pos]
  · rfl
  · intro c hc
    simpa using fun he : c = '\n' => h (he ▸ hc)

end Text

open Text (bytes lastLine firstLine)

namespace Position

theorem walk_line (front : List Char) : (origin.walk front).line = front.count '\n' := by
  induction front using List.reverseRecOn with
  | nil => rfl
  | append_singleton front c ih =>
    rw [walk_append, List.count_append, ← ih]
    by_cases hc : c = '\n' <;> simp [walk, advance, hc]

theorem walk_column (front : List Char) :
    (origin.walk front).column = (lastLine front).length := by
  induction front using List.reverseRecOn with
  | nil => rfl
  | append_singleton front c ih =>
    rw [walk_append, Text.lastLine_concat]
    by_cases hc : c = '\n' <;> simp [walk, advance, hc] at ih ⊢
    exact ih

end Position

/-- A position in a text: the text splits into what is stepped over on the way to the position and
what comes after it. -/
structure Source.Place (s : Source) (p : Position) (front back : List Char) : Prop where
  split : s.text.toList = front ++ back
  walked : p = Position.origin.walk front
  index : p.index = bytes front
  line : p.line = front.count '\n'
  column : p.column = (lastLine front).length
  shown : s.line? p.line = some (String.ofList (lastLine front ++ firstLine back))

theorem Source.place_walk {s : Source} {front back : List Char}
    (h : s.text.toList = front ++ back) : s.Place (.walk .origin front) front back := by
  refine ⟨h, rfl, ?_, Position.walk_line front, Position.walk_column front, ?_⟩
  · rw [Position.walk_index]
    exact Nat.zero_add _
  · rw [Source.line?, Position.walk_line, h, Text.afterLines?_count, Option.map_some,
      Text.firstLine_append (Text.newline_not_mem_lastLine front)]

end Scriptlet

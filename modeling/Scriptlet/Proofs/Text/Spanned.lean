import Scriptlet.Proofs.Text.Lines
import Mathlib.Data.List.Intervals

/-!
# The characters under a span

A character that is stepped over stands in a column of a line. If it is no
newline, it is shown there, or it is one of the carriage returns that end the
line. The columns under a span are an interval on each line: from the start,
or the first column, to the end, or the end of the line. Those that are shown
come first.
-/

set_option autoImplicit false

namespace Scriptlet

namespace Text

/-- Line `n` of a text. -/
def lineAt (cs : List Char) (n : Nat) : List Char :=
  ((afterLines? n cs).map firstLine).getD []

/-- A line without the carriage returns that end it. -/
def trimmed (line : List Char) : List Char := line.rdropWhile (· = '\r')

theorem lineAt_count (front back : List Char) :
    lineAt (front ++ back) (front.count '\n') = lastLine front ++ firstLine back := by
  rw [lineAt, afterLines?_count, Option.map_some, Option.getD_some,
    firstLine_append (newline_not_mem_lastLine front)]

/-- Every line up to the one that a part breaks off in is there. -/
theorem afterLines?_of_le {front : List Char} {n : Nat} (hn : n ≤ front.count '\n')
    (back : List Char) : ∃ cs, afterLines? n (front ++ back) = some cs := by
  induction hn using Nat.decreasingInduction with
  | self => exact ⟨_, afterLines?_count front back⟩
  | of_succ n _ ih =>
    obtain ⟨cs, hcs⟩ := ih
    rw [afterLines?_succ] at hcs
    obtain ⟨ds, hds, -⟩ := Option.bind_eq_some_iff.mp hcs
    exact ⟨ds, hds⟩

theorem length_trimmed_le (line : List Char) : (trimmed line).length ≤ line.length :=
  (List.rdropWhile_prefix _ line).length_le

/-- The rest of a line is not shown if there is nothing but carriage returns in it. -/
theorem length_trimmed_append_le (cs ds : List Char) :
    (trimmed (cs ++ ds)).length ≤ cs.length ↔ ∀ d ∈ ds, d = '\r' := by
  induction ds using List.reverseRecOn with
  | nil => simpa using length_trimmed_le cs
  | append_singleton ds d ih =>
    rw [← List.append_assoc, trimmed, List.rdropWhile_concat]
    by_cases hd : d = '\r'
    · rw [if_pos (by simpa using hd)]
      simpa [hd, or_imp, forall_and, trimmed] using ih
    · rw [if_neg (by simpa using hd)]
      refine ⟨fun h => ?_, fun h => absurd (h d (by simp)) hd⟩
      simp only [List.length_append, List.length_singleton] at h
      omega

end Text

open Text (lineAt trimmed lastLine firstLine)

namespace Position

theorem walk_concat (p : Position) (cs : List Char) (c : Char) :
    p.walk (cs ++ [c]) = (p.walk cs).advance c := by
  rw [walk_append]
  rfl

/-- Stepping goes on to a later line, or further on the same line. -/
theorem walk_le (p : Position) (cs : List Char) :
    p.line < (p.walk cs).line ∨ p.line = (p.walk cs).line ∧ p.column ≤ (p.walk cs).column := by
  induction cs using List.reverseRecOn with
  | nil => exact .inr ⟨rfl, le_rfl⟩
  | append_singleton cs c ih =>
    rw [walk_concat]
    by_cases hc : c = '\n'
    · simp only [advance, if_pos hc]
      omega
    · simp only [advance, if_neg hc]
      omega

theorem walk_line_le (p : Position) {cs ds : List Char} (h : cs <+: ds) :
    (p.walk cs).line ≤ (p.walk ds).line := by
  obtain ⟨rest, rfl⟩ := h
  rw [walk_append]
  rcases (p.walk cs).walk_le rest with h | h <;> omega

end Position

/-- A character under a span that is no newline. -/
structure Spanned where
  line : Nat
  column : Nat
  /-- It is one of the carriage returns that end the line. -/
  ends : Bool
  deriving DecidableEq

/-- The characters that are stepped over from a position; `tail` comes after them. -/
def Position.spanned (p : Position) : (body tail : List Char) → List Spanned
  | [], _ => []
  | c :: rest, tail =>
    let after := (p.advance c).spanned rest tail
    if c = '\n' then after
    else ⟨p.line, p.column, c = '\r' && (firstLine (rest ++ tail)).all (· = '\r')⟩ :: after

namespace Spanned

/-- The columns of some characters that stand on a line. -/
def columns (xs : List Spanned) (n : Nat) : List Nat :=
  (xs.filter (·.line = n)).map Spanned.column

/-- The columns of those that are shown there. -/
def shown (xs : List Spanned) (n : Nat) : List Nat := columns (xs.filter (!·.ends)) n

/-- The columns of those that end the line. -/
def ending (xs : List Spanned) (n : Nat) : List Nat := columns (xs.filter (·.ends)) n

theorem columns_append (xs ys : List Spanned) (n : Nat) :
    columns (xs ++ ys) n = columns xs n ++ columns ys n := by
  simp [columns]

theorem columns_filter {xs : List Spanned} {n : Nat} {p : Spanned → Bool} {q : Nat → Bool}
    (h : ∀ x ∈ xs, x.line = n → p x = q x.column) :
    columns (xs.filter p) n = (columns xs n).filter q := by
  rw [columns, columns, List.filter_map, List.filter_filter, List.filter_filter]
  congr 1
  refine List.filter_congr fun x hx => ?_
  by_cases hn : x.line = n
  · simp [hn, h x hx hn]
  · simp [hn]

end Spanned

open Spanned (columns)

namespace Position

variable {p : Position}

theorem spanned_concat (p : Position) (body tail : List Char) (c : Char) :
    p.spanned (body ++ [c]) tail =
      p.spanned body (c :: tail) ++ (p.walk body).spanned [c] tail := by
  induction body generalizing p with
  | nil => simp [spanned, walk]
  | cons b body ih =>
    rw [walk_cons, List.cons_append, spanned, spanned, ih]
    by_cases hb : b = '\n' <;> simp [hb]

theorem spanned_one {c : Char} (hc : c ≠ '\n') (p : Position) (tail : List Char) :
    p.spanned [c] tail = [⟨p.line, p.column, c = '\r' && (firstLine tail).all (· = '\r')⟩] := by
  simp [spanned, hc]

theorem spanned_newline (p : Position) (tail : List Char) : p.spanned ['\n'] tail = [] := by
  simp [spanned]

/-- No character is on a line before the first or after that of the last one. -/
theorem line_of_mem_spanned {body tail : List Char} {x : Spanned} (hx : x ∈ p.spanned body tail) :
    p.line ≤ x.line ∧ x.line ≤ (p.walk body.dropLast).line := by
  induction body using List.reverseRecOn generalizing tail with
  | nil => cases hx
  | append_singleton body c ih =>
    rw [List.dropLast_concat]
    rw [spanned_concat, List.mem_append] at hx
    rcases hx with hx | hx
    · obtain ⟨hlow, hhigh⟩ := ih hx
      exact ⟨hlow, hhigh.trans (p.walk_line_le body.dropLast_prefix)⟩
    · have hline : x.line = (p.walk body).line := by
        by_cases hc : c = '\n'
        · rw [hc, spanned_newline] at hx
          cases hx
        · rw [spanned_one hc, List.mem_singleton] at hx
          rw [hx]
      exact ⟨hline ▸ p.walk_line_le body.nil_prefix, hline.le⟩

/-- The column that a span ends before on a line of some length. -/
def reach (stop : Position) (n length : Nat) : Nat :=
  if n < stop.line then length else if n = stop.line then stop.column else 0

end Position

section

variable {front body tail : List Char} {n : Nat}

open Position (origin)

/-- The line that is broken off before a character. -/
theorem lineAt_walk (front body tail : List Char) :
    lineAt (front ++ (body ++ tail)) ((origin.walk front).walk body).line =
      lastLine (front ++ body) ++ firstLine tail := by
  rw [← Position.walk_append, Position.walk_line, ← List.append_assoc, Text.lineAt_count]

theorem ends_of_mem_spanned {x : Spanned} (hx : x ∈ (origin.walk front).spanned body tail) :
    x.ends = decide ((trimmed (lineAt (front ++ (body ++ tail)) x.line)).length ≤ x.column) := by
  induction body using List.reverseRecOn generalizing tail with
  | nil => cases hx
  | append_singleton body c ih =>
    rw [List.append_assoc, List.singleton_append]
    rw [Position.spanned_concat, List.mem_append] at hx
    rcases hx with hx | hx
    · exact ih hx
    · by_cases hc : c = '\n'
      · rw [hc, Position.spanned_newline] at hx
        cases hx
      · rw [Position.spanned_one hc, List.mem_singleton] at hx
        have hfirst : firstLine (c :: tail) = c :: firstLine tail := by simp [firstLine, hc]
        have hcolumn : ((origin.walk front).walk body).column =
            (lastLine (front ++ body)).length := by
          rw [← Position.walk_append, Position.walk_column]
        rw [hx, Bool.eq_iff_iff, decide_eq_true_iff, lineAt_walk, hfirst, hcolumn,
          Text.length_trimmed_append_le, List.forall_mem_cons]
        simp

/-- What a span covers of a line is an interval. -/
theorem columns_spanned (front body tail : List Char) (hn : (origin.walk front).line ≤ n) :
    columns ((origin.walk front).spanned body tail) n =
      List.Ico (if n = (origin.walk front).line then (origin.walk front).column else 0)
        (((origin.walk front).walk body).reach n
          (lineAt (front ++ (body ++ tail)) n).length) := by
  -- the last character under the span goes over to what comes after it, so the text is the same
  induction body using List.reverseRecOn generalizing tail with
  | nil =>
    rw [Position.walk_nil]
    refine (List.Ico.eq_empty_iff.mpr ?_).symm
    simp only [Position.reach]
    split_ifs <;> omega
  | append_singleton body c ih =>
    have hline := lineAt_walk front body (c :: tail)
    have hcolumn : ((origin.walk front).walk body).column = (lastLine (front ++ body)).length := by
      rw [← Position.walk_append, Position.walk_column]
    have hle := (origin.walk front).walk_le body
    rw [Position.spanned_concat, Spanned.columns_append, ih, Position.walk_concat,
      List.append_assoc, List.singleton_append]
    generalize front ++ (body ++ c :: tail) = cs at hline ⊢
    generalize (origin.walk front).walk body = q at hline hcolumn hle ⊢
    by_cases hc : c = '\n'
    · have hadvance : q.advance c = ⟨q.index + c.utf8Size, q.line + 1, 0⟩ := if_pos hc
      have hfull : (lineAt cs q.line).length = q.column := by
        rw [hline, hcolumn]
        simp [firstLine, hc]
      have hreach : q.reach n (lineAt cs n).length =
          (q.advance c).reach n (lineAt cs n).length := by
        by_cases hq : n = q.line
        · simp [Position.reach, hadvance, hq, hfull]
        · simp only [Position.reach, hadvance]
          split_ifs <;> omega
      rw [hreach, hc, Position.spanned_newline]
      exact List.append_nil _
    · have hadvance : q.advance c = ⟨q.index + c.utf8Size, q.line, q.column + 1⟩ := if_neg hc
      rw [Position.spanned_one hc]
      by_cases hq : n = q.line
      · simp only [Position.reach, hadvance, columns, hq, lt_irrefl, if_false, if_true]
        rw [List.Ico.succ_top]
        · simp
        · split_ifs <;> omega
      · simp [Position.reach, hadvance, columns, hq, Ne.symm hq]

/-- Of what a span covers of a line, that comes first which is shown. -/
theorem shown_spanned (front body tail : List Char) (hn : (origin.walk front).line ≤ n) :
    Spanned.shown ((origin.walk front).spanned body tail) n =
      List.Ico (if n = (origin.walk front).line then (origin.walk front).column else 0)
        (min (((origin.walk front).walk body).reach n
          (lineAt (front ++ (body ++ tail)) n).length)
          (trimmed (lineAt (front ++ (body ++ tail)) n)).length) := by
  rw [← List.Ico.filter_lt, ← columns_spanned front body tail hn]
  refine Spanned.columns_filter fun x hx hxn => ?_
  rw [ends_of_mem_spanned hx, hxn, ← decide_not, decide_eq_decide, Nat.not_le]

theorem ending_spanned (front body tail : List Char) (hn : (origin.walk front).line ≤ n) :
    Spanned.ending ((origin.walk front).spanned body tail) n =
      List.Ico (max (if n = (origin.walk front).line then (origin.walk front).column else 0)
          (trimmed (lineAt (front ++ (body ++ tail)) n)).length)
        (((origin.walk front).walk body).reach n
          (lineAt (front ++ (body ++ tail)) n).length) := by
  rw [← List.Ico.filter_le, ← columns_spanned front body tail hn]
  refine Spanned.columns_filter fun x hx hxn => ?_
  rw [ends_of_mem_spanned hx, hxn]

end

end Scriptlet

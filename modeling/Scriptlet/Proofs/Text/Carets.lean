import Scriptlet.Proofs.Text.Spanned
import Scriptlet.Text.Underline

/-!
# Where carets stand

Under each line that is shown stand carets in the columns of the characters
that are shown of it under the span, and on the line that the span ends on also
in those of the carriage returns at its end. A line without any of these gets
one caret, where the span starts on it. So the carets mark exactly what is
shown under the span unless lines that show nothing, or carriage returns, come
between.
-/

set_option autoImplicit false

namespace Scriptlet

open Text (lineAt trimmed)

namespace Underline

variable {start stop : Position} {last n : Nat} {xs : List Spanned} {carets : Nat → List Nat}

/-- The columns under a span that carets mark on a line. -/
def covered (stop : Position) (xs : List Spanned) (n : Nat) : List Nat :=
  Spanned.shown xs n ++ if n = stop.line then Spanned.ending xs n else []

/-- The columns of the carets under a line. -/
def caretColumns (start stop : Position) (xs : List Spanned) (n : Nat) : List Nat :=
  if covered stop xs n = [] then [if n = start.line then start.column else 0]
  else covered stop xs n

/-- There is one caret for each character that is shown under the span, in its line and column, and
if there is no such character, one in all, where the span starts. -/
def Exact (start : Position) (last : Nat) (xs : List Spanned) (carets : Nat → List Nat) : Prop :=
  ∀ n, start.line ≤ n → n ≤ last → carets n =
    if ∃ x ∈ xs, x.ends = false then Spanned.shown xs n
    else if n = start.line then [start.column] else []

theorem caretColumns_ne_nil (start stop : Position) (xs : List Spanned) (n : Nat) :
    caretColumns start stop xs n ≠ [] := by
  unfold caretColumns
  split
  · exact List.cons_ne_nil _ _
  · assumption

theorem columns_ne_nil {xs : List Spanned} {x : Spanned} (hx : x ∈ xs) :
    Spanned.columns xs x.line ≠ [] := by
  refine List.ne_nil_of_mem (a := x.column) ?_
  exact List.mem_map.mpr ⟨x, List.mem_filter.mpr ⟨hx, decide_eq_true rfl⟩, rfl⟩

theorem exists_of_columns {xs : List Spanned} {n : Nat} (h : Spanned.columns xs n ≠ []) :
    ∃ x ∈ xs, x.line = n := by
  obtain ⟨c, hc⟩ := List.exists_mem_of_ne_nil _ h
  obtain ⟨x, hx, -⟩ := List.mem_map.mp hc
  obtain ⟨hx, hn⟩ := List.mem_filter.mp hx
  exact ⟨x, hx, of_decide_eq_true hn⟩

theorem shown_of_all_end (h : ¬ ∃ x ∈ xs, x.ends = false) (n : Nat) : Spanned.shown xs n = [] := by
  by_contra hne
  obtain ⟨x, hx, -⟩ := exists_of_columns hne
  obtain ⟨hx, hends⟩ := List.mem_filter.mp hx
  exact h ⟨x, hx, by simpa using hends⟩

theorem line_of_ending (hlines : ∀ x ∈ xs, start.line ≤ x.line ∧ x.line ≤ last)
    (h : Spanned.ending xs n ≠ []) : start.line ≤ n ∧ n ≤ last := by
  obtain ⟨x, hx, rfl⟩ := exists_of_columns h
  exact hlines x (List.mem_filter.mp hx).1

section

variable (hlines : ∀ x ∈ xs, start.line ≤ x.line ∧ x.line ≤ last)
  (hcarets : ∀ n, start.line ≤ n → n ≤ last → carets n = caretColumns start stop xs n)
include hlines hcarets

/-- If something is shown under the span, the carets are right if every line shows something and no
carriage return is marked. -/
theorem exact_iff_of_shown (h : ∃ x ∈ xs, x.ends = false) :
    Exact start last xs carets ↔
      (∀ n, start.line ≤ n → n ≤ last → Spanned.shown xs n ≠ []) ∧
        Spanned.ending xs stop.line = [] := by
  refine ⟨fun hexact => ?_, fun ⟨hshown, hending⟩ n hlow hhigh => ?_⟩
  · have hsame (n : Nat) (hlow : start.line ≤ n) (hhigh : n ≤ last) :
        caretColumns start stop xs n = Spanned.shown xs n := by
      rw [← hcarets n hlow hhigh, hexact n hlow hhigh, if_pos h]
    refine ⟨fun n hlow hhigh => ?_, ?_⟩
    · rw [← hsame n hlow hhigh]
      exact caretColumns_ne_nil start stop xs n
    · by_contra hending
      obtain ⟨hlow, hhigh⟩ := line_of_ending hlines hending
      have hcovered := hsame _ hlow hhigh
      have hne : covered stop xs stop.line ≠ [] := by simp [covered, hending]
      rw [caretColumns, if_neg hne, covered, if_pos rfl, List.append_right_eq_self] at hcovered
      exact hending hcovered
  · have hcovered : covered stop xs n = Spanned.shown xs n := by
      by_cases hn : n = stop.line
      · rw [covered, if_pos hn, hn, hending, List.append_nil]
      · rw [covered, if_neg hn, List.append_nil]
    rw [hcarets n hlow hhigh, if_pos h, caretColumns, hcovered, if_neg (hshown n hlow hhigh)]

/-- If nothing is, they are right if there is one line and no more than one carriage return is
marked, the one that the span starts with. -/
theorem exact_iff_of_not_shown (h : ¬ ∃ x ∈ xs, x.ends = false) (hlast : start.line ≤ last) :
    Exact start last xs carets ↔
      start.line = last ∧ (Spanned.ending xs stop.line = [] ∨
        Spanned.ending xs stop.line = [start.column]) := by
  have hcovered : covered stop xs start.line =
      if start.line = stop.line then Spanned.ending xs stop.line else [] := by
    rw [covered, shown_of_all_end h, List.nil_append]
    split_ifs with hn
    · rw [hn]
    · rfl
  refine ⟨fun hexact => ?_, fun ⟨hone, hending⟩ n hlow hhigh => ?_⟩
  · have hone : start.line = last := by
      by_contra hne
      have hnone := hexact last hlast le_rfl
      rw [if_neg h, if_neg (Ne.symm hne), hcarets last hlast le_rfl] at hnone
      exact caretColumns_ne_nil start stop xs last hnone
    refine ⟨hone, or_iff_not_imp_left.mpr fun hending => ?_⟩
    obtain ⟨hlow, hhigh⟩ := line_of_ending hlines hending
    have hstop : start.line = stop.line := by omega
    have hstart := hexact start.line le_rfl hlast
    rw [if_pos hstop] at hcovered
    rwa [if_neg h, if_pos rfl, hcarets _ le_rfl hlast, caretColumns, hcovered, if_neg hending]
      at hstart
  · obtain rfl : start.line = n := by omega
    have hat : covered stop xs start.line = [] ∨ covered stop xs start.line = [start.column] := by
      rw [hcovered]
      split_ifs
      · exact hending
      · exact .inl rfl
    rw [hcarets _ hlow hhigh, if_neg h, if_pos rfl, caretColumns, if_pos rfl]
    rcases hat with hat | hat
    · rw [if_pos hat]
    · rw [hat, if_neg (List.cons_ne_nil _ _)]

end

/-- The carets are right unless lines that show nothing come between, or carriage returns are
marked. -/
theorem exact_iff (hlines : ∀ x ∈ xs, start.line ≤ x.line ∧ x.line ≤ last)
    (hlast : start.line ≤ last)
    (hcarets : ∀ n, start.line ≤ n → n ≤ last → carets n = caretColumns start stop xs n) :
    Exact start last xs carets ↔
      (start.line = last ∨ ∀ n, start.line ≤ n → n ≤ last → Spanned.shown xs n ≠ []) ∧
        (Spanned.ending xs stop.line = [] ∨
          (∀ x ∈ xs, x.ends = true) ∧ Spanned.ending xs stop.line = [start.column]) := by
  by_cases h : ∃ x ∈ xs, x.ends = false
  · rw [exact_iff_of_shown hlines hcarets h]
    obtain ⟨x, hx, hends⟩ := h
    refine ⟨fun ⟨hshown, hending⟩ => ⟨.inr hshown, .inl hending⟩, fun ⟨hone, hending⟩ => ⟨?_, ?_⟩⟩
    · intro n hlow hhigh
      rcases hone with hone | hshown
      · obtain ⟨hxlow, hxhigh⟩ := hlines x hx
        obtain rfl : x.line = n := by omega
        exact columns_ne_nil (List.mem_filter.mpr ⟨hx, by simp [hends]⟩)
      · exact hshown n hlow hhigh
    · rcases hending with hending | ⟨hall, -⟩
      · exact hending
      · simp [hall x hx] at hends
  · rw [exact_iff_of_not_shown hlines hcarets h hlast]
    have hall : ∀ x ∈ xs, x.ends = true := by simpa using h
    refine ⟨fun ⟨hone, hending⟩ => ⟨.inl hone, hending.imp_right fun he => ⟨hall, he⟩⟩,
      fun ⟨hone, hending⟩ => ⟨?_, hending.imp_right And.right⟩⟩
    exact hone.resolve_right fun hshown =>
      hshown start.line le_rfl hlast (shown_of_all_end h start.line)

/-! ## The rows -/

/-- The caret row of a line. -/
def Row.caretRow (r : Row) : List Char :=
  List.replicate r.indent ' ' ++ List.replicate r.carets '^'

theorem idxsOf_replicate (c : Char) (k s : Nat) :
    (List.replicate k c).idxsOf c s = List.Ico s (s + k) := by
  induction k generalizing s with
  | zero => simp
  | succ k ih =>
    rw [List.replicate_succ, List.idxsOf_cons, if_pos (beq_self_eq_true c), ih,
      List.Ico.eq_cons (by omega : s < s + (k + 1))]
    congr 2
    omega

theorem Row.idxsOf_caretRow (r : Row) :
    r.caretRow.idxsOf '^' = List.Ico r.indent (r.indent + r.carets) := by
  have hblank : (List.replicate r.indent ' ').idxsOf '^' = [] := by
    rw [List.idxsOf, List.findIdxs_eq_nil_iff]
    intro c hc
    rw [List.eq_of_mem_replicate hc]
    rfl
  rw [caretRow, List.idxsOf_append, hblank, List.nil_append, Nat.zero_add, List.length_replicate,
    idxsOf_replicate]

/-- The rows are those of the lines from one to another, all of which are there. -/
theorem rowsFrom_eq (span : Span) {cs : List Char} {count n : Nat}
    (h : ∀ k < n + count, ∃ ds, Text.afterLines? k cs = some ds) :
    rowsFrom span count n (Text.afterLines? n cs) =
      (List.range' n count).map fun k => row span k (lineAt cs k) := by
  induction count generalizing n with
  | zero => rfl
  | succ count ih =>
    obtain ⟨ds, hds⟩ := h n (by omega)
    have hnext : Text.afterLine? ds = Text.afterLines? (n + 1) cs := by
      rw [Text.afterLines?_succ, hds, Option.bind_some]
    rw [hds, rowsFrom, hnext, ih fun k hk => h k (by omega), List.range'_succ, List.map_cons,
      lineAt, hds]
    rfl

theorem lastLine_walk (start : Position) (body : List Char) :
    lastLine ⟨start, start.walk body⟩ = (start.walk body.dropLast).line := by
  cases body using List.reverseRecOn with
  | nil => simp [lastLine, Position.walk]
  | append_singleton body c =>
    have hle : start.line ≤ (start.walk body).line := start.walk_line_le body.nil_prefix
    rw [List.dropLast_concat, Position.walk_concat]
    by_cases hc : c = '\n'
    · simp only [lastLine, Position.advance, if_pos hc]
      rw [if_pos ⟨by omega, trivial⟩]
      rfl
    · simp only [lastLine, Position.advance, if_neg hc]
      rw [if_neg (by omega)]
      omega

theorem shown_eq (line : List Char) :
    shown line = (trimmed line).map fun c => if c = '\t' then ' ' else c := rfl

theorem length_shown (line : List Char) : (shown line).length = (trimmed line).length := by
  rw [shown_eq, List.length_map]

theorem ico_or_one (a b : Nat) :
    List.Ico a (a + max (b - a) 1) = if List.Ico a b = [] then [a] else List.Ico a b := by
  by_cases hab : b ≤ a
  · rw [if_pos (List.Ico.eq_empty_iff.mpr hab), show a + max (b - a) 1 = a + 1 by omega]
    exact List.Ico.succ_singleton
  · rw [if_neg (fun he => hab (List.Ico.eq_empty_iff.mp he)),
      show a + max (b - a) 1 = b by omega]

theorem ico_append_ico (a b w : Nat) :
    List.Ico a (min b w) ++ List.Ico (max a w) b = List.Ico a b := by
  by_cases haw : w ≤ a
  · rw [List.Ico.eq_empty_iff.mpr (by omega), List.nil_append, max_eq_left haw]
  · by_cases hwb : w ≤ b
    · rw [min_eq_right hwb, max_eq_right (by omega),
        List.Ico.append_consecutive (by omega) hwb]
    · rw [min_eq_left (by omega), List.Ico.eq_empty_iff.mpr (by omega : b ≤ max a w),
        List.append_nil]

theorem row_caretColumns (front body tail : List Char) {n : Nat}
    (hlow : (Position.origin.walk front).line ≤ n)
    (hhigh : n ≤ ((Position.origin.walk front).walk body).line) :
    (row ⟨.walk .origin front, (Position.origin.walk front).walk body⟩ n
        (lineAt (front ++ (body ++ tail)) n)).caretRow.idxsOf '^' =
      caretColumns (.walk .origin front) ((Position.origin.walk front).walk body)
        ((Position.origin.walk front).spanned body tail) n := by
  have hwidth := Text.length_trimmed_le (lineAt (front ++ (body ++ tail)) n)
  rw [Row.idxsOf_caretRow, caretColumns, covered, shown_spanned front body tail hlow,
    ending_spanned front body tail hlow]
  simp only [row, length_shown]
  generalize (lineAt (front ++ (body ++ tail)) n).length = len at hwidth ⊢
  generalize (trimmed (lineAt (front ++ (body ++ tail)) n)).length = width at hwidth ⊢
  generalize (Position.origin.walk front).walk body = stop at hhigh ⊢
  generalize (if n = (Position.origin.walk front).line then
    (Position.origin.walk front).column else 0) = indent
  -- only on the line that the span ends on do the carets go beyond what is shown
  by_cases hn : n = stop.line
  · have hreach : stop.reach n len = stop.column := by simp [Position.reach, hn]
    rw [if_pos hn, if_pos hn, hreach, ico_append_ico]
    exact ico_or_one indent stop.column
  · have hreach : stop.reach n len = len := if_pos (by omega)
    rw [if_neg hn, if_neg hn, hreach, List.append_nil, min_eq_right hwidth]
    exact ico_or_one indent width

end Underline

open Underline in
/-- The lines under a span are shown once each and in their order, without tabs and without the
carriage returns at their ends, and below each the carets for it. All that the span covers is on
these lines. The carets mark exactly what is shown of it, or where the span starts if nothing is,
unless lines that show nothing under it come between, or it ends after carriage returns. -/
theorem Source.underline_marks {s : Source} {front body tail : List Char}
    (h : s.text.toList = front ++ (body ++ tail)) :
    let start := Position.origin.walk front
    let stop := start.walk body
    let last := (start.walk body.dropLast).line
    let xs := start.spanned body tail
    (∀ x ∈ xs, start.line ≤ x.line ∧ x.line ≤ last) ∧
    ∃ lines carets : Nat → List Char,
      s.underline ⟨start, stop⟩ = String.ofList
        ((List.range' start.line (last + 1 - start.line)).flatMap fun n =>
          lines n ++ '\n' :: (carets n ++ ['\n'])) ∧
      (∀ n, start.line ≤ n → n ≤ last →
        (∃ line, s.line? n = some line ∧
          lines n = (line.toList.rdropWhile (· = '\r')).map fun c => if c = '\t' then ' ' else c) ∧
        (∀ c ∈ carets n, c = ' ' ∨ c = '^') ∧
        (carets n).idxsOf '^' = caretColumns start stop xs n) ∧
      (Exact start last xs (fun n => (carets n).idxsOf '^') ↔
        (start.line = last ∨ ∀ n, start.line ≤ n → n ≤ last → Spanned.shown xs n ≠ []) ∧
          (Spanned.ending xs stop.line = [] ∨
            (∀ x ∈ xs, x.ends = true) ∧ Spanned.ending xs stop.line = [start.column])) := by
  intro start stop last xs
  have hlines : ∀ x ∈ xs, start.line ≤ x.line ∧ x.line ≤ last :=
    fun x hx => Position.line_of_mem_spanned hx
  have hlast : start.line ≤ last := start.walk_line_le (List.nil_prefix)
  have hstop : last ≤ stop.line := start.walk_line_le body.dropLast_prefix
  let lineOf (n : Nat) : List Char := lineAt s.text.toList n
  let rowOf (n : Nat) : Row := row ⟨start, stop⟩ n (lineOf n)
  have hthere {n : Nat} (hn : n ≤ last) : ∃ ds, Text.afterLines? n s.text.toList = some ds := by
    have hcount : n ≤ (front ++ body).count '\n' := by
      rw [← Position.walk_line, Position.walk_append]
      exact hn.trans hstop
    rw [h, ← List.append_assoc]
    exact Text.afterLines?_of_le hcount tail
  have hcolumns (n : Nat) (hlow : start.line ≤ n) (hhigh : n ≤ last) :
      (rowOf n).caretRow.idxsOf '^' = caretColumns start stop xs n := by
    have hrow := row_caretColumns front body tail hlow (hhigh.trans hstop)
    rwa [← h] at hrow
  refine ⟨hlines, fun n => (rowOf n).shown, fun n => (rowOf n).caretRow, ?_, fun n hlow hhigh =>
    ⟨?_, ?_, hcolumns n hlow hhigh⟩, exact_iff hlines hlast hcolumns⟩
  · have hcount : ∀ k < start.line + (last + 1 - start.line),
        ∃ ds, Text.afterLines? k s.text.toList = some ds := fun k hk => hthere (by omega)
    rw [Source.underline, rows, lastLine_walk, rowsFrom_eq ⟨start, stop⟩ hcount, List.flatMap_map]
    rfl
  · obtain ⟨ds, hds⟩ := hthere hhigh
    have hline : lineOf n = Text.firstLine ds := by simp [lineOf, lineAt, hds]
    refine ⟨String.ofList (lineOf n), by rw [Source.line?, hds, hline]; rfl, ?_⟩
    rw [String.toList_ofList]
    rfl
  · intro c hc
    rcases List.mem_append.mp hc with hc | hc
    · exact .inl (List.eq_of_mem_replicate hc)
    · exact .inr (List.eq_of_mem_replicate hc)

/-- A line with a tab and a carriage return, and a second one. -/
def twoLines : Source := ⟨"", "a\tbc\r\nde\n"⟩

/-- From the tab on to the first character of the second line. -/
theorem underline_marks_twoLines :
    let xs := (Position.mk 1 0 1).spanned "\tbc\r\nd".toList "e\n".toList
    xs.length = 5 ∧ ∃ lines carets : Nat → List Char,
      twoLines.underline ⟨⟨1, 0, 1⟩, ⟨7, 1, 1⟩⟩ = String.ofList ((List.range' 0 2).flatMap fun n =>
        lines n ++ '\n' :: (carets n ++ ['\n'])) ∧
      (carets 0).idxsOf '^' = [1, 2, 3] ∧ (carets 1).idxsOf '^' = [0] ∧
      Underline.Exact ⟨1, 0, 1⟩ 1 xs (fun n => (carets n).idxsOf '^') := by
  intro xs
  have hsplit : twoLines.text.toList = ['a'] ++ ("\tbc\r\nd".toList ++ "e\n".toList) := by decide
  obtain ⟨-, lines, carets, hrows, hrow, hexact⟩ := Source.underline_marks hsplit
  obtain ⟨-, -, hfirst⟩ := hrow 0 (by decide) (by decide)
  obtain ⟨-, -, hsecond⟩ := hrow 1 (by decide) (by decide)
  have hshown : ∀ n ≤ 1, Spanned.shown xs n ≠ [] := by decide
  have hending : Spanned.ending xs 1 = [] := by decide
  refine ⟨by decide, lines, carets, hrows, hfirst.trans (by decide), hsecond.trans (by decide),
    hexact.mpr ⟨.inr fun n _ hn => hshown n hn, .inl hending⟩⟩

/-- A text of three lines, the second of them blank. -/
def blankLine : Source := ⟨"", "x\n\ny"⟩

/-- Whatever is taken for the caret rows, the carets under all of the text are not right: there are
two characters to mark, and one caret more, under the blank line. -/
theorem blankLine_not_exact :
    let xs := Position.origin.spanned blankLine.text.toList []
    xs = [⟨0, 0, false⟩, ⟨2, 0, false⟩] ∧
    blankLine.underline ⟨⟨0, 0, 0⟩, ⟨4, 2, 1⟩⟩ = "x\n^\n\n^\ny\n^\n" ∧
    ¬ ∃ carets : Nat → List Char,
      blankLine.underline ⟨⟨0, 0, 0⟩, ⟨4, 2, 1⟩⟩ = String.ofList ((List.range' 0 3).flatMap fun n =>
        ((blankLine.line? n).getD "").toList ++ '\n' :: (carets n ++ ['\n'])) ∧
      Underline.Exact ⟨0, 0, 0⟩ 2 xs (fun n => (carets n).idxsOf '^') := by
  intro xs
  have hxs : xs = [⟨0, 0, false⟩, ⟨2, 0, false⟩] := by decide
  have hshown : blankLine.underline ⟨⟨0, 0, 0⟩, ⟨4, 2, 1⟩⟩ = "x\n^\n\n^\ny\n^\n" := by decide
  refine ⟨hxs, hshown, ?_⟩
  rintro ⟨carets, hrows, hexact⟩
  -- the carets of right rows are counted against those of the text
  have hcount (n : Nat) (hn : n ≤ 2) :
      (carets n).count '^' = (Spanned.shown [⟨0, 0, false⟩, ⟨2, 0, false⟩] n).length := by
    have hone : (carets n).idxsOf '^' = _ := hexact n n.zero_le hn
    rw [hxs, if_pos ⟨⟨0, 0, false⟩, by simp⟩] at hone
    rw [← List.length_idxsOf, hone]
  have hlines : ∀ n ≤ 2, ((blankLine.line? n).getD "").toList.count '^' = 0 := by decide
  have hall := congrArg (fun t : String => t.toList.count '^') (hshown.symm.trans hrows)
  simp (disch := decide) only [String.toList_ofList, List.range'_succ, List.range'_zero,
    List.flatMap_cons, List.flatMap_nil, List.count_append, List.count_cons, hcount, hlines] at hall
  revert hall
  decide

end Scriptlet

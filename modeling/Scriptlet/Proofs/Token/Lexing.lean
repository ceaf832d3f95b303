import Scriptlet.Proofs.Text.Slices
import Scriptlet.Proofs.Token.Scan

/-!
# How tokens lie in a text

A text is lexed piece by piece. A row of tokens of it lies one after the other
over a part of it, and that part alone, wherever it stands, has tokens of the
same kinds.
-/

set_option autoImplicit false

namespace Scriptlet

open Text (bytes)

/-- What tokens are, without where they stand. -/
def kinds (ts : List Token) : List Token.Kind := ts.map Token.kind

/-- The span from the first token to the last. -/
def covering (ts : List Token) : Span :=
  ⟨(ts.head?.map fun t => t.span.start).getD .origin,
    (ts.getLast?.map fun t => t.span.stop).getD .origin⟩

/-- Tokens one after the other, that all take some of the text but for its end. -/
def InOrder (ts : List Token) : Prop :=
  ts.Pairwise (fun t u => t.span.stop.index ≤ u.span.start.index) ∧
    ∀ t ∈ ts, t.kind ≠ .mark .stop → t.span.start.index < t.span.stop.index

namespace Lexer

/-- The token at the end of a text. -/
def ending (p : Position) : Token := ⟨.mark .stop, .emptyAt p⟩

/-- The tokens of a text that begins at a position. -/
inductive Lexes : Position → List Char → List Token → Prop where
  | stop (p : Position) : Lexes p [] [ending p]
  | blank {p : Position} {c : Char} {cs taken rest : List Char} {ts : List Token}
      (h : scan c cs = ⟨.blank, taken, rest⟩) (hr : Lexes (p.walk taken) rest ts) :
      Lexes p (c :: cs) ts
  | token {p : Position} {c : Char} {cs taken rest : List Char} {kind : Token.Kind}
      {ts : List Token} (h : scan c cs = ⟨.token kind, taken, rest⟩)
      (hr : Lexes (p.walk taken) rest ts) :
      Lexes p (c :: cs) (⟨kind, ⟨p, p.walk taken⟩⟩ :: ts)

variable {p : Position} {c : Char} {cs taken rest : List Char} {ts : List Token} {r : Reading}

theorem scan_split (h : scan c cs = ⟨r, taken, rest⟩) : taken ++ rest = c :: cs := by
  have hs := scan_append c cs
  rwa [h] at hs

theorem scan_taken_ne_nil (h : scan c cs = ⟨r, taken, rest⟩) : taken ≠ [] := by
  have hrun {q : Char → Bool} (reading : List Char → Reading) (hq : q c = true) :
      (run q reading (c :: cs)).taken ≠ [] := by
    simp [run, hq]
  have hnumber (hd : c.isDigit) : (number (c :: cs)).taken ≠ [] := by
    unfold number
    split <;> simp [hd]
  have htaken : (scan c cs).taken ≠ [] := by
    unfold scan
    split_ifs with hblank hcomment hdigit hword hquote
    · exact hrun _ hblank
    · exact hrun _ (by simp [hcomment])
    · exact hnumber hdigit
    · exact hrun _ (isWordPart_of_isWordStart hword)
    · unfold text
      dsimp only
      split <;> simp
    · have hsingle : (singleMark c cs).taken ≠ [] := by
        unfold singleMark
        split <;> simp
      unfold mark
      split
      · exact hsingle
      · split
        · simp
        · exact hsingle
  rwa [h] at htaken

/-- A piece is the same if the text ends somewhere after it. -/
theorem scan_upTo {body tail : List Char} (hr : ∀ f, r ≠ .fault f)
    (h : scan c cs = ⟨r, taken, body ++ tail⟩) :
    ∃ ds, taken ++ body = c :: ds ∧ scan c ds = ⟨r, taken, body⟩ := by
  cases taken with
  | nil => exact absurd rfl (scan_taken_ne_nil h)
  | cons d us =>
    have hsplit := scan_split h
    rw [List.cons_append] at hsplit
    obtain ⟨rfl, rfl⟩ := List.cons.inj hsplit
    exact ⟨us ++ body, rfl, scan_cut hr h⟩

theorem scan_rest_length (h : scan c cs = ⟨r, taken, rest⟩) : rest.length ≤ cs.length := by
  have hlen := congrArg List.length (scan_split h)
  have hpos := List.length_pos_of_ne_nil (scan_taken_ne_nil h)
  simp only [List.length_append, List.length_cons] at hlen
  omega

theorem lexes_of_tokensFrom {fuel : Nat} {read all : List Token} (hf : cs.length ≤ fuel)
    (h : tokensFrom fuel p cs read = .ok all) : ∃ ts, Lexes p cs ts ∧ all = read.reverse ++ ts := by
  induction fuel generalizing p cs read with
  | zero =>
    obtain rfl := List.length_eq_zero_iff.mp (Nat.le_zero.mp hf)
    obtain rfl := Except.ok.inj h
    exact ⟨_, .stop p, by simp [ending]⟩
  | succ fuel ih =>
    cases cs with
    | nil =>
      obtain rfl := Except.ok.inj h
      exact ⟨_, .stop p, by simp [ending]⟩
    | cons c cs =>
      cases hs : scan c cs with
      | mk r taken rest =>
        have hlen := scan_rest_length hs
        have hrest : rest.length ≤ fuel := Nat.le_trans hlen (Nat.le_of_succ_le_succ hf)
        simp only [Lexer.tokensFrom, hs] at h
        cases r with
        | blank =>
          obtain ⟨ts, hts, rfl⟩ := ih hrest h
          exact ⟨ts, .blank hs hts, rfl⟩
        | token kind =>
          obtain ⟨ts, hts, rfl⟩ := ih hrest h
          exact ⟨_, .token hs hts, by simp⟩
        | fault f => simp at h

theorem Lexes.tokensFrom {fuel : Nat} (h : Lexes p cs ts) (hf : cs.length ≤ fuel)
    (read : List Token) : Lexer.tokensFrom fuel p cs read = .ok (read.reverse ++ ts) := by
  induction h generalizing fuel read with
  | stop p =>
    cases fuel <;> simp [Lexer.tokensFrom, ending]
  | @blank p c cs taken rest ts hs hr ih =>
    obtain ⟨fuel, rfl⟩ : ∃ n, fuel = n + 1 := ⟨fuel - 1, by simp at hf; omega⟩
    have hrest : rest.length ≤ fuel := Nat.le_trans (scan_rest_length hs) (Nat.le_of_succ_le_succ hf)
    simp only [Lexer.tokensFrom, hs, ih hrest read]
  | @token p c cs taken rest kind ts hs hr ih =>
    obtain ⟨fuel, rfl⟩ : ∃ n, fuel = n + 1 := ⟨fuel - 1, by simp at hf; omega⟩
    have hrest : rest.length ≤ fuel := Nat.le_trans (scan_rest_length hs) (Nat.le_of_succ_le_succ hf)
    simp only [Lexer.tokensFrom, hs, ih hrest]
    simp

/-- What the tokens of a text are, without fuel. -/
theorem tokenize_iff {text : String} :
    tokenize text = .ok ts ↔ Lexes .origin text.toList ts := by
  constructor
  · intro h
    obtain ⟨us, hus, rfl⟩ := lexes_of_tokensFrom (Nat.le_refl _) h
    exact hus
  · intro h
    exact h.tokensFrom (Nat.le_refl _) []

namespace Lexes

/-- The kinds of tokens do not depend on where the text begins. -/
theorem shift (h : Lexes p cs ts) (q : Position) : ∃ us, Lexes q cs us ∧ kinds us = kinds ts := by
  induction h generalizing q with
  | stop p => exact ⟨_, .stop q, rfl⟩
  | @blank p c cs taken rest ts hs _ ih =>
    obtain ⟨us, hus, hk⟩ := ih (q.walk taken)
    exact ⟨us, .blank hs hus, hk⟩
  | @token p c cs taken rest kind ts hs _ ih =>
    obtain ⟨us, hus, hk⟩ := ih (q.walk taken)
    exact ⟨_, .token hs hus, congrArg (kind :: ·) hk⟩

/-- The last token, and no other, is the end of the text. -/
theorem getLast? (h : Lexes p cs ts) : ∃ q, ts.getLast? = some (ending q) := by
  induction h with
  | stop p => exact ⟨p, rfl⟩
  | blank _ _ ih => exact ih
  | token _ _ ih =>
    obtain ⟨q, hq⟩ := ih
    exact ⟨q, by simp [List.getLast?_cons, hq]⟩

/-- Before any token lies a part of the text. -/
theorem before {t : Token} {us : List Token} (h : Lexes p cs (us ++ t :: ts)) :
    ∃ front back, cs = front ++ back ∧ t.span.start = p.walk front ∧
      Lexes t.span.start back (t :: ts) := by
  generalize hall : us ++ t :: ts = all at h
  induction h generalizing us with
  | stop p =>
    cases us with
    | nil =>
      obtain ⟨rfl, rfl⟩ := List.cons.inj hall
      exact ⟨[], [], rfl, rfl, .stop p⟩
    | cons u us => simp at hall
  | @blank p c cs taken rest all hs hr ih =>
    obtain ⟨front, back, rfl, hstart, hback⟩ := ih hall
    exact ⟨taken ++ front, back, by rw [← scan_split hs, List.append_assoc],
      by rw [hstart, Position.walk_append], hback⟩
  | @token p c cs taken rest kind all hs hr ih =>
    cases us with
    | nil =>
      obtain ⟨rfl, rfl⟩ := List.cons.inj hall
      exact ⟨[], c :: cs, rfl, rfl, .token hs hr⟩
    | cons u us =>
      obtain ⟨front, back, rfl, hstart, hback⟩ := ih (List.cons.inj hall).2
      exact ⟨taken ++ front, back, by rw [← scan_split hs, List.append_assoc],
        by rw [hstart, Position.walk_append], hback⟩

/-- The text up to the end of a token that is not the last. -/
theorem upTo {t u : Token} {us : List Token} (h : Lexes p cs (us ++ t :: u :: ts)) :
    ∃ body tail, cs = body ++ tail ∧ t.span.stop = p.walk body ∧
      Lexes p body (us ++ [t, ending t.span.stop]) := by
  generalize hall : us ++ t :: u :: ts = all at h
  induction h generalizing us with
  | stop p => cases us <;> simp at hall
  | @blank p c cs taken rest all hs hr ih =>
    obtain ⟨body, tail, rfl, hstop, hbody⟩ := ih hall
    obtain ⟨ds, hds, hcut⟩ := scan_upTo (by simp) hs
    refine ⟨taken ++ body, tail, ?_, ?_, ?_⟩
    · rw [← scan_split hs, List.append_assoc]
    · rw [hstop, Position.walk_append]
    · rw [hds]
      exact .blank hcut hbody
  | @token p c cs taken rest kind all hs hr ih =>
    cases us with
    | nil =>
      obtain ⟨rfl, rfl⟩ := List.cons.inj hall
      have hs' : scan c cs = ⟨.token kind, taken, [] ++ rest⟩ := hs
      obtain ⟨ds, hds, hcut⟩ := scan_upTo (by simp) hs'
      refine ⟨taken, rest, (scan_split hs).symm, rfl, ?_⟩
      have hbody : Lexes p (c :: ds) [⟨kind, ⟨p, p.walk taken⟩⟩, ending (p.walk taken)] :=
        .token hcut (.stop _)
      rw [← hds, List.append_nil] at hbody
      exact hbody
    | cons v us =>
      obtain ⟨rfl, hrest⟩ := List.cons.inj hall
      obtain ⟨body, tail, rfl, hstop, hbody⟩ := ih hrest
      obtain ⟨ds, hds, hcut⟩ := scan_upTo (by simp) hs
      refine ⟨taken ++ body, tail, ?_, ?_, ?_⟩
      · rw [← scan_split hs, List.append_assoc]
      · rw [hstop, Position.walk_append]
      · rw [hds]
        exact .token hcut hbody

/-- Tokens lie one after the other, and all but the last take some of the text. -/
theorem inOrder (h : Lexes p cs ts) :
    (∀ t ∈ ts, p.index ≤ t.span.start.index) ∧ InOrder ts := by
  induction h with
  | stop p =>
    refine ⟨by simp [ending, Span.emptyAt], by simp, ?_⟩
    intro t ht hk
    obtain rfl := List.mem_singleton.mp ht
    exact absurd rfl hk
  | @blank p c cs taken rest ts hs hr ih =>
    obtain ⟨hfrom, hord⟩ := ih
    refine ⟨fun t ht => ?_, hord⟩
    have hle := hfrom t ht
    rw [Position.walk_index] at hle
    omega
  | @token p c cs taken rest kind ts hs hr ih =>
    obtain ⟨hfrom, hord⟩ := ih
    have hpos := Text.bytes_pos (scan_taken_ne_nil hs)
    have hstop := Position.walk_index p taken
    refine ⟨fun t ht => ?_, List.pairwise_cons.mpr ⟨hfrom, hord.1⟩, fun t ht hk => ?_⟩
    · rcases List.mem_cons.mp ht with rfl | ht
      · exact Nat.le_refl _
      · have hle := hfrom t ht
        omega
    · rcases List.mem_cons.mp ht with rfl | ht
      · show p.index < (p.walk taken).index
        omega
      · exact hord.2 t ht hk

end Lexes

end Lexer

/-- The text under a row of tokens has tokens of the same kinds. -/
theorem tokenize_slice {s : Source} {front row back : List Token}
    (h : tokenize s.text = .ok (front ++ (row ++ back))) (hrow : row ≠ []) (hback : back ≠ []) :
    ∃ ts, tokenize (s.slice (covering row)) = .ok ts ∧ kinds ts = kinds row ++ [.mark .stop] := by
  obtain ⟨t, ts, rfl⟩ := List.exists_cons_of_ne_nil hrow
  obtain ⟨v, vs, rfl⟩ := List.exists_cons_of_ne_nil hback
  obtain ⟨init, u, hinit⟩ : ∃ init u, t :: ts = init ++ [u] :=
    ⟨_, _, (List.dropLast_append_getLast hrow).symm⟩
  have hlex := Lexer.tokenize_iff.mp h
  obtain ⟨before, rest, htext, hstart, hrest⟩ := hlex.before
  have hrest' : Lexer.Lexes t.span.start rest (init ++ u :: v :: vs) := by
    have hall : t :: (ts ++ v :: vs) = init ++ u :: v :: vs := by
      rw [← List.cons_append, hinit]
      simp
    exact hall ▸ hrest
  obtain ⟨body, tail, rfl, hstop, hbody⟩ := hrest'.upTo
  have hfirst : (covering (t :: ts)).start = t.span.start := rfl
  have hlast : (covering (t :: ts)).stop = u.span.stop := by simp [covering, hinit]
  have hslice : s.slice (covering (t :: ts)) = String.ofList body := by
    apply Source.slice_eq htext
    · rw [hfirst, hstart, Position.walk_index]
      exact Nat.zero_add _
    · rw [hlast, hstop, hstart, Position.walk_index, Position.walk_index]
      exact congrArg (· + _) (Nat.zero_add _)
  obtain ⟨us, hus, hk⟩ := hbody.shift .origin
  refine ⟨us, ?_, ?_⟩
  · rw [hslice, Lexer.tokenize_iff, String.toList_ofList]
    exact hus
  · rw [hk, hinit]
    simp [kinds, Lexer.ending]

end Scriptlet

import Scriptlet.Proofs.Text.Lines
import Scriptlet.Proofs.Token.Lexing

/-!
# Tokens tile a text

The tokens of a text and the gaps between them are all of it, in order. What
lies in a gap is blank or a comment. Each token is found again in its own text
alone, and before a piece that is no token the text has tokens.
-/

set_option autoImplicit false

namespace Scriptlet

/-- Blanks, and perhaps a comment after them. -/
def Gap (cs : List Char) : Prop :=
  ∃ blanks comment, cs = blanks ++ comment ∧ (∀ c ∈ blanks, c = ' ' ∨ c = '\t' ∨ c = '\r') ∧
    (comment = [] ∨ ∃ body, comment = '#' :: body ∧ '\n' ∉ body)

namespace Gap

variable {cs ds taken : List Char}

theorem nil : Gap [] := ⟨[], [], rfl, List.forall_mem_nil _, .inl rfl⟩

theorem blanks_append (hb : ∀ c ∈ taken, c = ' ' ∨ c = '\t' ∨ c = '\r') (h : Gap cs) :
    Gap (taken ++ cs) := by
  obtain ⟨blanks, comment, rfl, hblanks, hcomment⟩ := h
  exact ⟨taken ++ blanks, comment, (List.append_assoc ..).symm,
    List.forall_mem_append.mpr ⟨hb, hblanks⟩, hcomment⟩

theorem comment (h : '\n' ∉ cs) : Gap ('#' :: cs) :=
  ⟨[], '#' :: cs, rfl, List.forall_mem_nil _, .inr ⟨cs, rfl, h⟩⟩

/-- No gap begins where a line ends. -/
theorem eq_nil (h : Gap cs) (hhead : ∀ c ∈ (cs ++ ds).head?, c = '\n') : cs = [] := by
  obtain ⟨blanks, comment, rfl, hblanks, hcomment⟩ := h
  cases blanks with
  | nil =>
    rcases hcomment with rfl | ⟨body, rfl, -⟩
    · rfl
    · simp at hhead
  | cons c blanks =>
    have hc := hblanks c (List.mem_cons_self ..)
    obtain rfl : c = '\n' := by simpa using hhead
    simp at hc

end Gap

namespace Lexer

variable {p : Position} {c : Char} {cs taken rest : List Char} {ts : List Token}

/-- A piece that is seen: neither blank nor the end of a text. -/
def Reading.Seen : Reading → Prop
  | .blank => False
  | .token kind => kind ≠ .mark .stop
  | .fault _ => True

theorem number_seen (cs : List Char) : (number cs).reading.Seen := by
  unfold number
  split
  · simp only [decimalReading]
    split <;> simp [Reading.Seen]
  · simp only [integerReading]
    split <;> simp [Reading.Seen]

theorem wordReading_seen (cs : List Char) : (wordReading cs).Seen := by
  simp only [wordReading]
  split <;> simp [Reading.Seen]

theorem text_seen (cs : List Char) : (text cs).reading.Seen := by
  simp only [text]
  split <;> simp [Reading.Seen]

theorem mark_seen (c : Char) (cs : List Char) : (mark c cs).reading.Seen := by
  have hpair (d : Char) : pair? c d ≠ some .stop := by
    unfold pair?
    split <;> simp
  have hone : single? c ≠ some .stop := by
    unfold single?
    split <;> simp
  have hsingle (ds : List Char) : (singleMark c ds).reading.Seen := by
    unfold singleMark
    split <;> simp_all [Reading.Seen]
  unfold mark
  split
  · exact hsingle _
  · split
    · rename_i m hm
      simpa [Reading.Seen] using fun he : m = .stop => hpair _ (he ▸ hm)
    · exact hsingle _

theorem scan_seen (cs : List Char) (hblank : isBlank c = false) (hcomment : c ≠ '#') :
    (scan c cs).reading.Seen := by
  unfold scan
  rw [if_neg (by simp [hblank]), if_neg hcomment]
  split_ifs with hdigit hword hquote
  · exact number_seen _
  · exact wordReading_seen _
  · exact text_seen _
  · exact mark_seen ..

/-- A blank piece is a row of blanks, or a comment up to the end of its line. -/
theorem scan_blank (h : scan c cs = ⟨.blank, taken, rest⟩) :
    (∀ d ∈ taken, d = ' ' ∨ d = '\t' ∨ d = '\r') ∨
      ∃ body, taken = '#' :: body ∧ '\n' ∉ body ∧ ∀ d ∈ rest.head?, d = '\n' := by
  by_cases hblank : isBlank c
  · left
    rw [scan, if_pos hblank] at h
    obtain ⟨-, rfl, -⟩ := Piece.mk.inj h
    intro d hd
    have hd := List.mem_takeWhile_imp hd
    simpa [isBlank, or_assoc] using hd
  by_cases hcomment : c = '#'
  · right
    subst hcomment
    rw [scan, if_neg hblank, if_pos rfl] at h
    obtain ⟨-, rfl, rfl⟩ := Piece.mk.inj h
    refine ⟨cs.takeWhile (· ≠ '\n'), by simp, fun hm => ?_, fun d hd => ?_⟩
    · simpa using List.mem_takeWhile_imp hm
    · have hnot := List.head?_dropWhile_not (fun c : Char => decide (c ≠ '\n')) ('#' :: cs)
      rw [Option.mem_def.mp hd] at hnot
      simpa using hnot
  · have hseen := scan_seen cs (by simpa using hblank) hcomment
    rw [h] at hseen
    exact hseen.elim

/-- No piece of a text is the end of it. -/
theorem scan_ne_stop (c : Char) (cs : List Char) :
    (scan c cs).reading ≠ .token (.mark .stop) := by
  intro h
  by_cases hblank : isBlank c
  · simp [scan, hblank, run] at h
  by_cases hcomment : c = '#'
  · simp [scan, hcomment, run, isBlank] at h
  · have hseen := scan_seen cs (by simpa using hblank) hcomment
    rw [h] at hseen
    exact hseen rfl

/-- A text whose only token is of a kind. -/
def Alone (kind : Token.Kind) (cs : List Char) : Prop :=
  ∀ p, ∃ t, t.kind = kind ∧ Lexes p cs [t, ending (p.walk cs)]

/-- Gaps and tokens in turn, from a position on. -/
inductive Tiles : Position → List Char → List Token → Prop where
  | stop {gap : List Char} (p : Position) (hg : Gap gap) : Tiles p gap [ending (p.walk gap)]
  | token {p : Position} {gap lexeme rest : List Char} {kind : Token.Kind} {ts : List Token}
      (hg : Gap gap) (hne : lexeme ≠ []) (hk : kind ≠ .mark .stop) (ha : Alone kind lexeme)
      (hr : Tiles ((p.walk gap).walk lexeme) rest ts) :
      Tiles p (gap ++ (lexeme ++ rest))
        (⟨kind, ⟨p.walk gap, (p.walk gap).walk lexeme⟩⟩ :: ts)

/-- A blank piece belongs to the gap that it stands before. -/
theorem gap_of_scan {gap ds : List Char} (h : scan c cs = ⟨.blank, taken, gap ++ ds⟩)
    (hg : Gap gap) : Gap (taken ++ gap) := by
  rcases scan_blank h with hblanks | ⟨body, rfl, hbody, hhead⟩
  · exact hg.blanks_append hblanks
  · obtain rfl := hg.eq_nil hhead
    simpa using Gap.comment hbody

theorem Tiles.blank (h : scan c cs = ⟨.blank, taken, rest⟩) (ht : Tiles (p.walk taken) rest ts) :
    Tiles p (taken ++ rest) ts := by
  cases ht with
  | stop _ hg =>
    have hgap := gap_of_scan (h.trans (by rw [List.append_nil])) hg
    rw [← Position.walk_append]
    exact .stop p hgap
  | token hg hne hk ha hr =>
    have hgap := gap_of_scan h hg
    rw [← List.append_assoc, ← Position.walk_append]
    rw [← Position.walk_append p taken] at hr
    exact .token hgap hne hk ha hr

theorem alone_of_scan {kind : Token.Kind} (h : scan c cs = ⟨.token kind, taken, rest⟩) :
    Alone kind taken := by
  intro p
  have hscan : scan c cs = ⟨.token kind, taken, [] ++ rest⟩ := h
  obtain ⟨ds, hds, hcut⟩ := scan_upTo (by simp) hscan
  rw [List.append_nil] at hds
  refine ⟨⟨kind, ⟨p, p.walk taken⟩⟩, rfl, ?_⟩
  have hlex : Lexes p (c :: ds) _ := .token hcut (.stop _)
  rwa [← hds] at hlex

theorem Lexes.tiles (h : Lexes p cs ts) : Tiles p cs ts := by
  induction h with
  | stop p => exact .stop p .nil
  | blank hs _ ih => exact scan_split hs ▸ ih.blank hs
  | @token p c cs taken rest kind ts hs hr ih =>
    have hk : kind ≠ .mark .stop := by
      rintro rfl
      exact scan_ne_stop c cs (congrArg Piece.reading hs)
    have htiles := Tiles.token (p := p) .nil (scan_taken_ne_nil hs) hk (alone_of_scan hs) ih
    exact scan_split hs ▸ htiles

/-- Only the last token is the end of the text. -/
theorem Lexes.ends (h : Lexes p cs ts) :
    ∃ init q, ts = init ++ [ending q] ∧ ∀ t ∈ init, t.kind ≠ .mark .stop := by
  induction h with
  | stop p => exact ⟨[], p, rfl, List.forall_mem_nil _⟩
  | blank _ _ ih => exact ih
  | @token p c cs taken rest kind ts hs _ ih =>
    obtain ⟨init, q, rfl, hinit⟩ := ih
    refine ⟨_ :: init, q, rfl, List.forall_mem_cons.mpr ⟨?_, hinit⟩⟩
    rintro rfl
    exact scan_ne_stop c cs (congrArg Piece.reading hs)

theorem Tiles.ne_nil (h : Tiles p cs ts) : ts ≠ [] := by
  cases h <;> simp

/-- Where lexing stops, a piece of the text is left that is no token, and all before it lexes. -/
theorem tokensFrom_error {fuel : Nat} {read : List Token} {e : Misread}
    (h : tokensFrom fuel p cs read = .error e) :
    ∃ front piece rest ts, cs = front ++ (piece ++ rest) ∧ piece ≠ [] ∧
      e.span = ⟨p.walk front, (p.walk front).walk piece⟩ ∧ Lexes p front ts := by
  induction fuel generalizing p cs read with
  | zero => simp [tokensFrom] at h
  | succ fuel ih =>
    cases cs with
    | nil => simp [tokensFrom] at h
    | cons c cs =>
      cases hs : scan c cs with
      | mk r taken rest =>
        have hsplit := scan_split hs
        simp only [tokensFrom, hs] at h
        cases r with
        | fault f =>
          obtain rfl := Except.error.inj h
          exact ⟨[], taken, rest, _, hsplit.symm, scan_taken_ne_nil hs, rfl, .stop p⟩
        | blank =>
          obtain ⟨front, piece, tail, ts, rfl, hne, hspan, hlex⟩ := ih h
          obtain ⟨ds, hds, hcut⟩ := scan_upTo (by simp) hs
          refine ⟨taken ++ front, piece, tail, ts, ?_, hne, ?_, ?_⟩
          · rw [← hsplit, List.append_assoc]
          · rw [hspan, Position.walk_append]
          · exact hds ▸ .blank hcut hlex
        | token kind =>
          obtain ⟨front, piece, tail, ts, rfl, hne, hspan, hlex⟩ := ih h
          obtain ⟨ds, hds, hcut⟩ := scan_upTo (by simp) hs
          refine ⟨taken ++ front, piece, tail, ⟨kind, ⟨p, p.walk taken⟩⟩ :: ts, ?_, hne, ?_, ?_⟩
          · rw [← hsplit, List.append_assoc]
          · rw [hspan, Position.walk_append]
          · exact hds ▸ .token hcut hlex

end Lexer

namespace Source

variable {s : Source} {p : Position} {ts : List Token}

/-- A position that is reached by stepping over the text from its start. -/
def Placed (s : Source) (p : Position) : Prop := ∃ front back, s.Place p front back

/-- The text from a position on, as tokens with gaps between them. -/
structure Tiled (s : Source) (p : Position) (ts : List Token) : Prop where
  ordered : (.emptyAt p :: ts.map Token.span).Pairwise fun a b => a.stop.index ≤ b.start.index
  gaps : (.emptyAt p :: ts.map Token.span).IsChain fun a b => Gap (s.slice ⟨a.stop, b.start⟩).toList
  taken : ∀ t ∈ ts.dropLast, t.kind ≠ .mark .stop ∧ t.span.start.index < t.span.stop.index
  last : ts.getLast? = some (Lexer.ending (.walk .origin s.text.toList))
  placed : ∀ t ∈ ts, s.Placed t.span.start ∧ s.Placed t.span.stop
  alone : ∀ t ∈ ts.dropLast,
    ∃ us, tokenize (s.slice t.span) = .ok us ∧ kinds us = [t.kind, .mark .stop]

/-- A piece of the text that is no token, with tokens before it. -/
structure Stops (s : Source) (e : Lexer.Misread) : Prop where
  placed : s.Placed e.span.start ∧ s.Placed e.span.stop
  taken : e.span.start.index < e.span.stop.index
  within : e.span.stop.index ≤ s.text.utf8ByteSize
  before : ∃ ts, tokenize (s.slice ⟨.origin, e.span.start⟩) = .ok ts

theorem placed_walk {front back : List Char} (h : s.text.toList = front ++ back) :
    s.Placed (.walk .origin front) := ⟨front, back, place_walk h⟩

/-- The slice between two positions is what is stepped over between them. -/
theorem slice_walk {front body back : List Char} (h : s.text.toList = front ++ (body ++ back)) :
    s.slice ⟨.walk .origin front, (Position.walk .origin front).walk body⟩ =
      String.ofList body := by
  have hfront : (Position.walk .origin front).index = Text.bytes front := by
    rw [Position.walk_index]
    exact Nat.zero_add _
  exact slice_eq h hfront (by rw [Position.walk_index, hfront])

/-- What is left of a text after its last token is a gap. -/
theorem tiled_stop {front gap : List Char} (hg : Gap gap) (hs : s.text.toList = front ++ gap) :
    s.Tiled (.walk .origin front) [Lexer.ending ((Position.walk .origin front).walk gap)] := by
  have hend : (Position.walk .origin front).walk gap = .walk .origin s.text.toList := by
    rw [hs, Position.walk_append]
  have hplaced : s.Placed (.walk .origin s.text.toList) :=
    placed_walk (List.append_nil _).symm
  have hslice : s.slice ⟨.walk .origin front, (Position.walk .origin front).walk gap⟩ =
      String.ofList gap := slice_walk (hs.trans (by rw [List.append_nil]))
  refine ⟨?_, ?_, by simp, by rw [hend]; rfl, by simpa [Lexer.ending, Span.emptyAt, hend], by simp⟩
  · simp [Lexer.ending, Span.emptyAt, Position.walk_index]
  · simpa [Lexer.ending, Span.emptyAt, hslice] using hg

/-- A gap and a token before what is tiled. -/
theorem Tiled.token {front gap lexeme rest : List Char} {kind : Token.Kind} (hg : Gap gap)
    (hne : lexeme ≠ []) (hk : kind ≠ .mark .stop) (ha : Lexer.Alone kind lexeme) (hts : ts ≠ [])
    (hs : s.text.toList = front ++ (gap ++ (lexeme ++ rest)))
    (hp : p = .walk .origin front) (h : s.Tiled ((p.walk gap).walk lexeme) ts) :
    s.Tiled p (⟨kind, ⟨p.walk gap, (p.walk gap).walk lexeme⟩⟩ :: ts) := by
  subst hp
  have hgap : s.slice ⟨.walk .origin front, (Position.walk .origin front).walk gap⟩ =
      String.ofList gap := slice_walk hs
  have hs' : s.text.toList = (front ++ gap) ++ (lexeme ++ rest) := by rw [hs, List.append_assoc]
  have hlexeme := slice_walk hs'
  have hstart := placed_walk hs'
  have hstop : s.Placed (.walk .origin (front ++ gap ++ lexeme)) :=
    placed_walk (hs'.trans (List.append_assoc ..).symm)
  simp only [Position.walk_append] at hlexeme hstart hstop
  have hpos := Text.bytes_pos hne
  obtain ⟨hafter, hordered⟩ := List.pairwise_cons.mp h.ordered
  refine ⟨?_, ?_, ?_, ?_, ?_, ?_⟩
  · refine List.pairwise_cons.mpr ⟨?_, List.pairwise_cons.mpr ⟨hafter, hordered⟩⟩
    rw [List.map_cons, List.forall_mem_cons]
    refine ⟨by simp [Span.emptyAt, Position.walk_index], fun b hb => ?_⟩
    have hle := hafter b hb
    simp only [Span.emptyAt, Position.walk_index] at hle ⊢
    omega
  · obtain ⟨u, us, rfl⟩ := List.exists_cons_of_ne_nil hts
    obtain ⟨hnext, hgaps⟩ := List.isChain_cons_cons.mp h.gaps
    refine List.isChain_cons_cons.mpr ⟨?_, List.isChain_cons_cons.mpr ⟨hnext, hgaps⟩⟩
    simpa [Span.emptyAt, hgap] using hg
  · rw [List.dropLast_cons_of_ne_nil hts, List.forall_mem_cons]
    refine ⟨⟨hk, ?_⟩, h.taken⟩
    simp only [Position.walk_index]
    omega
  · rw [List.getLast?_cons_of_ne_nil hts]
    exact h.last
  · exact List.forall_mem_cons.mpr ⟨⟨hstart, hstop⟩, h.placed⟩
  · rw [List.dropLast_cons_of_ne_nil hts, List.forall_mem_cons]
    refine ⟨?_, h.alone⟩
    obtain ⟨t, rfl, hlex⟩ := ha .origin
    refine ⟨[t, Lexer.ending (.walk .origin lexeme)], ?_, rfl⟩
    rw [hlexeme, Lexer.tokenize_iff, String.toList_ofList]
    exact hlex

theorem tiled_of_tiles {cs : List Char} (h : Lexer.Tiles p cs ts) (front : List Char)
    (hs : s.text.toList = front ++ cs) (hp : p = .walk .origin front) : s.Tiled p ts := by
  induction h generalizing front with
  | stop p hg =>
    subst hp
    exact tiled_stop hg hs
  | @token p gap lexeme rest kind ts hg hne hk ha hr ih =>
    have hrest := ih (front ++ (gap ++ lexeme)) (by simp [hs])
      (by simp [hp, Position.walk_append])
    exact .token hg hne hk ha hr.ne_nil hs hp hrest

/-- The tokens of a text tile it; a text without tokens has them up to the piece that is none. -/
theorem tokens_tile (s : Source) :
    match tokenize s.text with
    | .ok ts => s.Tiled .origin ts
    | .error e => s.Stops e := by
  split
  · next ts h => exact tiled_of_tiles (Lexer.tokenize_iff.mp h).tiles [] rfl rfl
  · next e h =>
    obtain ⟨front, piece, rest, ts, hcs, hne, hspan, hlex⟩ := Lexer.tokensFrom_error h
    have hpos := Text.bytes_pos hne
    have hslice : s.slice ⟨.origin, .walk .origin front⟩ = String.ofList front :=
      slice_walk (hcs.trans (List.nil_append _).symm)
    refine ⟨⟨?_, ?_⟩, ?_, ?_, ts, ?_⟩
    · rw [hspan]
      exact placed_walk hcs
    · rw [hspan, ← Position.walk_append]
      exact placed_walk (by rw [hcs, List.append_assoc])
    · rw [hspan]
      simp only [Position.walk_index]
      omega
    · rw [hspan, Text.utf8ByteSize_eq, hcs]
      simp only [Position.walk_index, Text.bytes_append, Position.origin]
      omega
    · rw [hspan, hslice, Lexer.tokenize_iff, String.toList_ofList]
      exact hlex

end Source

end Scriptlet

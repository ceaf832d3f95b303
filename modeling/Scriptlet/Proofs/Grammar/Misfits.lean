import Scriptlet.Proofs.Grammar.Unbounded
import Scriptlet.Proofs.Grammar.Viable.Productions

/-!
# Where tokens do not fit

A row of tokens that is no program has a first token that does not fit. What
is expected there, and where this is reported, is settled by the tokens up to
that one, and the tokens before it are the beginning of a program.
-/

set_option autoImplicit false

namespace Scriptlet

open Token (Kind)

namespace Cursor

/-- The last of some tokens that is no separator. -/
theorem contentFrom_last {before seps : List Token} {u : Token} (p : Option Position)
    (hu : u.kind ≠ .mark .separator) (hseps : ∀ t ∈ seps, t.kind = .mark .separator) :
    contentFrom p (before ++ u :: seps) = some u.span.stop := by
  have hnone (q : Option Position) : contentFrom q seps = q := by
    induction seps with
    | nil => rfl
    | cons t seps ih =>
      obtain ⟨ht, hseps⟩ := List.forall_mem_cons.mp hseps
      rw [contentFrom, List.foldl_cons, ht]
      exact ih hseps
  have hmark : u.kind.isMark .separator = false :=
    Bool.eq_false_iff.mpr fun h => hu (Kind.isMark_iff.mp h)
  rw [contentFrom_append]
  show contentFrom (if u.kind.isMark .separator then _ else some u.span.stop) seps = _
  rw [hmark, hnone]
  rfl

theorem exists_last_content {ts : List Token} (h : ∃ t ∈ ts, t.kind ≠ .mark .separator) :
    ∃ before u seps, ts = before ++ u :: seps ∧ u.kind ≠ .mark .separator ∧
      ∀ t ∈ seps, t.kind = .mark .separator := by
  induction ts with
  | nil => simp at h
  | cons t ts ih =>
    by_cases hrest : ∃ u ∈ ts, u.kind ≠ .mark .separator
    · obtain ⟨before, u, seps, rfl, hu, hseps⟩ := ih hrest
      exact ⟨t :: before, u, seps, rfl, hu, hseps⟩
    · obtain ⟨u, hu, hk⟩ := h
      rcases List.mem_cons.mp hu with rfl | hu
      · refine ⟨[], u, ts, rfl, hk, fun t ht => ?_⟩
        by_contra hsep
        exact hrest ⟨t, ht, hsep⟩
      · exact absurd ⟨u, hu, hk⟩ hrest

end Cursor

/-- Where a misfit is reported, from the tokens that were passed before it. -/
theorem Misfit.span_after {m : Misfit} {c : Cursor} {front rest : List Token} {t : Token}
    (h : c.After front m.cursor) (hrest : m.cursor.rest = t :: rest) :
    m.span = if t.kind.isMark .separator || t.kind.isMark .stop then
      .emptyAt ((Cursor.contentFrom c.contentEnd front).getD (endFrom c.lastEnd front))
      else t.span := by
  have hk : m.cursor.kind = t.kind := by rw [Cursor.kind, hrest]
  have hs : m.cursor.span = t.span := by rw [Cursor.span, hrest]
  rw [Misfit.span, hk, hs, h.contentEnd, h.lastEnd]

namespace Grammar

open Reader

variable {tokens : List Token} {c : Cursor} {m : Misfit}

/-- Where an error is at the end of a line, something was read before it. -/
theorem content_before (hc : c.Inside (closed tokens)) {front : List Token}
    (ha : c.After front m.cursor) (h : program c = .error m)
    (hk : m.cursor.kind = .mark .separator ∨ m.cursor.kind = .mark .stop) :
    ∃ t ∈ front, t.kind ≠ .mark .separator := by
  obtain ⟨hsep, seps, hseps, hskip⟩ := c.after_skipSeparators
  have hbody := statementsUntil_advances [] (c.skipSeparators.rest.length + 1) c.skipSeparators
  rw [program_production hc, programWith, here_bind, statements_eq, bind_assoc,
    skipSeparators_bind] at h
  have hstop : c.skipSeparators.kind ≠ .mark .stop := by
    intro hstop
    have hlines : lines production [] c.skipSeparators = .ok ([], c.skipSeparators) := by
      rw [lines, remaining_bind, statementsUntil, atMark_bind, atAnyKeyword_bind, hstop]
      rfl
    rcases bind_error.mp h with h | ⟨body, c', h, hend⟩
    · cases hlines.symm.trans h
    · obtain ⟨-, rfl⟩ := Prod.mk.inj (Except.ok.inj (hlines.symm.trans h))
      rw [atMark_bind, hstop] at hend
      cases hend
  obtain ⟨us, hus⟩ : ∃ us, c.skipSeparators.After us m.cursor := by
    rcases bind_error.mp h with h | ⟨body, c', h, hend⟩
    · rw [show statementsUntil production [] _ _ = _ from h] at hbody
      exact hbody.imp fun _ => And.left
    · rw [show statementsUntil production [] _ _ = _ from h] at hbody
      obtain ⟨us, ha, -, -⟩ := hbody
      rw [atMark_bind] at hend
      split at hend
      · cases hend
      · exact ⟨us, (Except.error.inj hend) ▸ ha⟩
  obtain rfl : front = seps ++ us :=
    List.append_cancel_right (ha.rest.symm.trans (hskip.trans hus).rest)
  cases us with
  | nil =>
    have hkind : c.skipSeparators.kind = m.cursor.kind := hus.kind
    rw [← hkind] at hk
    exact hk.elim (fun h => absurd h hsep) fun h => absurd h hstop
  | cons u us => exact ⟨u, by simp, fun h => hsep (hus.kind.trans h)⟩

/-- Separators and tokens that are read as statements, up to the end of a text. -/
def Complete (ts : List Token) : Prop :=
  ∃ seps row ns, ts = seps ++ row ∧ (∀ t ∈ seps, t.kind = .mark .separator) ∧
    Reads (.lines [] ns) row (.mark .stop)

theorem Complete.program {ts : List Token} (h : Complete ts) :
    ∃ p, Program.ofTokens (ts ++ [ofKind (.mark .stop)]) = .ok p := by
  obtain ⟨seps, row, ns, rfl, hseps, h⟩ := h
  have hstop : (ofKind (.mark .stop)).kind = .mark .stop := rfl
  obtain ⟨p, hp, -⟩ := Program.ofTokens_of_lines (seps ++ row) hstop hseps h rfl
  exact ⟨p, hp⟩

/-- After statements a program goes on only to look for the end of the text. -/
theorem lines_last {α : Type} {on : Kind → Prop} {Q : List Token → Prop}
    {f : List Node → Reader α} (depth : Nat)
    (hQ : ∀ ns ts, Reads (.lines [] ns) ts (.mark .stop) → Q ts)
    (hf : ∀ ns c m, f ns c = .error m → m.cursor = c) :
    Resumes on Q (lines (reader depth) [] >>= f) := by
  refine .bind (P := fun ns ts k => Reads (.lines [] ns) ts k) ?_ ?_ fun ns ts k h => ?_
  · exact (lines_viable (reader_sound depth) (reader_viable depth) .stop (.inl rfl)).imp
      fun ts ⟨ns, h⟩ => ⟨ns, _, h⟩
  · exact fun c ns c' _ h => statementsUntil_sound (reader_sound depth) (Nat.lt_succ_self _) h
  · refine .atOnce ⟨[], ?_⟩ fun c m _ => hf ns c m
    rw [List.append_nil]
    exact hQ ns ts (h.endsAt .stop (.inl rfl))

theorem programWith_viable (depth : Nat) :
    Resumes (fun _ => True) Complete (programWith (reader depth)) := by
  have hnone : ∃ ts, Complete ts :=
    ⟨[], [], [], [], rfl, List.forall_mem_nil _, .noLines (.inl rfl)⟩
  refine .still (v := fun c => c.span.start) (fun _ => rfl) hnone fun start => ?_
  rw [statements_eq, bind_assoc]
  have hend (ns : List Node) (c : Cursor) (m : Misfit)
      (h : (do
        if ← atMark .stop then
          let stop : Span ← fun c => .ok (c.span, c)
          return Program.mk ns ⟨start, stop.stop⟩
        else fail .operatorOrEnd : Reader Program) c = .error m) : m.cursor = c := by
    rw [atMark_bind] at h
    split at h
    · cases h
    · exact (Except.error.inj h) ▸ rfl
  refine .ofKinds (fun k _ => ?_) hnone
  by_cases hk : k = .mark .separator
  · subst hk
    exact .separators fun seps hseps => lines_last depth
      (fun ns row h => ⟨seps, row, ns, rfl, hseps.2, h⟩) hend
  · exact .noSeparators (fun _ h => h ▸ hk) (lines_last depth
      (fun ns row h => ⟨[], row, ns, rfl, List.forall_mem_nil _, h⟩) hend)

end Grammar

namespace Program

open Grammar Reader

theorem ofTokens_error {tokens : List Token} {m : Misfit} :
    Program.ofTokens tokens = .error m ↔
      Grammar.program (.ofTokens (closed tokens)) = .error m := by
  unfold Program.ofTokens
  cases Grammar.program (.ofTokens (closed tokens)) <;> simp

/-- Nothing is looked at behind the token that does not fit. -/
theorem ofTokens_error_alike {tokens tokens' front rest rest' : List Token} {t : Token}
    {m : Misfit} (h : Program.ofTokens tokens = .error m)
    (htokens : closed tokens = front ++ t :: rest) (hm : m.cursor.rest = t :: rest)
    (htokens' : closed tokens' = front ++ t :: rest') :
    ∃ m', Program.ofTokens tokens' = .error m' ∧ m'.span = m.span ∧ m'.expected = m.expected := by
  have hin := inside_start tokens
  have hin' := inside_start tokens'
  let S : Alignment := ⟨.none, rest, rest', False, False.elim, False.elim⟩
  have hmoved (ts : List Token) : moved Move.none ts = ts := moved_none_list (fun _ => rfl) ts
  have hbeside : S.Beside true (front ++ [t]) (.ofTokens (closed tokens))
      (.ofTokens (closed tokens')) := by
    refine ⟨by simp [Cursor.ofTokens, htokens, S], ?_, fun _ => ?_⟩
    · show closed tokens' = moved Move.none (front ++ [t]) ++ rest'
      rw [hmoved, htokens', List.append_assoc]
      rfl
    · rw [htokens, htokens']
      cases front <;> rfl
  have hkeeps : Keeps S (front ++ [t]).length (fun _ => True) true false (programWith production)
      (programWith production) := programWith_keeps id production_keeps
  rw [ofTokens_error, program_production hin] at h
  have hleft : m.cursor.rest = [t] ++ S.left := hm
  obtain ⟨d', hd', hrest⟩ := hkeeps.error hbeside (Nat.le_refl _) trivial h hleft (by simp)
  refine ⟨⟨m.expected, d'⟩, ?_, ?_, rfl⟩
  · rw [ofTokens_error, program_production hin', hd']
  · have ha := programWith_advances (.ofTokens (closed tokens))
    have hb := programWith_advances (.ofTokens (closed tokens'))
    rw [h] at ha
    rw [hd'] at hb
    obtain ⟨us, ha, -⟩ := ha
    obtain ⟨vs, hb, -⟩ := hb
    have hright : d'.rest = t :: rest' := hrest.right.trans (congrArg (· ++ rest') (hmoved [t]))
    obtain rfl : front = us := by
      have hall := htokens.symm.trans ha.rest
      rw [hm] at hall
      exact List.append_cancel_right hall
    obtain rfl : front = vs := by
      have hall := htokens'.symm.trans hb.rest
      rw [hright] at hall
      exact List.append_cancel_right hall
    rw [Misfit.span_after ha hm, Misfit.span_after (m := ⟨m.expected, d'⟩) hb hright,
      hbeside.lastEnd rfl]
    rfl

/-- Tokens that are no program have a first token that does not fit. What is expected there and
where, is the same for all tokens that begin alike up to this one. With other tokens in its place
those before it are a program. It is reported at the token, or where its line ends behind the
last token before. -/
theorem ofTokens_misfit {tokens : List Token} {m : Misfit}
    (h : Program.ofTokens tokens = .error m) :
    ∃ front t rest, closed tokens = front ++ t :: rest ∧ m.cursor.rest = t :: rest ∧
      (∀ u ∈ front, u.kind ≠ .mark .stop) ∧
      (∀ tokens', (closed tokens').take (front.length + 1) =
          (closed tokens).take (front.length + 1) →
        ∃ m', Program.ofTokens tokens' = .error m' ∧ m'.span = m.span ∧
          m'.expected = m.expected) ∧
      (∃ more p, Program.ofTokens (front ++ more) = .ok p) ∧
      (t.kind ≠ .mark .separator → t.kind ≠ .mark .stop → m.span = t.span) ∧
      (t.kind = .mark .separator ∨ t.kind = .mark .stop →
        ∃ before u seps, front = before ++ u :: seps ∧ u.kind ≠ .mark .separator ∧
          (∀ s ∈ seps, s.kind = .mark .separator) ∧ m.span = .emptyAt u.span.stop) := by
  have hin := inside_start tokens
  have hrun := ofTokens_error.mp h
  have hadvances := programWith_advances (.ofTokens (closed tokens))
  rw [← program_production hin, hrun] at hadvances
  have hinside := (hadvances.endsInside hin).2
  obtain ⟨front, ha, hfront⟩ := hadvances
  obtain ⟨t, rest, hrest⟩ := List.exists_cons_of_ne_nil hinside
  have htokens : closed tokens = front ++ t :: rest := ha.rest.trans (congrArg (front ++ ·) hrest)
  have hspan := Misfit.span_after ha hrest
  have hkind : m.cursor.kind = t.kind := by rw [Cursor.kind, hrest]
  refine ⟨front, t, rest, htokens, hrest, hfront, fun tokens' htake => ?_, ?_, fun hsep hstop => ?_,
    fun hk => ?_⟩
  · have htaken : (closed tokens').take (front.length + 1) = front ++ [t] := by
      rw [htake, htokens, List.take_length_add_append]
      rfl
    have hsplit := List.take_append_drop (front.length + 1) (closed tokens')
    rw [htaken, List.append_assoc] at hsplit
    exact ofTokens_error_alike h htokens hrest hsplit.symm
  · rw [program_eq] at hrun
    obtain ⟨ts, us, hb, hcomplete⟩ := (programWith_viable _).resumes trivial hrun
    obtain rfl : front = ts := List.append_cancel_right (ha.rest.symm.trans hb.rest)
    obtain ⟨p, hp⟩ := hcomplete.program
    exact ⟨us ++ [ofKind (.mark .stop)], p, by rwa [← List.append_assoc]⟩
  · have hmark : (t.kind.isMark .separator || t.kind.isMark .stop) = false := by
      rw [Bool.or_eq_false_iff]
      exact ⟨Bool.eq_false_iff.mpr fun h => hsep (Kind.isMark_iff.mp h),
        Bool.eq_false_iff.mpr fun h => hstop (Kind.isMark_iff.mp h)⟩
    rw [hspan, hmark]
    rfl
  · obtain ⟨before, u, seps, rfl, hu, hseps⟩ :=
      Cursor.exists_last_content (content_before hin ha hrun (hkind ▸ hk))
    have hmark : (t.kind.isMark .separator || t.kind.isMark .stop) = true := by
      rw [Bool.or_eq_true_iff]
      exact hk.imp Kind.isMark_iff.mpr Kind.isMark_iff.mpr
    refine ⟨before, u, seps, rfl, hu, hseps, ?_⟩
    rw [hspan, hmark, Cursor.contentFrom_last _ hu hseps]
    rfl

/-- `IF x THEN`, a line with `1`, and a newline. -/
def unclosed : List Token :=
  [⟨.keyword .if, ⟨⟨0, 0, 0⟩, ⟨2, 0, 2⟩⟩⟩, ⟨.identifier "x", ⟨⟨3, 0, 3⟩, ⟨4, 0, 4⟩⟩⟩,
    ⟨.keyword .then, ⟨⟨5, 0, 5⟩, ⟨9, 0, 9⟩⟩⟩, ⟨.mark .separator, ⟨⟨9, 0, 9⟩, ⟨10, 1, 0⟩⟩⟩,
    ⟨.int 1, ⟨⟨10, 1, 0⟩, ⟨11, 1, 1⟩⟩⟩, ⟨.mark .separator, ⟨⟨11, 1, 1⟩, ⟨12, 2, 0⟩⟩⟩]

/-- The end is missing, and looked for behind the last line that has something on it. -/
def unclosedMisfit : Misfit :=
  ⟨.keywords [.close, .elif, .else],
    ⟨[⟨.mark .stop, .emptyAt ⟨12, 2, 0⟩⟩], ⟨12, 2, 0⟩, some ⟨11, 1, 1⟩⟩⟩

theorem unclosed_misfit : Program.ofTokens unclosed = .error unclosedMisfit := by cbv

theorem ofTokens_misfit_unclosed :
    (∃ more p, Program.ofTokens (unclosed ++ more) = .ok p) ∧
    unclosedMisfit.span = .emptyAt ⟨11, 1, 1⟩ ∧
    ∀ tokens', (closed tokens').take 7 = (closed unclosed).take 7 →
      ∃ m', Program.ofTokens tokens' = .error m' ∧ m'.span = .emptyAt ⟨11, 1, 1⟩ ∧
        m'.expected = .keywords [.close, .elif, .else] := by
  obtain ⟨front, t, rest, htokens, hrest, -, halike, hviable, -, hspan⟩ :=
    ofTokens_misfit unclosed_misfit
  obtain ⟨rfl, rfl⟩ := List.cons.inj hrest
  obtain rfl : front = unclosed := (List.append_cancel_right htokens).symm
  exact ⟨hviable, rfl, halike⟩

end Program

end Scriptlet

import Scriptlet.Proofs.Grammar.Opening

/-!
# Readers and what they pass

A reader that succeeds leaves its cursor after some tokens. The longer readers
are cut here into parts that have names, one for each phrase.
-/

set_option autoImplicit false

namespace Scriptlet

open Token (Kind)

namespace Token.Kind

theorem isMark_iff {k : Kind} {m : Mark} : k.isMark m = true ↔ k = .mark m := by
  cases k <;> simp [isMark]

theorem isKeyword_iff {k : Kind} {w : Keyword} : k.isKeyword w = true ↔ k = .keyword w := by
  cases k <;> simp [isKeyword]

end Token.Kind

namespace Cursor

/-- The end of the last of some tokens that is no separator, after one that ended at `p`. -/
def contentFrom (p : Option Position) (ts : List Token) : Option Position :=
  ts.foldl (fun p t => if t.kind.isMark .separator then p else some t.span.stop) p

theorem contentFrom_append (p : Option Position) (ts us : List Token) :
    contentFrom p (ts ++ us) = contentFrom (contentFrom p ts) us := by
  simp [contentFrom]

/-- The cursor `c'` stands after the tokens `ts` that come next at `c`. -/
structure After (c : Cursor) (ts : List Token) (c' : Cursor) : Prop where
  rest : c.rest = ts ++ c'.rest
  lastEnd : c'.lastEnd = endFrom c.lastEnd ts
  contentEnd : c'.contentEnd = contentFrom c.contentEnd ts

variable {c c₁ c' : Cursor} {ts us : List Token}

theorem After.refl (c : Cursor) : c.After [] c := ⟨rfl, rfl, rfl⟩

theorem After.trans (h : c.After ts c₁) (h' : c₁.After us c') : c.After (ts ++ us) c' := by
  constructor
  · rw [h.rest, h'.rest, List.append_assoc]
  · rw [h'.lastEnd, h.lastEnd, endFrom_append]
  · rw [h'.contentEnd, h.contentEnd, contentFrom_append]

theorem kind_eq (c : Cursor) : c.kind = following c.rest (.mark .stop) := by
  unfold kind following
  cases c.rest <;> rfl

theorem After.kind (h : c.After ts c') : c.kind = following ts c'.kind := by
  rw [kind_eq, kind_eq, h.rest]
  cases ts <;> rfl

theorem After.length (h : c.After ts c') : c.rest.length = ts.length + c'.rest.length := by
  rw [h.rest, List.length_append]

theorem After.start (h : c.After ts c') (hts : ts ≠ []) :
    c.span.start = (covering ts).start := by
  obtain ⟨t, ts, rfl⟩ := List.exists_cons_of_ne_nil hts
  rw [span, h.rest]
  rfl

theorem atAssignment_eq (c : Cursor) : c.atAssignment = Grammar.assigns (kinds c.rest) := by
  obtain ⟨rest, _, _⟩ := c
  match rest with
  | [] => rfl
  | [⟨k, _⟩] => cases k <;> rfl
  | ⟨k, _⟩ :: u :: us => cases k <;> rfl

theorem After.first {t : Token} (h : c.After [t] c') : c.span.start = t.span.start :=
  h.start (by simp)

theorem After.stop {t : Token} (h : c.After [t] c') : c'.lastEnd = t.span.stop := h.lastEnd

theorem After.stop_concat {t : Token} (h : c.After (ts ++ [t]) c') :
    c'.lastEnd = t.span.stop := by
  rw [h.lastEnd, endFrom_append]
  rfl

theorem After.assigns (h : c.After ts c') (hts : ts ≠ []) :
    Grammar.assigns (kinds ts ++ [c'.kind]) = c.atAssignment := by
  rw [atAssignment_eq, h.rest, kind_eq, following]
  match ts, hts with
  | [t], _ =>
    cases hk : t.kind <;> cases c'.rest <;> simp [kinds, hk, Grammar.assigns, Kind.isMark]
  | t :: u :: ts, _ => cases hk : t.kind <;> simp [kinds, hk, Grammar.assigns]

theorem rest_of_kind (h : c.kind ≠ .mark .stop) : ∃ t rest, c.rest = t :: rest := by
  cases hr : c.rest with
  | nil => simp [kind, hr] at h
  | cons t rest => exact ⟨t, rest, rfl⟩

theorem after_next (h : c.kind ≠ .mark .stop) :
    ∃ t, c.kind = t.kind ∧ c.span = t.span ∧ c.After [t] c.next := by
  obtain ⟨t, rest, hr⟩ := rest_of_kind h
  exact ⟨t, by simp [kind, hr], by simp [span, hr], by simp [next, pass, hr],
    by simp [next, pass, hr], by simp [next, pass, hr, contentFrom]⟩

/-- Past separators stands the first token that is none. -/
theorem after_skipFrom (p : Option Position) (rest : List Token) (q : Position) :
    (skipFrom p rest q).kind ≠ .mark .separator ∧
      ∃ seps, (∀ t ∈ seps, t.kind = .mark .separator) ∧
        (Cursor.mk rest q p).After seps (skipFrom p rest q) := by
  induction rest generalizing q with
  | nil => exact ⟨nofun, [], nofun, .refl _⟩
  | cons t rest ih =>
    unfold skipFrom
    split
    · next ht =>
      obtain ⟨hk, seps, hs, ha⟩ := ih t.span.stop
      refine ⟨hk, t :: seps, ?_, congrArg (t :: ·) ha.rest, ha.lastEnd, ?_⟩
      · exact List.forall_mem_cons.mpr ⟨Kind.isMark_iff.mp ht, hs⟩
      · rw [ha.contentEnd]
        simp [contentFrom, ht]
    · next ht =>
      exact ⟨fun hk => ht (Kind.isMark_iff.mpr hk), [], nofun, .refl _⟩

theorem after_skipSeparators (c : Cursor) :
    c.skipSeparators.kind ≠ .mark .separator ∧
      ∃ seps, (∀ t ∈ seps, t.kind = .mark .separator) ∧ c.After seps c.skipSeparators :=
  after_skipFrom c.contentEnd c.rest c.lastEnd

/-- Where separators come next, they are passed. -/
theorem separators_skipped (h : c.kind = .mark .separator) :
    ∃ seps, Grammar.Separators seps ∧ c.After seps c.skipSeparators := by
  obtain ⟨hk, seps, hs, ha⟩ := c.after_skipSeparators
  refine ⟨seps, ⟨?_, hs⟩, ha⟩
  rintro rfl
  exact hk (ha.kind.symm.trans h)

theorem skipSeparators_of_kind (h : c.kind ≠ .mark .separator) : c.skipSeparators = c := by
  obtain ⟨rest, q, p⟩ := c
  cases rest with
  | nil => rfl
  | cons t rest => exact if_neg fun hk => h (Kind.isMark_iff.mp hk)

end Cursor

namespace Reader

variable {α β : Type} {A : Reader α} {f : α → Reader β} {c c' : Cursor} {m : Mark} {w : Keyword}

theorem bind_ok {y : β} : (A >>= f) c = .ok (y, c') ↔
    ∃ x c₁, A c = .ok (x, c₁) ∧ f x c₁ = .ok (y, c') := by
  show Except.bind _ _ = _ ↔ _
  cases hA : A c with
  | error e => simp [Except.bind]
  | ok r =>
    obtain ⟨x, c₁⟩ := r
    simp [Except.bind]

theorem bind_error {m : Misfit} : (A >>= f) c = .error m ↔
    A c = .error m ∨ ∃ x c₁, A c = .ok (x, c₁) ∧ f x c₁ = .error m := by
  show Except.bind _ _ = _ ↔ _
  cases hA : A c with
  | error e => simp [Except.bind]
  | ok r =>
    obtain ⟨x, c₁⟩ := r
    simp [Except.bind]

theorem pure_ok {x y : α} : (pure x : Reader α) c = .ok (y, c') ↔ x = y ∧ c = c' := by
  show Except.ok _ = _ ↔ _
  simp

theorem fail_ok {e : Expectation} {y : α} : (fail e : Reader α) c = .ok (y, c') ↔ False := by
  simp [fail]

theorem kind_bind (f : Kind → Reader β) : (kind >>= f) c = f c.kind c := rfl

theorem here_bind (f : Position → Reader β) : (here >>= f) c = f c.span.start c := rfl

theorem lastEnd_bind (f : Position → Reader β) : (lastEnd >>= f) c = f c.lastEnd c := rfl

theorem remaining_bind (f : Nat → Reader β) : (remaining >>= f) c = f c.rest.length c := rfl

theorem atMark_bind (f : Bool → Reader β) : (atMark m >>= f) c = f (c.kind.isMark m) c := rfl

theorem atKeyword_bind (f : Bool → Reader β) :
    (atKeyword w >>= f) c = f (c.kind.isKeyword w) c := rfl

theorem atAnyKeyword_bind (words : List Keyword) (f : Bool → Reader β) :
    (atAnyKeyword words >>= f) c = f (words.any fun w => c.kind.isKeyword w) c := rfl

theorem pass_bind (f : Span → Reader β) : (pass >>= f) c = f c.span c.next := rfl

theorem skipSeparators_bind (f : Bool → Reader β) :
    (skipSeparators >>= f) c = f (c.kind.isMark .separator) c.skipSeparators := rfl

theorem pass_ok {span : Span} (hk : c.kind ≠ .mark .stop) (h : pass c = .ok (span, c')) :
    ∃ t, c.kind = t.kind ∧ span = t.span ∧ c.After [t] c' := by
  obtain ⟨rfl, rfl⟩ := Prod.mk.inj (Except.ok.inj h)
  exact Cursor.after_next hk

theorem pass_mark_ok {span : Span} (hm : m ≠ .stop) (hk : c.kind.isMark m = true)
    (h : pass c = .ok (span, c')) :
    ∃ t, t.kind = .mark m ∧ c.kind = t.kind ∧ span = t.span ∧ c.After [t] c' := by
  have hk := Kind.isMark_iff.mp hk
  obtain ⟨t, ht, hspan, ha⟩ := pass_ok (by simp [hk, hm]) h
  exact ⟨t, ht.symm.trans hk, ht, hspan, ha⟩

theorem pass_keyword_ok {span : Span} (hk : c.kind.isKeyword w = true)
    (h : pass c = .ok (span, c')) :
    ∃ t, t.kind = .keyword w ∧ c.kind = t.kind ∧ span = t.span ∧ c.After [t] c' := by
  have hk := Kind.isKeyword_iff.mp hk
  obtain ⟨t, ht, hspan, ha⟩ := pass_ok (by simp [hk]) h
  exact ⟨t, ht.symm.trans hk, ht, hspan, ha⟩

theorem expectMark_ok {span : Span} (hm : m ≠ .stop) (h : expectMark m c = .ok (span, c')) :
    ∃ t, t.kind = .mark m ∧ c.kind = t.kind ∧ span = t.span ∧ c.After [t] c' := by
  simp only [expectMark, atMark_bind] at h
  split at h
  · next hk => exact pass_mark_ok hm hk h
  · exact (fail_ok.mp h).elim

theorem expectKeyword_ok {span : Span} (h : expectKeyword w c = .ok (span, c')) :
    ∃ t, t.kind = .keyword w ∧ c.kind = t.kind ∧ span = t.span ∧ c.After [t] c' := by
  simp only [expectKeyword, atKeyword_bind] at h
  split at h
  · next hk => exact pass_keyword_ok hk h
  · exact (fail_ok.mp h).elim

theorem identifier_ok {name : String} {span : Span}
    (h : identifier c = .ok ((name, span), c')) :
    ∃ t, t.kind = .identifier name ∧ c.kind = t.kind ∧ span = t.span ∧ c.After [t] c' := by
  cases hk : c.kind with
  | identifier n =>
    simp only [identifier, kind_bind, hk, bind_ok, pure_ok] at h
    obtain ⟨span', c₁, hpass, he, rfl⟩ := h
    obtain ⟨rfl, rfl⟩ := Prod.mk.inj he
    obtain ⟨t, ht, hspan, ha⟩ := pass_ok (by simp [hk]) hpass
    exact ⟨t, ht.symm.trans hk, hk.symm.trans ht, hspan, ha⟩
  | _ => simp [identifier, kind_bind, hk, fail_ok] at h

end Reader

end Scriptlet

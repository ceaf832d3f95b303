import Scriptlet.Proofs.Grammar.Pieces
import Scriptlet.Proofs.Grammar.Derived

/-!
# What can still be completed

Where a reader fails, the tokens it has passed are the beginning of something
it would have read. A reader after others is asked for the rest of what they
began, so that each takes what is left to be read as a property of the tokens
that are still to come.
-/

set_option autoImplicit false

namespace Scriptlet

open Token (Kind)
open Grammar (ofKind)

namespace Reader

variable {α β : Type}

/-- There are tokens with which `Q` is reached, and where `A` fails, after a token of a kind `on`
was next, it has passed the first of some such tokens. -/
structure Resumes (on : Kind → Prop) (Q : List Token → Prop) (A : Reader α) : Prop where
  completes : ∃ ts, Q ts
  resumes : ∀ {c m}, on c.kind → A c = .error m → ∃ ts us, c.After ts m.cursor ∧ Q (ts ++ us)

namespace Resumes

variable {on : Kind → Prop} {Q R : List Token → Prop} {A : Reader α} {f : α → Reader β}

theorem mono {o : Kind → Prop} (h : Resumes on Q A) (ho : ∀ k, o k → on k) : Resumes o Q A :=
  ⟨h.completes, fun hk => h.resumes (ho _ hk)⟩

theorem ofKinds (h : ∀ k, on k → Resumes (· = k) Q A) (hQ : ∃ ts, Q ts) : Resumes on Q A :=
  ⟨hQ, fun {c _} hk hm => (h c.kind hk).resumes rfl hm⟩

/-- What is reached may be only a part of what is to be read. -/
theorem extend (h : Resumes on Q A) (hQ : ∀ ts, Q ts → ∃ us, R (ts ++ us)) : Resumes on R A where
  completes := by
    obtain ⟨ts, hts⟩ := h.completes
    obtain ⟨us, hus⟩ := hQ ts hts
    exact ⟨ts ++ us, hus⟩
  resumes hk hm := by
    obtain ⟨ts, us, ha, hus⟩ := h.resumes hk hm
    obtain ⟨vs, hvs⟩ := hQ _ hus
    exact ⟨ts, us ++ vs, ha, by rwa [← List.append_assoc]⟩

theorem imp (h : Resumes on Q A) (hQ : ∀ ts, Q ts → R ts) : Resumes on R A :=
  h.extend fun ts hts => ⟨[], by rw [List.append_nil]; exact hQ ts hts⟩

/-- What never fails. -/
theorem never (hQ : ∃ ts, Q ts) (hA : ∀ c, on c.kind → ∃ r, A c = .ok r) : Resumes on Q A := by
  refine ⟨hQ, fun hk hm => ?_⟩
  obtain ⟨r, hr⟩ := hA _ hk
  cases hm.symm.trans hr

/-- What fails before it passes any token. -/
theorem atOnce (hQ : ∃ ts, Q ts) (hA : ∀ c m, on c.kind → A c = .error m → m.cursor = c) :
    Resumes on Q A := by
  refine ⟨hQ, fun hk hm => ?_⟩
  obtain ⟨ts, hts⟩ := hQ
  exact ⟨[], ts, hA _ _ hk hm ▸ .refl _, hts⟩

theorem fail {e : Expectation} (hQ : ∃ ts, Q ts) : Resumes on Q (Reader.fail e : Reader α) :=
  .atOnce hQ fun _ _ _ hm => (Except.error.inj hm) ▸ rfl

theorem pure {x : α} (hQ : ∃ ts, Q ts) : Resumes on Q (Pure.pure x : Reader α) :=
  .never hQ fun c _ => ⟨(x, c), rfl⟩

/-- After the reader comes one that never fails. -/
theorem tail (h : Resumes on Q A) (hf : ∀ x c, ∃ r, f x c = .ok r) : Resumes on Q (A >>= f) := by
  refine ⟨h.completes, fun hk hm => ?_⟩
  rcases bind_error.mp hm with hm | ⟨x, c, -, hm⟩
  · exact h.resumes hk hm
  · obtain ⟨r, hr⟩ := hf x c
    cases hm.symm.trans hr

/-- What a reader reads is `P`, before a token of the kind that comes next. -/
theorem bind {P : α → List Token → Kind → Prop}
    (hA : Resumes on (fun ts => ∃ x k, P x ts k) A)
    (hP : ∀ c x c', on c.kind → A c = .ok (x, c') → ∃ ts, c.After ts c' ∧ P x ts c'.kind)
    (hf : ∀ x ts k, P x ts k → Resumes (· = k) (fun us => Q (ts ++ us)) (f x)) :
    Resumes on Q (A >>= f) where
  completes := by
    obtain ⟨ts, x, k, hts⟩ := hA.completes
    obtain ⟨us, hus⟩ := (hf x ts k hts).completes
    exact ⟨ts ++ us, hus⟩
  resumes hk hm := by
    rcases bind_error.mp hm with hm | ⟨x, c₁, hx, hm⟩
    · obtain ⟨ts, us, ha, x, k, hts⟩ := hA.resumes hk hm
      obtain ⟨vs, hvs⟩ := (hf x _ k hts).completes
      exact ⟨ts, us ++ vs, ha, by rwa [← List.append_assoc]⟩
    · obtain ⟨ts, ha, hts⟩ := hP _ _ _ hk hx
      obtain ⟨us, vs, hb, hvs⟩ := (hf x ts _ hts).resumes rfl hm
      exact ⟨ts ++ us, vs, ha.trans hb, by rwa [List.append_assoc]⟩

theorem ite {b : Bool} {B : Reader α} (htrue : b = true → Resumes on Q A)
    (hfalse : b = false → Resumes on Q B) : Resumes on Q (if b = true then A else B) := by
  cases b with
  | true => exact htrue rfl
  | false => exact hfalse rfl

/-! ## Readers that pass nothing -/

section

variable {γ : Type} {T : Reader γ} {h : γ → Reader α}

theorem still {v : Cursor → γ} (hT : ∀ c, T c = .ok (v c, c)) (hQ : ∃ ts, Q ts)
    (hh : ∀ x, Resumes on Q (h x)) : Resumes on Q (T >>= h) := by
  refine ⟨hQ, fun {c m} hk hm => (hh (v c)).resumes hk ?_⟩
  rw [← hm]
  show _ = Except.bind _ _
  rw [hT]
  rfl

theorem look {φ : Kind → γ} (hT : ∀ c, T c = .ok (φ c.kind, c)) (hQ : ∃ ts, Q ts)
    (hh : ∀ k, on k → Resumes (· = k) Q (h (φ k))) : Resumes on Q (T >>= h) := by
  refine ⟨hQ, fun {c m} hk hm => (hh _ hk).resumes rfl ?_⟩
  rw [← hm]
  show _ = Except.bind _ _
  rw [hT]
  rfl

end

/-! ## Readers of single tokens -/

section

variable {T : Reader Bool} {φ : Kind → Bool} {k : Kind} {g : Span → Reader α} {B : Reader α}

theorem pass (hk : k ≠ .mark .stop)
    (hg : ∀ t, t.kind = k → Resumes (fun _ => True) (fun us => Q (t :: us)) (g t.span)) :
    Resumes (· = k) Q (Reader.pass >>= g) := by
  refine .bind (P := fun s ts _ => ∃ t, t.kind = k ∧ s = t.span ∧ ts = [t]) ?_ ?_ ?_
  · exact .never ⟨[ofKind k], _, k, ofKind k, rfl, rfl, rfl⟩ fun c _ => ⟨_, rfl⟩
  · rintro c s c' rfl h
    obtain ⟨t, ht, hs, ha⟩ := pass_ok hk h
    exact ⟨[t], ha, t, ht.symm, hs, rfl⟩
  · rintro s ts l ⟨t, ht, rfl, rfl⟩
    exact (hg t ht).mono fun _ _ => trivial

/-- Passes the next token if it is of a kind, and goes on. -/
theorem passIf (hT : ∀ c, T c = .ok (φ c.kind, c)) (hφ : ∀ l, φ l = true → l = k)
    (hk : k ≠ .mark .stop)
    (hg : on k → ∀ t, t.kind = k → Resumes (fun _ => True) (fun us => Q (t :: us)) (g t.span))
    (helse : Resumes on Q B) :
    Resumes on Q (T >>= fun b => if b = true then Reader.pass >>= g else B) := by
  refine look hT helse.completes fun l hl => ?_
  refine .ite (fun h => ?_) fun _ => helse.mono fun _ h => h ▸ hl
  obtain rfl := hφ l h
  exact pass hk (hg hl)

theorem passMark {m : Mark} (hm : m ≠ .stop)
    (hg : on (.mark m) → ∀ t, t.kind = .mark m →
      Resumes (fun _ => True) (fun us => Q (t :: us)) (g t.span)) (helse : Resumes on Q B) :
    Resumes on Q (Reader.atMark m >>= fun b => if b = true then Reader.pass >>= g else B) :=
  passIf (φ := fun k => k.isMark m) (fun _ => rfl) (fun _ => Kind.isMark_iff.mp)
    (by simpa using hm) hg helse

theorem passKeyword {w : Keyword}
    (hg : on (.keyword w) → ∀ t, t.kind = .keyword w →
      Resumes (fun _ => True) (fun us => Q (t :: us)) (g t.span)) (helse : Resumes on Q B) :
    Resumes on Q (Reader.atKeyword w >>= fun b => if b = true then Reader.pass >>= g else B) :=
  passIf (φ := fun k => k.isKeyword w) (fun _ => rfl) (fun _ => Kind.isKeyword_iff.mp) nofun hg
    helse

/-- Passes the next token, which has to be of a kind. -/
theorem expect {e : Expectation} (hT : ∀ c, T c = .ok (φ c.kind, c))
    (hφ : ∀ l, φ l = true → l = k) (hk : k ≠ .mark .stop)
    (hg : ∀ t, t.kind = k → Resumes (fun _ => True) (fun us => Q (t :: us)) (g t.span)) :
    Resumes on Q ((T >>= fun b => if b = true then Reader.pass else Reader.fail e) >>= g) := by
  have hsome : ∃ ts, Q ts := by
    obtain ⟨ts, hts⟩ := (hg (ofKind k) rfl).completes
    exact ⟨_, hts⟩
  rw [bind_assoc]
  refine look hT hsome fun l _ => ?_
  cases hl : φ l with
  | false => exact fail hsome
  | true =>
    obtain rfl := hφ l hl
    exact pass hk hg

theorem expectMark {m : Mark} (hm : m ≠ .stop)
    (hg : ∀ t, t.kind = .mark m → Resumes (fun _ => True) (fun us => Q (t :: us)) (g t.span)) :
    Resumes on Q (Reader.expectMark m >>= g) :=
  expect (φ := fun k => k.isMark m) (fun _ => rfl) (fun _ => Kind.isMark_iff.mp)
    (by simpa using hm) hg

theorem expectKeyword {w : Keyword}
    (hg : ∀ t, t.kind = .keyword w → Resumes (fun _ => True) (fun us => Q (t :: us)) (g t.span)) :
    Resumes on Q (Reader.expectKeyword w >>= g) :=
  expect (φ := fun k => k.isKeyword w) (fun _ => rfl) (fun _ => Kind.isKeyword_iff.mp) nofun hg

end

theorem identifier {g : String × Span → Reader α}
    (hg : ∀ t name, t.kind = .identifier name →
      Resumes (fun _ => True) (fun us => Q (t :: us)) (g (name, t.span))) :
    Resumes on Q (Reader.identifier >>= g) := by
  have hsome : ∃ ts, Q ts := by
    obtain ⟨ts, hts⟩ := (hg (ofKind (.identifier "x")) "x" rfl).completes
    exact ⟨_, hts⟩
  rw [Reader.identifier, bind_assoc]
  refine look (φ := id) (fun _ => rfl) hsome fun k _ => ?_
  cases k with
  | identifier name => exact pass (g := fun s => g (name, s)) (by simp) fun t ht => hg t name ht
  | _ => exact fail hsome

/-! ## Separators -/

section

variable {h : Bool → Reader α}

theorem separators (hh : ∀ seps, Grammar.Separators seps →
      Resumes (fun _ => True) (fun us => Q (seps ++ us)) (h true)) :
    Resumes (· = .mark .separator) Q (skipSeparators >>= h) := by
  refine .bind (P := fun more seps _ => more = true ∧ Grammar.Separators seps) ?_ ?_ ?_
  · refine .never ⟨[ofKind (.mark .separator)], true, .mark .stop, rfl, by simp, ?_⟩ fun c _ =>
      ⟨_, rfl⟩
    exact List.forall_mem_singleton.mpr rfl
  · intro c more c' hk hm
    obtain ⟨rfl, rfl⟩ := Prod.mk.inj (Except.ok.inj hm)
    obtain ⟨seps, hseps, ha⟩ := Cursor.separators_skipped hk
    exact ⟨seps, ha, by rw [hk]; rfl, hseps⟩
  · rintro more seps k ⟨rfl, hseps⟩
    exact (hh seps hseps).mono fun _ _ => trivial

theorem noSeparators (hon : ∀ k, on k → k ≠ .mark .separator) (hh : Resumes on Q (h false)) :
    Resumes on Q (skipSeparators >>= h) := by
  refine ⟨hh.completes, fun {c m} hk hm => hh.resumes hk ?_⟩
  have hsep : c.kind.isMark .separator = false :=
    Bool.eq_false_iff.mpr fun he => hon _ hk (Kind.isMark_iff.mp he)
  rwa [skipSeparators_bind, hsep, Cursor.skipSeparators_of_kind (hon _ hk)] at hm

end

end Resumes

end Reader

end Scriptlet

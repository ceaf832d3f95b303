import Scriptlet.Proofs.Grammar.Sound.Atoms

/-!
# What the readers read

Operators join what was read on both sides of them, and a program is read up
to the end of its text. The readers call each other through one level of
nesting less, so what is true of all of them follows by induction on the
levels.
-/

set_option autoImplicit false

namespace Scriptlet

open Token (Kind)

namespace Grammar

open Reader

variable {sub : Goal → Reader Node} {c c' : Cursor} {n : Node} {start : Position}

/-! ## Operators -/

theorem chainAfter_sound {ch : Chain} {operand : Reader Node} (ho : Sound ch.operand operand)
    {bound : Nat} {left : Node} {ts : List Token} (hr : Reads (.operands ch left) ts c.kind)
    (hb : c.rest.length ≤ bound) (h : chainAfter ch.op? operand bound left c = .ok (n, c')) :
    ∃ us, c.After us c' ∧ Reads (.operands ch n) (ts ++ us) c'.kind ∧ ch.op? c'.kind = none := by
  induction bound generalizing c left ts with
  | zero =>
    obtain ⟨rfl, rfl⟩ := pure_ok.mp h
    have hrest : c.rest = [] := List.length_eq_zero_iff.mp (Nat.le_zero.mp hb)
    have hk : c.kind = .mark .stop := by rw [Cursor.kind, hrest]
    exact ⟨[], .refl c, by rwa [List.append_nil], by rw [hk, ch.op?_stop]⟩
  | succ bound ih =>
    simp only [chainAfter, kind_bind] at h
    cases hk : ch.op? c.kind with
    | none =>
      rw [hk] at h
      obtain ⟨rfl, rfl⟩ := pure_ok.mp h
      exact ⟨[], .refl c, by rwa [List.append_nil], hk⟩
    | some op =>
      have hstop : c.kind ≠ .mark .stop := by
        intro he
        rw [he, ch.op?_stop] at hk
        cases hk
      rw [hk] at h
      obtain ⟨_, c₁, h₁, h⟩ := bind_ok.mp h
      obtain ⟨right, c₂, h₂, h⟩ := bind_ok.mp h
      obtain ⟨o, hko, -, ha₁⟩ := pass_ok hstop h₁
      obtain ⟨us, ha₂, hr₂⟩ := ho _ _ _ h₂
      have hlen₁ := ha₁.length
      have hlen₂ := ha₂.length
      rw [hko] at hr hk
      obtain ⟨vs, ha₃, hr₃, hk₃⟩ := ih (.joined hr hk hr₂) (by simp at hlen₁; omega) h
      refine ⟨_, ha₁.trans (ha₂.trans ha₃), ?_, hk₃⟩
      simpa using hr₃

theorem chain_sound (ch : Chain) {operand : Reader Node} (ho : Sound ch.operand operand)
    (h : chain ch.op? operand c = .ok (n, c'))
    (ha : ch = .logic → c.atAssignment = false) :
    ∃ ts, c.After ts c' ∧ Reads (.node ch.level n) ts c'.kind := by
  obtain ⟨first, c₁, h₁, h⟩ := bind_ok.mp h
  rw [remaining_bind] at h
  obtain ⟨ts, ha₁, hr₁⟩ := ho _ _ _ h₁
  obtain ⟨us, ha₂, hr₂, hk⟩ := chainAfter_sound ho (.first hr₁) (Nat.le_refl _) h
  have hall := ha₁.trans ha₂
  exact ⟨_, hall, .chain hr₂ hk fun hc => (hall.assigns (by simp [hr₁.ne_nil])).trans (ha hc)⟩

section

variable (hs : ∀ goal, Sound goal.level (sub goal))

include hs

theorem trailersAfter_sound {bound : Nat} {target : Node} {ts : List Token}
    (hr : Reads (.applied start target) ts c.kind) (hb : c.rest.length ≤ bound)
    (h : trailersAfter sub start bound target c = .ok (n, c')) :
    ∃ us, c.After us c' ∧ Reads (.applied start n) (ts ++ us) c'.kind ∧
      c'.kind ≠ .mark .leftParen ∧ c'.kind ≠ .mark .leftSquare := by
  induction bound generalizing c target ts with
  | zero =>
    obtain ⟨rfl, rfl⟩ := pure_ok.mp h
    have hrest : c.rest = [] := List.length_eq_zero_iff.mp (Nat.le_zero.mp hb)
    refine ⟨[], .refl c, by rwa [List.append_nil], ?_, ?_⟩ <;> simp [Cursor.kind, hrest]
  | succ bound ih =>
    simp only [trailersAfter, atMark_bind] at h
    split at h
    · next hk =>
      obtain ⟨_, c₁, h₁, h⟩ := bind_ok.mp h
      obtain ⟨args, c₂, h₂, h⟩ := bind_ok.mp h
      obtain ⟨_, c₃, h₃, h⟩ := bind_ok.mp h
      obtain ⟨rfl, rfl⟩ := node_ok h₃
      obtain ⟨o, ho, hko, -, ha₁⟩ := pass_mark_ok (by simp) hk h₁
      obtain ⟨us, p, hp, ha₂, hargs⟩ := items_sound hs (by simp) h₂
      have hlen₁ := ha₁.length
      have hlen₂ := ha₂.length
      rw [ha₂.stop_concat] at h
      obtain ⟨vs, ha₃, hr₃, hk₃⟩ := ih (.call (hko ▸ hr) ho hargs hp)
        (by simp at hlen₁; omega) h
      refine ⟨_, ha₁.trans (ha₂.trans ha₃), ?_, hk₃⟩
      simpa using hr₃
    · rw [atMark_bind] at h
      split at h
      · next hk =>
        obtain ⟨_, c₁, h₁, h⟩ := bind_ok.mp h
        obtain ⟨place, c₂, h₂, h⟩ := bind_ok.mp h
        obtain ⟨_, c₃, h₃, h⟩ := bind_ok.mp h
        obtain ⟨_, c₄, h₄, h⟩ := bind_ok.mp h
        obtain ⟨rfl, rfl⟩ := node_ok h₄
        obtain ⟨o, ho, hko, -, ha₁⟩ := pass_mark_ok (by simp) hk h₁
        obtain ⟨us, ha₂, hplace⟩ := hs .expression _ _ _ h₂
        obtain ⟨p, hp, hkp, -, ha₃⟩ := expectMark_ok (by simp) h₃
        have hlen₁ := ha₁.length
        have hlen₂ := ha₂.length
        have hlen₃ := ha₃.length
        rw [hkp] at hplace
        rw [ha₃.stop] at h
        obtain ⟨vs, ha₄, hr₄, hk₄⟩ := ih (.index (hko ▸ hr) ho hplace hp)
          (by simp at hlen₁ hlen₃; omega) h
        refine ⟨_, ha₁.trans (ha₂.trans (ha₃.trans ha₄)), ?_, hk₄⟩
        simpa using hr₄
      · next hround hsquare =>
        obtain ⟨rfl, rfl⟩ := pure_ok.mp h
        refine ⟨[], .refl c, by rwa [List.append_nil], ?_, ?_⟩
        · exact fun hk => hround (Kind.isMark_iff.mpr hk)
        · exact fun hk => hsquare (Kind.isMark_iff.mpr hk)

theorem application_sound : Sound .application (application sub) := by
  intro c n c' h
  simp only [application, here_bind] at h
  obtain ⟨target, c₁, h₁, h⟩ := bind_ok.mp h
  rw [remaining_bind] at h
  obtain ⟨ts, ha₁, hr₁⟩ := atom_sound hs _ _ _ h₁
  obtain ⟨us, ha₂, hr₂, hround, hsquare⟩ :=
    trailersAfter_sound hs (.target hr₁) (Nat.le_refl _) h
  have ha := ha₁.trans ha₂
  rw [ha.start (by simp [hr₁.ne_nil])] at hr₂
  exact ⟨_, ha, .application hr₂ hround hsquare⟩

theorem power_sound : Sound .power (power sub) := by
  intro c n c' h
  obtain ⟨base, c₁, h₁, h⟩ := bind_ok.mp h
  obtain ⟨ts, ha₁, hr₁⟩ := application_sound hs _ _ _ h₁
  rw [atMark_bind] at h
  split at h
  · next hk =>
    obtain ⟨_, c₂, h₂, h⟩ := bind_ok.mp h
    obtain ⟨exponent, c₃, h₃, h⟩ := bind_ok.mp h
    obtain ⟨rfl, rfl⟩ := pure_ok.mp h
    obtain ⟨o, ho, hko, -, ha₂⟩ := pass_mark_ok (by simp) hk h₂
    obtain ⟨us, ha₃, hr₃⟩ := hs .factor _ _ _ h₃
    exact ⟨_, ha₁.trans (ha₂.trans ha₃), .power (hko ▸ hr₁) ho hr₃⟩
  · next hk =>
    obtain ⟨rfl, rfl⟩ := pure_ok.mp h
    exact ⟨ts, ha₁, .base hr₁ fun he => hk (Kind.isMark_iff.mpr he)⟩

theorem factor_sound : Sound .factor (factor sub) := by
  intro c n c' h
  simp only [factor, kind_bind] at h
  cases hk : signOp? c.kind with
  | some op =>
    have hstop : c.kind ≠ .mark .stop := by
      intro he
      rw [he] at hk
      cases hk
    rw [hk] at h
    obtain ⟨_, c₁, h₁, h⟩ := bind_ok.mp h
    obtain ⟨x, c₂, h₂, h⟩ := bind_ok.mp h
    obtain ⟨rfl, rfl⟩ := node_ok h
    obtain ⟨s, hsign, rfl, ha₁⟩ := pass_ok hstop h₁
    obtain ⟨ts, ha₂, hr⟩ := hs .factor _ _ _ h₂
    rw [ha₂.lastEnd, ha₁.stop]
    exact ⟨_, ha₁.trans ha₂, .signed (hsign ▸ hk) hr⟩
  | none =>
    rw [hk] at h
    obtain ⟨ts, ha, hr⟩ := power_sound hs _ _ _ h
    exact ⟨ts, ha, .unsigned hr⟩

theorem product_sound : Sound .product (product sub) :=
  fun _ _ _ h => chain_sound .product (factor_sound hs) h nofun

theorem sum_sound : Sound .sum (sum sub) :=
  fun _ _ _ h => chain_sound .sum (product_sound hs) h nofun

theorem comparison_sound : Sound .comparison (comparison sub) := by
  intro c n c' h
  simp only [comparison, atKeyword_bind] at h
  split at h
  · next hk =>
    obtain ⟨_, c₁, h₁, h⟩ := bind_ok.mp h
    obtain ⟨x, c₂, h₂, h⟩ := bind_ok.mp h
    obtain ⟨rfl, rfl⟩ := node_ok h
    obtain ⟨w, hw, -, rfl, ha₁⟩ := pass_keyword_ok hk h₁
    obtain ⟨ts, ha₂, hr⟩ := hs .comparison _ _ _ h₂
    rw [ha₂.lastEnd, ha₁.stop]
    exact ⟨_, ha₁.trans ha₂, .not hw hr⟩
  · exact chain_sound .comparison (sum_sound hs) h nofun

/-! ## Assignments and statements -/

theorem expression_sound : Sound .expression (expression sub) := by
  intro c n c' h
  simp only [expression, here_bind, atKeyword_bind] at h
  split at h
  · next hk =>
    obtain ⟨_, c₁, h₁, h⟩ := bind_ok.mp h
    obtain ⟨⟨name, _⟩, c₂, h₂, h⟩ := bind_ok.mp h
    obtain ⟨_, c₃, h₃, h⟩ := bind_ok.mp h
    obtain ⟨x, c₄, h₄, h⟩ := bind_ok.mp h
    obtain ⟨rfl, rfl⟩ := node_ok h
    obtain ⟨w, hw, -, -, ha₁⟩ := pass_keyword_ok hk h₁
    obtain ⟨v, hv, -, -, ha₂⟩ := identifier_ok h₂
    obtain ⟨q, hq, -, -, ha₃⟩ := expectMark_ok (by simp) h₃
    obtain ⟨ts, ha₄, hr⟩ := hs .expression _ _ _ h₄
    rw [ha₁.first, ha₄.lastEnd, ha₃.stop]
    exact ⟨_, ha₁.trans (ha₂.trans (ha₃.trans ha₄)), .declare hw hv hq hr⟩
  · rw [atAssignment_bind] at h
    split at h
    · next hassign =>
      obtain ⟨⟨name, _⟩, c₁, h₁, h⟩ := bind_ok.mp h
      obtain ⟨_, c₂, h₂, h⟩ := bind_ok.mp h
      obtain ⟨x, c₃, h₃, h⟩ := bind_ok.mp h
      obtain ⟨rfl, rfl⟩ := node_ok h
      obtain ⟨v, hv, -, -, ha₁⟩ := identifier_ok h₁
      have hequal : c₁.kind.isMark .equal = true := by
        have hk := (ha₁.assigns (by simp)).trans hassign
        simpa [kinds, hv, assigns] using hk
      obtain ⟨q, hq, -, -, ha₂⟩ := pass_mark_ok (by simp) hequal h₂
      obtain ⟨ts, ha₃, hr⟩ := hs .expression _ _ _ h₃
      rw [ha₁.first, ha₃.lastEnd, ha₂.stop]
      exact ⟨_, ha₁.trans (ha₂.trans ha₃), .rebind hv hq hr⟩
    · next hassign =>
      exact chain_sound .logic (comparison_sound hs) h
        fun _ => Bool.eq_false_iff.mpr hassign

theorem statement_sound : Sound .statement (statement sub) := by
  intro c n c' h
  simp only [statement, here_bind, atKeyword_bind] at h
  split at h
  · next hk =>
    obtain ⟨_, c₁, h₁, h⟩ := bind_ok.mp h
    obtain ⟨w, hw, -, -, ha₁⟩ := pass_keyword_ok hk h₁
    rw [kind_bind] at h
    split at h
    · obtain ⟨x, c₂, h₂, h⟩ := bind_ok.mp h
      obtain ⟨rfl, rfl⟩ := node_ok h
      obtain ⟨ts, ha₂, hr⟩ := hs .expression _ _ _ h₂
      rw [ha₁.first, ha₂.lastEnd, ha₁.stop]
      exact ⟨_, ha₁.trans ha₂, .returnValue hw hr⟩
    · next hnone =>
      obtain ⟨rfl, rfl⟩ := node_ok h
      rw [ha₁.first, ha₁.stop]
      exact ⟨_, ha₁, .returnNothing hw (Bool.eq_false_iff.mpr hnone)⟩
  · rw [atKeyword_bind] at h
    split at h
    · next hk =>
      obtain ⟨_, c₁, h₁, h⟩ := bind_ok.mp h
      obtain ⟨w, hw, -, -, ha₁⟩ := pass_keyword_ok hk h₁
      obtain ⟨rfl, rfl⟩ := node_ok h
      rw [ha₁.first, ha₁.stop]
      exact ⟨_, ha₁, .continue hw⟩
    · rw [atKeyword_bind] at h
      split at h
      · next hk =>
        obtain ⟨_, c₁, h₁, h⟩ := bind_ok.mp h
        obtain ⟨w, hw, -, -, ha₁⟩ := pass_keyword_ok hk h₁
        obtain ⟨rfl, rfl⟩ := node_ok h
        rw [ha₁.first, ha₁.stop]
        exact ⟨_, ha₁, .break hw⟩
      · obtain ⟨ts, ha, hr⟩ := expression_sound hs _ _ _ h
        exact ⟨ts, ha, .expression hr⟩

end

/-! ## Programs -/

theorem reader_sound (depth : Nat) (goal : Goal) : Sound goal.level (reader depth goal) := by
  induction depth generalizing goal with
  | zero => exact fun _ _ _ h => (fail_ok.mp h).elim
  | succ depth ih =>
    rw [reader_succ]
    cases goal with
    | statement => exact statement_sound ih
    | expression => exact expression_sound ih
    | comparison => exact comparison_sound ih
    | factor => exact factor_sound ih

/-- A program is read from all tokens up to the end of the text. -/
theorem program_sound {p : Program} (h : program c = .ok (p, c')) :
    ∃ seps ts, (∀ t ∈ seps, t.kind = .mark .separator) ∧ c.After (seps ++ ts) c' ∧
      Reads (.lines [] p.statements) ts (.mark .stop) ∧ c'.kind = .mark .stop := by
  simp only [program, here_bind, remaining_bind] at h
  obtain ⟨ns, c₁, h₁, h⟩ := bind_ok.mp h
  obtain ⟨seps, ts, hseps, -, ha, hr⟩ := statements_sound (reader_sound _) h₁
  rw [atMark_bind] at h
  split at h
  · next hk =>
    have hk := Kind.isMark_iff.mp hk
    obtain ⟨rfl, rfl⟩ := Prod.mk.inj (Except.ok.inj h)
    exact ⟨seps, ts, hseps, ha, hk ▸ hr, hk⟩
  · exact (fail_ok.mp h).elim

end Grammar

end Scriptlet

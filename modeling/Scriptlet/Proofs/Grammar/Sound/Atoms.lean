import Scriptlet.Proofs.Grammar.Sound.Bodies

/-!
# What the readers of atoms read

Literals, what stands in brackets, and the compound atoms that begin with a
word.
-/

set_option autoImplicit false

namespace Scriptlet

open Token (Kind)

namespace Grammar

open Reader

variable {sub : Goal → Reader Node} {c c' : Cursor} {n : Node}

theorem literal_sound {e : Expr} (he : literal? c.kind = some e) (h : literal e c = .ok (n, c')) :
    ∃ ts, c.After ts c' ∧ Reads (.node .atom n) ts c'.kind := by
  have hk : c.kind ≠ .mark .stop := by
    intro hk
    rw [hk] at he
    cases he
  obtain ⟨_, c₁, h₁, h⟩ := bind_ok.mp h
  obtain ⟨rfl, rfl⟩ := pure_ok.mp h
  obtain ⟨t, ht, rfl, ha⟩ := pass_ok hk h₁
  exact ⟨[t], ha, .literal (ht ▸ he)⟩

theorem functionName_sound {name : Option String} (h : functionName c = .ok (name, c')) :
    ∃ ts, c.After ts c' ∧ Named name ts := by
  cases hk : c.kind with
  | identifier s =>
    simp only [functionName, kind_bind, hk, bind_ok, pure_ok] at h
    obtain ⟨_, c₁, h₁, rfl, rfl⟩ := h
    obtain ⟨t, ht, -, ha⟩ := pass_ok (by simp [hk]) h₁
    exact ⟨[t], ha, .some (ht.symm.trans hk)⟩
  | mark m =>
    cases m with
    | leftParen =>
      simp only [functionName, kind_bind, hk, pure_ok] at h
      obtain ⟨rfl, rfl⟩ := h
      exact ⟨[], .refl c, .none⟩
    | _ => simp [functionName, kind_bind, hk, fail_ok] at h
  | _ => simp [functionName, kind_bind, hk, fail_ok] at h

variable (hs : ∀ goal, Sound goal.level (sub goal))

include hs

theorem list_sound : Sound .atom (list sub) := by
  intro c n c' h
  obtain ⟨_, c₁, h₁, h⟩ := bind_ok.mp h
  obtain ⟨ns, c₂, h₂, h⟩ := bind_ok.mp h
  obtain ⟨rfl, rfl⟩ := node_ok h
  obtain ⟨o, ho, -, rfl, ha₁⟩ := expectMark_ok (by simp) h₁
  obtain ⟨ts, p, hp, ha₂, hr⟩ := items_sound hs (by simp) h₂
  rw [ha₂.stop_concat]
  exact ⟨_, ha₁.trans ha₂, .list ho hr hp⟩

theorem parenthesised_sound : Sound .atom (parenthesised sub) := by
  intro c n c' h
  obtain ⟨_, c₁, h₁, h⟩ := bind_ok.mp h
  obtain ⟨inner, c₂, h₂, h⟩ := bind_ok.mp h
  obtain ⟨_, c₃, h₃, h⟩ := bind_ok.mp h
  obtain ⟨rfl, rfl⟩ := node_ok h
  obtain ⟨o, ho, -, rfl, ha₁⟩ := expectMark_ok (by simp) h₁
  obtain ⟨ts, ha₂, hr⟩ := hs .expression _ _ _ h₂
  obtain ⟨p, hp, hk, -, ha₃⟩ := expectMark_ok (by simp) h₃
  rw [hk] at hr
  rw [ha₃.stop]
  exact ⟨_, ha₁.trans (ha₂.trans ha₃), .parens ho hr hp⟩

theorem ifElse_sound : Sound .atom (ifElse sub) := by
  intro c n c' h
  obtain ⟨_, c₁, h₁, h⟩ := bind_ok.mp h
  rw [remaining_bind] at h
  obtain ⟨⟨bs, otherwise⟩, c₂, h₂, h⟩ := bind_ok.mp h
  obtain ⟨rfl, rfl⟩ := node_ok h
  obtain ⟨w, hw, -, rfl, ha₁⟩ := expectKeyword_ok h₁
  obtain ⟨ts, ha₂, hr⟩ := branches_sound hs h₂
  rw [ha₂.lastEnd, ha₁.stop]
  exact ⟨_, ha₁.trans ha₂, .ifElse hw hr⟩

theorem stepClause_sound {s : Option Node} (h : stepClause sub c = .ok (s, c')) :
    ∃ ts, c.After ts c' ∧ Reads (.step s) ts c'.kind := by
  simp only [stepClause, atKeyword_bind] at h
  split at h
  · next hk =>
    simp only [bind_ok, pure_ok] at h
    obtain ⟨_, c₁, h₁, x, c₂, h₂, rfl, rfl⟩ := h
    obtain ⟨w, hw, -, -, ha₁⟩ := pass_keyword_ok hk h₁
    obtain ⟨ts, ha₂, hr⟩ := hs .expression _ _ _ h₂
    exact ⟨_, ha₁.trans ha₂, .step hw hr⟩
  · next hk =>
    obtain ⟨rfl, rfl⟩ := pure_ok.mp h
    exact ⟨[], .refl c, .noStep fun he => hk (Kind.isKeyword_iff.mpr he)⟩

theorem forTo_sound : Sound .atom (forTo sub) := by
  intro c n c' h
  rw [forTo_eq] at h
  obtain ⟨_, c₁, h₁, h⟩ := bind_ok.mp h
  obtain ⟨⟨name, _⟩, c₂, h₂, h⟩ := bind_ok.mp h
  obtain ⟨_, c₃, h₃, h⟩ := bind_ok.mp h
  obtain ⟨first, c₄, h₄, h⟩ := bind_ok.mp h
  obtain ⟨_, c₅, h₅, h⟩ := bind_ok.mp h
  obtain ⟨limit, c₆, h₆, h⟩ := bind_ok.mp h
  obtain ⟨step, c₇, h₇, h⟩ := bind_ok.mp h
  obtain ⟨_, c₈, h₈, h⟩ := bind_ok.mp h
  obtain ⟨inner, c₉, h₉, h⟩ := bind_ok.mp h
  obtain ⟨rfl, rfl⟩ := node_ok h
  obtain ⟨w, hw, -, rfl, ha₁⟩ := expectKeyword_ok h₁
  obtain ⟨v, hv, -, rfl, ha₂⟩ := identifier_ok h₂
  obtain ⟨q, hq, -, -, ha₃⟩ := expectMark_ok (by simp) h₃
  obtain ⟨ts₁, ha₄, hr₁⟩ := hs .expression _ _ _ h₄
  obtain ⟨u, hu, hku, -, ha₅⟩ := expectKeyword_ok h₅
  obtain ⟨ts₂, ha₆, hr₂⟩ := hs .expression _ _ _ h₆
  obtain ⟨ts₃, ha₇, hr₃⟩ := stepClause_sound hs h₇
  obtain ⟨t, ht, hkt, -, ha₈⟩ := expectKeyword_ok h₈
  obtain ⟨ts₄, ha₉, hr₄⟩ := body_sound hs h₉
  rw [hku] at hr₁
  rw [ha₇.kind, hkt] at hr₂
  rw [hkt] at hr₃
  rw [ha₈.stop] at hr₄
  rw [ha₉.lastEnd, ha₈.stop]
  exact ⟨_, ha₁.trans (ha₂.trans (ha₃.trans (ha₄.trans (ha₅.trans (ha₆.trans (ha₇.trans
    (ha₈.trans ha₉))))))), .forTo hw hv hq hr₁ hu hr₂ hr₃ ht hr₄⟩

theorem whileDo_sound : Sound .atom (whileDo sub) := by
  intro c n c' h
  obtain ⟨_, c₁, h₁, h⟩ := bind_ok.mp h
  obtain ⟨test, c₂, h₂, h⟩ := bind_ok.mp h
  obtain ⟨_, c₃, h₃, h⟩ := bind_ok.mp h
  obtain ⟨inner, c₄, h₄, h⟩ := bind_ok.mp h
  obtain ⟨rfl, rfl⟩ := node_ok h
  obtain ⟨w, hw, -, rfl, ha₁⟩ := expectKeyword_ok h₁
  obtain ⟨ts, ha₂, hr₁⟩ := hs .expression _ _ _ h₂
  obtain ⟨t, ht, hk, -, ha₃⟩ := expectKeyword_ok h₃
  obtain ⟨us, ha₄, hr₂⟩ := body_sound hs h₄
  rw [hk] at hr₁
  rw [ha₃.stop] at hr₂
  rw [ha₄.lastEnd, ha₃.stop]
  exact ⟨_, ha₁.trans (ha₂.trans (ha₃.trans ha₄)), .whileDo hw hr₁ ht hr₂⟩

theorem routine_sound (h : routine sub c = .ok (n, c')) :
    ∃ ts, c.After ts c' ∧ Reads (.routine c.lastEnd n) ts c'.kind := by
  simp only [routine, atMark_bind] at h
  split at h
  · next hk =>
    obtain ⟨_, c₁, h₁, h⟩ := bind_ok.mp h
    obtain ⟨a, ha, -, -, ha₁⟩ := pass_mark_ok (by simp) hk h₁
    obtain ⟨ts, ha₂, hr⟩ := hs .expression _ _ _ h
    exact ⟨_, ha₁.trans ha₂, .arrow ha hr⟩
  · split at h
    · next hk =>
      obtain ⟨ts, e, he, ha, hr⟩ := closedBlock_sound hs (Kind.isMark_iff.mp hk) h
      exact ⟨_, ha, .routine hr he⟩
    · simp [fail_ok] at h

theorem function_sound : Sound .atom (function sub) := by
  intro c n c' h
  rw [function_eq] at h
  obtain ⟨_, c₁, h₁, h⟩ := bind_ok.mp h
  obtain ⟨name, c₂, h₂, h⟩ := bind_ok.mp h
  obtain ⟨_, c₃, h₃, h⟩ := bind_ok.mp h
  obtain ⟨params, c₄, h₄, h⟩ := bind_ok.mp h
  obtain ⟨inner, c₅, h₅, h⟩ := bind_ok.mp h
  obtain ⟨rfl, rfl⟩ := node_ok h
  obtain ⟨w, hw, -, rfl, ha₁⟩ := expectKeyword_ok h₁
  obtain ⟨names, ha₂, hn⟩ := functionName_sound h₂
  obtain ⟨o, ho, -, -, ha₃⟩ := expectMark_ok (by simp) h₃
  obtain ⟨ts, p, hp, ha₄, hps⟩ := params_sound h₄
  obtain ⟨us, ha₅, hr⟩ := routine_sound hs h₅
  rw [ha₄.stop_concat] at hr
  rw [ha₅.lastEnd, ha₄.stop_concat]
  have ha := ha₁.trans (ha₂.trans (ha₃.trans (ha₄.trans ha₅)))
  rw [List.append_assoc ts] at ha
  exact ⟨_, ha, .function hw hn ho hps hp hr⟩

theorem atom_sound : Sound .atom (atom sub) := by
  intro c n c' h
  simp only [atom, kind_bind] at h
  cases hk : c.kind with
  | int i => exact literal_sound (by rw [hk]; rfl) (by rwa [hk] at h)
  | float x => exact literal_sound (by rw [hk]; rfl) (by rwa [hk] at h)
  | text s => exact literal_sound (by rw [hk]; rfl) (by rwa [hk] at h)
  | identifier name => exact literal_sound (by rw [hk]; rfl) (by rwa [hk] at h)
  | mark m =>
    rw [hk] at h
    cases m with
    | leftParen => exact parenthesised_sound hs _ _ _ h
    | leftSquare => exact list_sound hs _ _ _ h
    | _ => exact (fail_ok.mp h).elim
  | keyword w =>
    rw [hk] at h
    cases w with
    | «if» => exact ifElse_sound hs _ _ _ h
    | «for» => exact forTo_sound hs _ _ _ h
    | «while» => exact whileDo_sound hs _ _ _ h
    | «fun» => exact function_sound hs _ _ _ h
    | _ => exact (fail_ok.mp h).elim

end Grammar

end Scriptlet

import Scriptlet.Proofs.Grammar.Pieces

/-!
# What the readers of bodies read

A reader that succeeds has read its phrase: the tokens it passed are read as
what it gave, before the token it stopped at. Here are the readers of items
and of bodies, given that what they nest is read so. The bounds on what
repeats are never reached, as every turn passes a token.
-/

set_option autoImplicit false

namespace Scriptlet

open Token (Kind)

namespace Grammar

open Reader

/-- What a reader gives was read, at the level of a production. -/
def Sound (level : Level) (A : Reader Node) : Prop :=
  ∀ c n c', A c = .ok (n, c') → ∃ ts, c.After ts c' ∧ Reads (.node level n) ts c'.kind

variable {sub : Goal → Reader Node} {c c' : Cursor} {n : Node}

theorem node_ok {start : Position} {e : Expr} (h : node start e c = .ok (n, c')) :
    n = .mk e ⟨start, c.lastEnd⟩ ∧ c' = c := by
  obtain ⟨rfl, rfl⟩ := Prod.mk.inj (Except.ok.inj h)
  exact ⟨rfl, rfl⟩

/-! ## Items -/

section

variable {α : Type} {item : Reader α} {P : α → List Token → Kind → Prop}
  {Q R : List α → List Token → Kind → Prop}

theorem itemsAfter_sound
    (hitem : ∀ c x c', item c = .ok (x, c') → ∃ ts, c.After ts c' ∧ P x ts c'.kind)
    (hnone : ∀ k, k ≠ .mark .comma → Q [] [] k)
    (hmore : ∀ t x xs ts us k, t.kind = .mark .comma → P x ts (following us k) → Q xs us k →
      Q (x :: xs) (t :: (ts ++ us)) k)
    {bound : Nat} {xs : List α} (hb : c.rest.length ≤ bound)
    (h : itemsAfter item bound c = .ok (xs, c')) : ∃ ts, c.After ts c' ∧ Q xs ts c'.kind := by
  induction bound generalizing c xs with
  | zero =>
    obtain ⟨rfl, rfl⟩ := pure_ok.mp h
    have hrest : c.rest = [] := List.length_eq_zero_iff.mp (Nat.le_zero.mp hb)
    exact ⟨[], .refl c, hnone _ (by simp [Cursor.kind, hrest])⟩
  | succ bound ih =>
    simp only [itemsAfter, atMark_bind] at h
    split at h
    · next hk =>
      simp only [bind_ok, pure_ok] at h
      obtain ⟨_, c₁, h₁, x, c₂, h₂, xs, c₃, h₃, rfl, rfl⟩ := h
      obtain ⟨t, ht, -, -, ha₁⟩ := pass_mark_ok (by simp) hk h₁
      obtain ⟨ts, ha₂, hx⟩ := hitem _ _ _ h₂
      have hlen₁ := ha₁.length
      have hlen₂ := ha₂.length
      obtain ⟨us, ha₃, hxs⟩ := ih (by simp at hlen₁; omega) h₃
      refine ⟨_, ha₁.trans (ha₂.trans ha₃), ?_⟩
      exact hmore t x xs ts us _ ht (ha₃.kind ▸ hx) hxs
    · next hk =>
      obtain ⟨rfl, rfl⟩ := pure_ok.mp h
      exact ⟨[], .refl c, hnone _ fun he => hk (Kind.isMark_iff.mpr he)⟩

theorem itemsBefore_sound {close : Mark}
    (hitem : ∀ c x c', item c = .ok (x, c') → ∃ ts, c.After ts c' ∧ P x ts c'.kind)
    (hnone : ∀ k, k ≠ .mark .comma → Q [] [] k)
    (hmore : ∀ t x xs ts us k, t.kind = .mark .comma → P x ts (following us k) → Q xs us k →
      Q (x :: xs) (t :: (ts ++ us)) k)
    (hempty : ∀ k, R [] [] k)
    (hfirst : ∀ x xs ts us k, P x ts (following us k) → Q xs us k → R (x :: xs) (ts ++ us) k)
    {xs : List α} (h : itemsBefore close item c = .ok (xs, c')) :
    ∃ ts, c.After ts c' ∧ R xs ts c'.kind := by
  simp only [itemsBefore, atMark_bind] at h
  split at h
  · obtain ⟨rfl, rfl⟩ := pure_ok.mp h
    exact ⟨[], .refl c, hempty _⟩
  · simp only [bind_ok, remaining_bind, pure_ok] at h
    obtain ⟨x, c₁, hx, xs, c₂, hxs, rfl, rfl⟩ := h
    obtain ⟨ts, hats, hp⟩ := hitem _ _ _ hx
    obtain ⟨us, haus, hq⟩ := itemsAfter_sound hitem hnone hmore (Nat.le_refl _) hxs
    exact ⟨ts ++ us, hats.trans haus, hfirst _ _ _ _ _ (haus.kind ▸ hp) hq⟩

theorem itemsUntil_sound {close : Mark} (hclose : close ≠ .stop)
    (hitem : ∀ c x c', item c = .ok (x, c') → ∃ ts, c.After ts c' ∧ P x ts c'.kind)
    (hnone : ∀ k, k ≠ .mark .comma → Q [] [] k)
    (hmore : ∀ t x xs ts us k, t.kind = .mark .comma → P x ts (following us k) → Q xs us k →
      Q (x :: xs) (t :: (ts ++ us)) k)
    (hempty : ∀ k, R [] [] k)
    (hfirst : ∀ x xs ts us k, P x ts (following us k) → Q xs us k → R (x :: xs) (ts ++ us) k)
    {xs : List α} (h : itemsUntil close item c = .ok (xs, c')) :
    ∃ ts t, t.kind = .mark close ∧ c.After (ts ++ [t]) c' ∧ R xs ts t.kind := by
  simp only [itemsUntil_eq, bind_ok, atMark_bind] at h
  obtain ⟨xs', c₁, hbefore, h⟩ := h
  split at h
  · next hk =>
    simp only [bind_ok, pure_ok] at h
    obtain ⟨_, c₂, hpass, rfl, rfl⟩ := h
    obtain ⟨t, ht, hkt, -, ha⟩ := pass_mark_ok hclose hk hpass
    obtain ⟨ts, hats, hr⟩ := itemsBefore_sound hitem hnone hmore hempty hfirst hbefore
    exact ⟨ts, t, ht, hats.trans ha, hkt ▸ hr⟩
  · simp [fail_ok] at h

end

/-- A parameter and its only token. -/
def ReadsParam (p : Param) (ts : List Token) : Prop :=
  ∃ t name, t.kind = .identifier name ∧ p = ⟨name, t.span⟩ ∧ ts = [t]

theorem param_sound {p : Param} (h : param c = .ok (p, c')) :
    ∃ ts, c.After ts c' ∧ ReadsParam p ts := by
  simp only [param, bind_ok] at h
  obtain ⟨⟨name, span⟩, c₁, h, hp⟩ := h
  obtain ⟨rfl, rfl⟩ := pure_ok.mp hp
  obtain ⟨t, ht, -, rfl, ha⟩ := identifier_ok h
  exact ⟨[t], ha, t, name, ht, rfl, rfl⟩

theorem ReadsParam.further {c : Token} {p : Param} {ps : List Param} {ts us : List Token}
    (h : ReadsParam p ts) (hc : c.kind = .mark .comma) (hr : FurtherParams ps us) :
    FurtherParams (p :: ps) (c :: (ts ++ us)) := by
  obtain ⟨t, name, ht, rfl, rfl⟩ := h
  exact .cons hc ht hr

theorem ReadsParam.params {p : Param} {ps : List Param} {ts us : List Token}
    (h : ReadsParam p ts) (hr : FurtherParams ps us) : Params (p :: ps) (ts ++ us) := by
  obtain ⟨t, name, ht, rfl, rfl⟩ := h
  exact .cons ht hr

theorem params_sound {ps : List Param} (h : itemsUntil .rightParen param c = .ok (ps, c')) :
    ∃ ts t, t.kind = .mark .rightParen ∧ c.After (ts ++ [t]) c' ∧ Params ps ts :=
  itemsUntil_sound (P := fun p ts _ => ReadsParam p ts) (Q := fun ps ts _ => FurtherParams ps ts)
    (R := fun ps ts _ => Params ps ts) (by simp) (fun _ _ _ => param_sound) (fun _ _ => .nil)
    (fun _ _ _ _ _ _ hc hp hr => hp.further hc hr) (fun _ => .nil) (fun _ _ _ _ _ hp hr =>
      hp.params hr) h

theorem closes_close {k : Kind} (h : closes [.close] k = true) : k.isKeyword .close = true := by
  simpa [closes] using h

variable (hs : ∀ goal, Sound goal.level (sub goal))

include hs

theorem items_sound {close : Mark} (hclose : close ≠ .stop) {ns : List Node}
    (h : itemsUntil close (sub .expression) c = .ok (ns, c')) :
    ∃ ts t, t.kind = .mark close ∧ c.After (ts ++ [t]) c' ∧ Reads (.items ns) ts t.kind :=
  itemsUntil_sound (P := fun x => Reads (.node .expression x)) (Q := fun xs => Reads (.further xs))
    (R := fun xs => Reads (.items xs)) hclose (hs .expression) (fun _ => .noFurther)
    (fun _ _ _ _ _ _ => .further) (fun _ => .noItems) (fun _ _ _ _ _ => .items) h

/-! ## Bodies -/

theorem statementsUntil_sound {close : List Keyword} {bound : Nat} {ns : List Node}
    (hb : c.rest.length < bound) (h : statementsUntil sub close bound c = .ok (ns, c')) :
    ∃ ts, c.After ts c' ∧ Reads (.lines close ns) ts c'.kind := by
  induction bound generalizing c ns with
  | zero => simp at hb
  | succ bound ih =>
    simp only [statementsUntil, atMark_bind, atAnyKeyword_bind] at h
    split at h
    · next hk =>
      obtain ⟨rfl, rfl⟩ := pure_ok.mp h
      refine ⟨[], .refl c, .noLines ?_⟩
      exact (Bool.or_eq_true_iff.mp hk).imp Kind.isMark_iff.mp id
    · obtain ⟨first, c₁, h₁, h⟩ := bind_ok.mp h
      obtain ⟨ts, ha₁, hr⟩ := hs .statement _ _ _ h₁
      rw [skipSeparators_bind] at h
      split at h
      · next hk =>
        have hk := Kind.isMark_iff.mp hk
        obtain ⟨seps, hseps, ha₂⟩ := Cursor.separators_skipped hk
        simp only [bind_ok, pure_ok] at h
        obtain ⟨rest, c₂, h₂, rfl, rfl⟩ := h
        have hlen₁ := ha₁.length
        have hlen₂ := ha₂.length
        have hpos := List.length_pos_of_ne_nil hseps.1
        obtain ⟨us, ha₃, hrest⟩ := ih (by omega) h₂
        exact ⟨ts ++ (seps ++ us), ha₁.trans (ha₂.trans ha₃), .line (hk ▸ hr) hseps hrest⟩
      · next hk =>
        have hk : c₁.kind ≠ .mark .separator := fun he => hk (Kind.isMark_iff.mpr he)
        obtain ⟨rfl, rfl⟩ := pure_ok.mp h
        rw [Cursor.skipSeparators_of_kind hk]
        exact ⟨ts, ha₁, .lastLine hr hk⟩

theorem statements_sound {close : List Keyword} {ns : List Node}
    (h : statements sub close c = .ok (ns, c')) :
    ∃ seps ts, (∀ t ∈ seps, t.kind = .mark .separator) ∧ c.After seps c.skipSeparators ∧
      c.After (seps ++ ts) c' ∧ Reads (.lines close ns) ts c'.kind := by
  obtain ⟨-, seps, hseps, ha⟩ := c.after_skipSeparators
  simp only [statements, skipSeparators_bind, remaining_bind] at h
  obtain ⟨ts, hlines, hr⟩ := statementsUntil_sound hs (Nat.lt_succ_self _) h
  exact ⟨seps, ts, hseps, ha, ha.trans hlines, hr⟩

theorem block_sound {close : List Keyword} (hk : c.kind = .mark .separator)
    (h : block sub close c = .ok (n, c')) :
    ∃ ts, c.After ts c' ∧ Reads (.block close c.lastEnd n) ts c'.kind ∧
      closes close c'.kind := by
  simp only [block, lastEnd_bind] at h
  obtain ⟨ns, c₁, hns, h⟩ := bind_ok.mp h
  rw [atAnyKeyword_bind] at h
  split at h
  · next hclose =>
    obtain ⟨rfl, rfl⟩ := pure_ok.mp h
    obtain ⟨seps, ts, hseps, ha, hall, hr⟩ := statements_sound hs hns
    have hne : seps ≠ [] := by
      rintro rfl
      exact c.after_skipSeparators.1 (ha.kind.symm.trans hk)
    exact ⟨seps ++ ts, hall, .block ⟨hne, hseps⟩ hr hclose, hclose⟩
  · simp [fail_ok] at h

/-- A block with the word that closes it. -/
theorem closedBlock_sound (hk : c.kind = .mark .separator)
    (h : (do let b ← block sub [.close]; let _ ← pass; return b) c = .ok (n, c')) :
    ∃ ts e, e.kind = .keyword .close ∧ c.After (ts ++ [e]) c' ∧
      Reads (.block [.close] c.lastEnd n) ts e.kind := by
  simp only [bind_ok, pure_ok] at h
  obtain ⟨b, c₁, h₁, _, c₂, h₂, rfl, rfl⟩ := h
  obtain ⟨ts, ha₁, hr, hclose⟩ := block_sound hs hk h₁
  obtain ⟨e, he, hk, -, ha₂⟩ := pass_keyword_ok (closes_close hclose) h₂
  exact ⟨ts, e, he, ha₁.trans ha₂, hk ▸ hr⟩

theorem body_sound (h : body sub c = .ok (n, c')) :
    ∃ ts, c.After ts c' ∧ Reads (.body c.lastEnd n) ts c'.kind := by
  simp only [body, atMark_bind] at h
  split at h
  · next hk =>
    obtain ⟨ts, e, he, ha, hr⟩ := closedBlock_sound hs (Kind.isMark_iff.mp hk) h
    exact ⟨_, ha, .lined hr he⟩
  · obtain ⟨ts, ha, hr⟩ := hs .statement _ _ _ h
    exact ⟨ts, ha, .inline hr⟩

/-! ## Branches -/

theorem arm_sound {lined : Bool} {test inner : Node}
    (h : arm sub c = .ok ((lined, test, inner), c')) :
    ∃ ts, c.After ts c' ∧ Reads (.arm lined test inner) ts c'.kind ∧
      (lined = true → closes [.close, .elif, .else] c'.kind = true) := by
  obtain ⟨test', c₁, h₁, h⟩ := bind_ok.mp h
  obtain ⟨_, c₂, h₂, h⟩ := bind_ok.mp h
  obtain ⟨ts, ha₁, hr₁⟩ := hs .expression _ _ _ h₁
  obtain ⟨t, ht, hk, -, ha₂⟩ := expectKeyword_ok h₂
  rw [hk] at hr₁
  rw [atMark_bind] at h
  obtain ⟨inner', c₃, h₃, h⟩ := bind_ok.mp h
  obtain ⟨he, rfl⟩ := pure_ok.mp h
  simp only [Prod.mk.injEq] at he
  obtain ⟨rfl, rfl, rfl⟩ := he
  cases hsep : c₂.kind.isMark .separator with
  | true =>
    rw [hsep] at h₃
    obtain ⟨us, ha₃, hr₃, hclose⟩ := block_sound hs (Kind.isMark_iff.mp hsep) h₃
    rw [ha₂.stop] at hr₃
    exact ⟨_, ha₁.trans (ha₂.trans ha₃), .armLined hr₁ ht hr₃, fun _ => hclose⟩
  | false =>
    rw [hsep] at h₃
    obtain ⟨us, ha₃, hr₃⟩ := hs .statement _ _ _ h₃
    exact ⟨_, ha₁.trans (ha₂.trans ha₃), .armInline hr₁ ht hr₃, nofun⟩

theorem branches_sound {bound : Nat} {bs : List (Node × Node)} {otherwise : Option Node}
    (h : branches sub bound c = .ok ((bs, otherwise), c')) :
    ∃ ts, c.After ts c' ∧ Reads (.branches bs otherwise) ts c'.kind := by
  induction bound generalizing c bs otherwise with
  | zero => exact (fail_ok.mp h).elim
  | succ bound ih =>
    rw [branches_succ] at h
    obtain ⟨⟨lined, test, inner⟩, c₁, h₁, h⟩ := bind_ok.mp h
    obtain ⟨ts, ha₁, hr₁, hends⟩ := arm_sound hs h₁
    simp only [atKeyword_bind] at h
    split at h
    · next hclose =>
      obtain ⟨rfl, hclose⟩ := Bool.and_eq_true_iff.mp hclose
      obtain ⟨_, c₂, h₂, h⟩ := bind_ok.mp h
      obtain ⟨he, rfl⟩ := pure_ok.mp h
      obtain ⟨rfl, rfl⟩ := Prod.mk.inj he
      obtain ⟨e, he, hk, -, ha₂⟩ := pass_keyword_ok hclose h₂
      exact ⟨_, ha₁.trans ha₂, .closed (hk ▸ hr₁) he⟩
    · next hclose =>
      rw [atKeyword_bind] at h
      split at h
      · next helif =>
        obtain ⟨_, c₂, h₂, h⟩ := bind_ok.mp h
        obtain ⟨⟨more, other⟩, c₃, h₃, h⟩ := bind_ok.mp h
        obtain ⟨he, rfl⟩ := pure_ok.mp h
        obtain ⟨rfl, rfl⟩ := Prod.mk.inj he
        obtain ⟨e, he, hk, -, ha₂⟩ := pass_keyword_ok helif h₂
        obtain ⟨us, ha₃, hr₃⟩ := ih h₃
        exact ⟨_, ha₁.trans (ha₂.trans ha₃), .elif (hk ▸ hr₁) he hr₃⟩
      · next helif =>
        rw [atKeyword_bind] at h
        split at h
        · next helse =>
          obtain ⟨_, c₂, h₂, h⟩ := bind_ok.mp h
          obtain ⟨other, c₃, h₃, h⟩ := bind_ok.mp h
          obtain ⟨he, rfl⟩ := pure_ok.mp h
          obtain ⟨rfl, rfl⟩ := Prod.mk.inj he
          obtain ⟨e, he, hk, -, ha₂⟩ := pass_keyword_ok helse h₂
          obtain ⟨us, ha₃, hr₃⟩ := body_sound hs h₃
          rw [ha₂.stop] at hr₃
          exact ⟨_, ha₁.trans (ha₂.trans ha₃), .otherwise (hk ▸ hr₁) he hr₃⟩
        · next helse =>
          obtain ⟨he, rfl⟩ := pure_ok.mp h
          obtain ⟨rfl, rfl⟩ := Prod.mk.inj he
          cases lined with
          | true => simp_all [closes]
          | false =>
            refine ⟨_, ha₁, .only hr₁ ?_ ?_⟩
            · exact fun hk => helif (Kind.isKeyword_iff.mpr hk)
            · exact fun hk => helse (Kind.isKeyword_iff.mpr hk)

end Grammar

end Scriptlet

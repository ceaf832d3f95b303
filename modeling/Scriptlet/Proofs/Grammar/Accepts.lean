import Scriptlet.Proofs.Grammar.Pieces

/-!
# Readers on rows of kinds

What a reader does depends on the kinds of the tokens before it only.
`Accepts A P ks k` says that `A` succeeds wherever tokens of the kinds `ks`
come next and one of kind `k` after them: it passes just those, and what it
gives has the property `P`.
-/

set_option autoImplicit false

namespace Scriptlet

open Token (Kind)

@[simp] theorem kinds_nil : kinds [] = [] := rfl

@[simp] theorem kinds_cons (t : Token) (ts : List Token) : kinds (t :: ts) = t.kind :: kinds ts :=
  rfl

@[simp] theorem kinds_append (ts us : List Token) : kinds (ts ++ us) = kinds ts ++ kinds us :=
  List.map_append

@[simp] theorem kinds_length (ts : List Token) : (kinds ts).length = ts.length :=
  List.length_map _

/-- The kind that comes next where `ks` are before a token of kind `k`. -/
def ahead (ks : List Kind) (k : Kind) : Kind := ks.head?.getD k

@[simp] theorem ahead_nil (k : Kind) : ahead [] k = k := rfl

@[simp] theorem ahead_cons (l : Kind) (ks : List Kind) (k : Kind) : ahead (l :: ks) k = l := rfl

@[simp] theorem ahead_append (ks ls : List Kind) (k : Kind) :
    ahead (ks ++ ls) k = ahead ks (ahead ls k) := by
  cases ks <;> rfl

theorem following_eq (ts : List Token) (k : Kind) : following ts k = ahead (kinds ts) k := by
  cases ts <;> rfl

theorem following_append (ts us : List Token) (k : Kind) :
    following (ts ++ us) k = following ts (following us k) := by
  cases ts <;> rfl

theorem Cursor.skipFrom_rest {seps us : List Token} (hs : ∀ t ∈ seps, t.kind = .mark .separator)
    (hk : following us (.mark .stop) ≠ .mark .separator) (p : Option Position) (q : Position) :
    (skipFrom p (seps ++ us) q).rest = us := by
  induction seps generalizing q with
  | nil =>
    cases us with
    | nil => rfl
    | cons u us => exact congrArg Cursor.rest (if_neg fun h => hk (Kind.isMark_iff.mp h))
  | cons t seps ih =>
    obtain ⟨ht, hs⟩ := List.forall_mem_cons.mp hs
    rw [List.cons_append, skipFrom, if_pos (Kind.isMark_iff.mpr ht)]
    exact ih hs t.span.stop

namespace Reader

variable {α β : Type}

def Accepts (A : Reader α) (P : α → Prop) (ks : List Kind) (k : Kind) : Prop :=
  ∀ (c : Cursor) (us rest : List Token), c.rest = us ++ rest → kinds us = ks →
    following rest (.mark .stop) = k → ∃ x c', A c = .ok (x, c') ∧ P x ∧ c'.rest = rest

namespace Accepts

variable {A : Reader α} {f : α → Reader β} {P : β → Prop} {Q : α → Prop} {ks ls : List Kind}
  {k : Kind}

theorem mono {Q' : α → Prop} (h : Accepts A Q ks k) (hq : ∀ x, Q x → Q' x) :
    Accepts A Q' ks k := by
  intro c us rest hc hus hk
  obtain ⟨x, c', hx, hqx, hrest⟩ := h c us rest hc hus hk
  exact ⟨x, c', hx, hq x hqx, hrest⟩

theorem pure {x : α} (hx : Q x) : Accepts (pure x) Q [] k := by
  intro c us rest hc hus hk
  obtain rfl := List.map_eq_nil_iff.mp hus
  exact ⟨x, c, rfl, hx, hc⟩

/-- One reader after another. -/
theorem bind (hA : Accepts A Q ks (ahead ls k)) (hf : ∀ x, Q x → Accepts (f x) P ls k) :
    Accepts (A >>= f) P (ks ++ ls) k := by
  intro c all rest hc hall hk
  obtain ⟨us, vs, rfl, hus, hvs⟩ := List.map_eq_append_iff.mp hall
  have hnext : following (vs ++ rest) (.mark .stop) = ahead ls k := by
    rw [following_append, hk, following_eq]
    exact congrArg (ahead · k) hvs
  obtain ⟨x, c₁, hx, hqx, hrest⟩ := hA c us (vs ++ rest) (by simpa using hc) hus hnext
  obtain ⟨y, c₂, hy, hpy, hrest⟩ := hf x hqx c₁ vs rest hrest hvs hk
  exact ⟨y, c₂, bind_ok.mpr ⟨x, c₁, hx, hy⟩, hpy, hrest⟩

/-- A reader after which nothing more is passed. -/
theorem last (hA : Accepts A Q ks k) (hf : ∀ x, Q x → Accepts (f x) P [] k) :
    Accepts (A >>= f) P ks k := by
  have h : Accepts (A >>= f) P (ks ++ []) k := bind hA hf
  rwa [List.append_nil] at h

/-- A reader that passes nothing. -/
theorem still (hA : Accepts A Q [] (ahead ks k)) (hf : ∀ x, Q x → Accepts (f x) P ks k) :
    Accepts (A >>= f) P ks k :=
  bind hA hf

theorem next_kind {c : Cursor} {us rest : List Token} (hc : c.rest = us ++ rest)
    (hus : kinds us = ks) (hk : following rest (.mark .stop) = k) : c.kind = ahead ks k := by
  rw [Cursor.kind_eq, hc, following_append, hk, following_eq, hus]

/-- A reader that looks at the kind of the next token only. -/
theorem look {g : Kind → α} (hA : ∀ c, A c = .ok (g c.kind, c))
    (h : Accepts (f (g (ahead ks k))) P ks k) : Accepts (A >>= f) P ks k := by
  intro c us rest hc hus hk
  obtain ⟨y, c', hy, hpy, hrest⟩ := h c us rest hc hus hk
  rw [← next_kind hc hus hk] at hy
  exact ⟨y, c', bind_ok.mpr ⟨_, c, hA c, hy⟩, hpy, hrest⟩

theorem kind {f : Kind → Reader β} (h : Accepts (f (ahead ks k)) P ks k) :
    Accepts (Reader.kind >>= f) P ks k :=
  look (g := id) (fun _ => rfl) h

theorem atMark {m : Mark} {f : Bool → Reader β}
    (h : Accepts (f ((ahead ks k).isMark m)) P ks k) :
    Accepts (Reader.atMark m >>= f) P ks k :=
  look (fun _ => rfl) h

theorem atKeyword {w : Keyword} {f : Bool → Reader β}
    (h : Accepts (f ((ahead ks k).isKeyword w)) P ks k) :
    Accepts (Reader.atKeyword w >>= f) P ks k :=
  look (fun _ => rfl) h

theorem atAnyKeyword {words : List Keyword} {f : Bool → Reader β}
    (h : Accepts (f (Grammar.closes words (ahead ks k))) P ks k) :
    Accepts (Reader.atAnyKeyword words >>= f) P ks k :=
  look (fun _ => rfl) h

theorem here {f : Position → Reader β} (h : ∀ p, Accepts (f p) P ks k) :
    Accepts (Reader.here >>= f) P ks k :=
  fun c => h c.span.start c

theorem lastEnd {f : Position → Reader β} (h : ∀ p, Accepts (f p) P ks k) :
    Accepts (Reader.lastEnd >>= f) P ks k :=
  fun c => h c.lastEnd c

theorem remaining {f : Nat → Reader β} (h : ∀ b, ks.length ≤ b → Accepts (f b) P ks k) :
    Accepts (Reader.remaining >>= f) P ks k := by
  intro c us rest hc hus hk
  refine h c.rest.length ?_ c us rest hc hus hk
  rw [hc, ← hus, kinds_length, List.length_append]
  exact Nat.le_add_right _ _

theorem pass {l : Kind} {f : Span → Reader β} (h : ∀ s, Accepts (f s) P ks k) :
    Accepts (Reader.pass >>= f) P (l :: ks) k := by
  intro c all rest hc hall hk
  obtain ⟨t, us, rfl, rfl, hus⟩ := List.map_eq_cons_iff.mp hall
  rw [pass_bind]
  refine h c.span c.next us rest ?_ hus hk
  simp [Cursor.next, Cursor.pass, hc]

theorem expectMark {m : Mark} {f : Span → Reader β} (h : ∀ s, Accepts (f s) P ks k) :
    Accepts (Reader.expectMark m >>= f) P (.mark m :: ks) k := by
  rw [Reader.expectMark, bind_assoc]
  apply atMark
  rw [ahead_cons, if_pos (Token.Kind.isMark_iff.mpr rfl)]
  exact pass h

theorem expectKeyword {w : Keyword} {f : Span → Reader β} (h : ∀ s, Accepts (f s) P ks k) :
    Accepts (Reader.expectKeyword w >>= f) P (.keyword w :: ks) k := by
  rw [Reader.expectKeyword, bind_assoc]
  apply atKeyword
  rw [ahead_cons, if_pos (Token.Kind.isKeyword_iff.mpr rfl)]
  exact pass h

theorem identifier {name : String} {f : String × Span → Reader β}
    (h : ∀ s, Accepts (f (name, s)) P ks k) :
    Accepts (Reader.identifier >>= f) P (.identifier name :: ks) k := by
  rw [Reader.identifier, bind_assoc]
  apply kind
  simp only [ahead_cons, bind_assoc, pure_bind]
  exact pass h

/-- All separators are passed. -/
theorem skipSeparators {seps : List Token} {f : Bool → Reader β}
    (hs : ∀ t ∈ seps, t.kind = .mark .separator) (hk : ahead ls k ≠ .mark .separator)
    (h : Accepts (f ((ahead (kinds seps ++ ls) k).isMark .separator)) P ls k) :
    Accepts (Reader.skipSeparators >>= f) P (kinds seps ++ ls) k := by
  intro c all rest hc hall hrest
  rw [skipSeparators_bind, next_kind hc hall hrest]
  obtain ⟨us, vs, rfl, hus, hvs⟩ := List.map_eq_append_iff.mp hall
  have hseps : ∀ t ∈ us, t.kind = .mark .separator := by
    intro t ht
    have hmem : t.kind ∈ kinds seps := hus ▸ List.mem_map_of_mem ht
    obtain ⟨u, hu, he⟩ := List.mem_map.mp hmem
    rw [← he, hs u hu]
  refine h c.skipSeparators vs rest ?_ hvs hrest
  rw [Cursor.skipSeparators, hc, List.append_assoc]
  apply Cursor.skipFrom_rest hseps
  rwa [following_append, hrest, following_eq, show kinds vs = ls from hvs]

end Accepts

end Reader

end Scriptlet

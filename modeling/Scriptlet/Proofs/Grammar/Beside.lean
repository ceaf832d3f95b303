import Scriptlet.Proofs.Grammar.Accepts
import Scriptlet.Proofs.Grammar.Moved

/-!
# Readers side by side

Two readers of one form, each with levels of nesting and turns enough, are run
on two rows of tokens that begin alike, those on the right moved. As long as
the first stays where the rows are alike, and does not look at what comes
after, the second does the same. Only the end of the text on the left may have
a separator in its place on the right: what ends with the end of its line ends
there on both sides.
-/

set_option autoImplicit false

namespace Scriptlet

open Token (Kind)

/-- What comes after the tokens that two rows have in common, and how these are moved. Under `edge`
the end of the text comes next on the left and a separator on the right. -/
structure Alignment where
  move : Move
  left : List Token
  right : List Token
  edge : Prop
  left_edge : edge → following left (.mark .stop) = .mark .stop
  right_edge : edge → following right (.mark .stop) = .mark .separator

namespace Alignment

/-- The tokens `ts` come next at both cursors. It may be known that the tokens read last ended at
the same place. -/
structure Beside (S : Alignment) (known : Bool) (ts : List Token) (c d : Cursor) : Prop where
  left : c.rest = ts ++ S.left
  right : d.rest = moved S.move ts ++ S.right
  lastEnd : known = true → d.lastEnd = moved S.move c.lastEnd

/-- The same rows, where nothing may end at the end of what they have in common. -/
def inner (S : Alignment) : Alignment :=
  { S with edge := False, left_edge := nofun, right_edge := nofun }

theorem inner_edge (S : Alignment) : ¬ S.inner.edge := id

theorem Beside.inner {S : Alignment} {known : Bool} {ts : List Token} {c d : Cursor}
    (h : S.Beside known ts c d) : S.inner.Beside known ts c d := ⟨h.left, h.right, h.lastEnd⟩

theorem Beside.ofInner {S : Alignment} {known : Bool} {ts : List Token} {c d : Cursor}
    (h : S.inner.Beside known ts c d) : S.Beside known ts c d := ⟨h.left, h.right, h.lastEnd⟩

end Alignment

namespace Reader

variable {α β : Type}

/-- A result of a reader that goes forward, over no end of the text, and over a token at least if it
takes a `step`. -/
def Advances (step : Bool) (c : Cursor) : Except Misfit (α × Cursor) → Prop
  | .ok (_, c') => ∃ us, c.After us c' ∧ (∀ t ∈ us, t.kind ≠ .mark .stop) ∧ (step = true → us ≠ [])
  | .error m => ∃ us, c.After us m.cursor ∧ ∀ t ∈ us, t.kind ≠ .mark .stop

/-- At cursors before at most `size` tokens that the rows have in common, the first of a kind `on`,
the reader `B` does what `A` does. -/
structure Keeps [Movable α] (S : Alignment) (size : Nat) (on : Kind → Prop) (known step : Bool)
    (A B : Reader α) : Prop where
  advances : ∀ {c}, on c.kind → Advances step c (A c)
  ok : ∀ {ts c d x c' vs}, S.Beside known ts c d → ts.length ≤ size → on c.kind →
    A c = .ok (x, c') → c'.rest = vs ++ S.left → (vs = [] → S.edge) →
    ∃ d', B d = .ok (moved S.move x, d') ∧ S.Beside (known || step) vs c' d'
  error : ∀ {ts c d m vs}, S.Beside known ts c d → ts.length ≤ size → on c.kind →
    A c = .error m → m.cursor.rest = vs ++ S.left → vs ≠ [] →
    ∃ d', B d = .error ⟨m.expected, d'⟩ ∧ S.Beside false vs m.cursor d'

namespace Advances

variable {A : Reader α} {f : α → Reader β} {c c' : Cursor} {s s' : Bool}

theorem bind (hA : Advances s c (A c)) (hf : ∀ x c', A c = .ok (x, c') → Advances s' c' (f x c')) :
    Advances (s || s') c ((A >>= f) c) := by
  cases h : (A >>= f) c with
  | error m =>
    rcases bind_error.mp h with h | ⟨x, c₁, h, h'⟩
    · rwa [h] at hA
    · have hf := hf x c₁ h
      rw [h] at hA
      rw [h'] at hf
      obtain ⟨us, ha, hus, -⟩ := hA
      obtain ⟨vs, hb, hvs⟩ := hf
      exact ⟨us ++ vs, ha.trans hb, List.forall_mem_append.mpr ⟨hus, hvs⟩⟩
  | ok r =>
    obtain ⟨y, c'⟩ := r
    obtain ⟨x, c₁, h, h'⟩ := bind_ok.mp h
    have hf := hf x c₁ h
    rw [h] at hA
    rw [h'] at hf
    obtain ⟨us, ha, hus, hs⟩ := hA
    obtain ⟨vs, hb, hvs, hs'⟩ := hf
    refine ⟨us ++ vs, ha.trans hb, List.forall_mem_append.mpr ⟨hus, hvs⟩, fun h => ?_⟩
    rcases Bool.or_eq_true_iff.mp h with h | h
    · simp [hs h]
    · simp [hs' h]

theorem weaken {r : Except Misfit (α × Cursor)} (h : Advances s c r)
    (hs : s' = true → s = true) : Advances s' c r := by
  cases r with
  | error m => exact h
  | ok r =>
    obtain ⟨us, ha, hus, hstep⟩ := h
    exact ⟨us, ha, hus, fun h => hstep (hs h)⟩

end Advances

theorem itemsAfter_done {item : Reader α} (bound : Nat) {c : Cursor}
    (hk : c.kind.isMark .comma = false) : itemsAfter item bound c = .ok ([], c) := by
  cases bound with
  | zero => rfl
  | succ bound =>
    rw [itemsAfter, atMark_bind, hk]
    rfl

end Reader

theorem endFrom_moved (μ : Move) (p : Position) (ts : List Token) :
    endFrom (moved μ p) (moved μ ts) = moved μ (endFrom p ts) := by
  induction ts generalizing p with
  | nil => rfl
  | cons t ts ih => exact ih t.span.stop

namespace Alignment.Beside

variable {S : Alignment} {known : Bool} {ts us vs : List Token} {c d c' : Cursor}

/-- What is passed on the left comes from the tokens in common. -/
theorem split (h : S.Beside known ts c d) (ha : c.After us c') (hc : c'.rest = vs ++ S.left) :
    ts = us ++ vs := by
  have hrest := ha.rest
  rw [h.left, hc, ← List.append_assoc] at hrest
  exact List.append_cancel_right hrest

/-- Where nothing in common is left, nothing can be passed. -/
theorem none_passed (h : S.Beside known [] c d) (ha : c.After us c')
    (hc : c'.rest = vs ++ S.left) : us = [] ∧ vs = [] :=
  List.append_eq_nil_iff.mp (h.split ha hc).symm

theorem kind (h : S.Beside known ts c d) (hts : ts ≠ []) : d.kind = c.kind := by
  obtain ⟨t, ts, rfl⟩ := List.exists_cons_of_ne_nil hts
  rw [Cursor.kind_eq, Cursor.kind_eq, h.left, h.right]
  rfl

theorem span (h : S.Beside known ts c d) (hts : ts ≠ []) : d.span = moved S.move c.span := by
  obtain ⟨t, ts, rfl⟩ := List.exists_cons_of_ne_nil hts
  rw [Cursor.span, Cursor.span, h.left, h.right]
  rfl

theorem left_kind (h : S.Beside known [] c d) (he : S.edge) : c.kind = .mark .stop := by
  rw [Cursor.kind_eq, h.left]
  exact S.left_edge he

theorem right_kind (h : S.Beside known [] c d) (he : S.edge) : d.kind = .mark .separator := by
  rw [Cursor.kind_eq, h.right]
  exact S.right_edge he

end Alignment.Beside

namespace Reader

/-- Where nothing in common is left, no reader fails before a token in common. -/
theorem Advances.nothing_left {α : Type} {S : Alignment} {known s : Bool} {vs : List Token}
    {c d : Cursor} {m : Misfit} {r : Except Misfit (α × Cursor)} (ha : Advances s c r)
    (h : S.Beside known [] c d) (hm : r = .error m) (hrest : m.cursor.rest = vs ++ S.left) :
    vs = [] := by
  subst hm
  obtain ⟨us, ha, -⟩ := ha
  exact (h.none_passed ha hrest).2

namespace Keeps

variable {α β : Type} [Movable α] [Movable β] {S : Alignment} {size size' : Nat}
  {on : Kind → Prop} {known s t : Bool} {A B : Reader α} {f g : α → Reader β}

theorem goes (h : Keeps S size (fun _ => True) known s A B) (c : Cursor) : Advances s c (A c) :=
  h.advances trivial

theorem mono (h : Keeps S size on known s A B) (hsize : size' ≤ size)
    {on' : Kind → Prop} (hon : ∀ k, on' k → on k) : Keeps S size' on' known s A B where
  advances h' := h.advances (hon _ h')
  ok hbeside hts h' hx hrest hedge :=
    h.ok hbeside (Nat.le_trans hts hsize) (hon _ h') hx hrest hedge
  error hbeside hts h' hm hrest hne :=
    h.error hbeside (Nat.le_trans hts hsize) (hon _ h') hm hrest hne

theorem less (h : Keeps S size on known s A B) (hs : t = true → s = true) :
    Keeps S size on known t A B where
  advances hon := (h.advances hon).weaken hs
  ok hbeside hsize hon hx hrest hedge := by
    obtain ⟨d', hd', hbeside'⟩ := h.ok hbeside hsize hon hx hrest hedge
    refine ⟨d', hd', hbeside'.left, hbeside'.right, fun hknown => hbeside'.lastEnd ?_⟩
    exact Bool.or_eq_true_iff.mpr ((Bool.or_eq_true_iff.mp hknown).imp_right hs)
  error := h.error

/-- Where a second reader goes on after a first, both runs of the first succeed. -/
theorem middle (hA : Keeps S size on known s A B) (hknown : (known || s) = true)
    (hsize : s = true ∧ size ≤ size' + 1 ∨ size ≤ size') {ts ws vs : List Token}
    {c d c₁ c' : Cursor} {x : α} (hbeside : S.Beside known ts c d) (hts : ts.length ≤ size)
    (hon : on c.kind) (hx : A c = .ok (x, c₁)) (hb : c₁.After ws c')
    (hrest : c'.rest = vs ++ S.left) (hedge : vs = [] → S.edge) :
    ∃ d₁, B d = .ok (moved S.move x, d₁) ∧ S.Beside true (ws ++ vs) c₁ d₁ ∧
      (ws ++ vs).length ≤ size' := by
  have hus := hA.advances hon
  rw [hx] at hus
  obtain ⟨us, ha, -, hstep⟩ := hus
  have hmid : c₁.rest = (ws ++ vs) ++ S.left := by rw [hb.rest, hrest, List.append_assoc]
  obtain ⟨d₁, hd₁, hbeside₁⟩ := hA.ok hbeside hts hon hx hmid
    fun hnil => hedge (List.append_eq_nil_iff.mp hnil).2
  have hlen := congrArg List.length (hbeside.split ha hmid)
  rw [List.length_append] at hlen
  refine ⟨d₁, hd₁, hknown ▸ hbeside₁, ?_⟩
  rcases hsize with ⟨hs, hsize⟩ | hsize
  · have hpos := List.length_pos_of_ne_nil (hstep hs)
    omega
  · omega

/-- One reader after another. If the first takes a step, fewer tokens are left for the second. -/
theorem bind {o : Kind → Prop} (hA : Keeps S size on known s A B)
    (ho : ∀ c x c', A c = .ok (x, c') → o c'.kind) (hknown : (known || s) = true)
    (hsize : s = true ∧ size ≤ size' + 1 ∨ size ≤ size')
    (hf : ∀ x, Keeps S size' o true t (f x) (g (moved S.move x))) :
    Keeps S size on known (s || t) (A >>= f) (B >>= g) where
  advances {c} hon := (hA.advances hon).bind fun x c' h => ((hf x).advances (ho _ _ _ h))
  ok {ts c d y c' vs} hbeside hts hon h hrest hedge := by
    obtain ⟨x, c₁, hx, hy⟩ := bind_ok.mp h
    have hon₁ := ho _ _ _ hx
    have hws := (hf x).advances hon₁
    rw [hy] at hws
    obtain ⟨ws, hb, -, -⟩ := hws
    obtain ⟨d₁, hd₁, hbeside₁, hfew⟩ :=
      hA.middle hknown hsize hbeside hts hon hx hb hrest hedge
    obtain ⟨d', hd', hbeside'⟩ := (hf x).ok hbeside₁ hfew hon₁ hy hrest hedge
    exact ⟨d', bind_ok.mpr ⟨_, d₁, hd₁, hd'⟩, hbeside'.left, hbeside'.right,
      fun _ => hbeside'.lastEnd rfl⟩
  error {ts c d m vs} hbeside hts hon h hrest hne := by
    rcases bind_error.mp h with h | ⟨x, c₁, hx, hy⟩
    · obtain ⟨d', hd', hbeside'⟩ := hA.error hbeside hts hon h hrest hne
      exact ⟨d', bind_error.mpr (.inl hd'), hbeside'⟩
    · have hon₁ := ho _ _ _ hx
      have hws := (hf x).advances hon₁
      rw [hy] at hws
      obtain ⟨ws, hb, -⟩ := hws
      obtain ⟨d₁, hd₁, hbeside₁, hfew⟩ :=
        hA.middle hknown hsize hbeside hts hon hx hb hrest fun hnil => absurd hnil hne
      obtain ⟨d', hd', hbeside'⟩ := (hf x).error hbeside₁ hfew hon₁ hy hrest hne
      exact ⟨d', bind_error.mpr (.inr ⟨_, d₁, hd₁, hd'⟩), hbeside'⟩

theorem first (hA : Keeps S size on known true A B)
    (hf : ∀ x, Keeps S (size - 1) (fun _ => True) true t (f x) (g (moved S.move x))) :
    Keeps S size on known true (A >>= f) (B >>= g) :=
  hA.bind (fun _ _ _ _ => trivial) (Bool.or_true _) (.inl ⟨rfl, by omega⟩) hf

theorem andThen (hA : Keeps S size on true s A B)
    (hf : ∀ x, Keeps S size (fun _ => True) true t (f x) (g (moved S.move x))) :
    Keeps S size on true t (A >>= f) (B >>= g) :=
  (hA.less (t := false) nofun).bind (fun _ _ _ _ => trivial) rfl (.inr (Nat.le_refl _)) hf

theorem inner (h : Keeps S size on known s A B) : Keeps S.inner size on known s A B where
  advances := h.advances
  ok hbeside hts hon hx hrest hvs := by
    obtain ⟨d', hd', hbeside'⟩ := h.ok hbeside.ofInner hts hon hx hrest fun hnil => (hvs hnil).elim
    exact ⟨d', hd', hbeside'.inner⟩
  error hbeside hts hon hm hrest hne := by
    obtain ⟨d', hd', hbeside'⟩ := h.error hbeside.ofInner hts hon hm hrest hne
    exact ⟨d', hd', hbeside'.inner⟩

/-- What never succeeds before the end of the text does not end at an edge. -/
theorem ofInner (hk : ∀ c x c', A c = .ok (x, c') → c'.kind ≠ .mark .stop)
    (h : Keeps S.inner size on known s A B) : Keeps S size on known s A B where
  advances := h.advances
  ok {ts c d x c' vs} hbeside hts hon hx hrest hvs := by
    have hinner : vs = [] → S.inner.edge := by
      rintro rfl
      refine hk _ _ _ hx ?_
      rw [Cursor.kind_eq, hrest]
      exact S.left_edge (hvs rfl)
    obtain ⟨d', hd', hbeside'⟩ := h.ok hbeside.inner hts hon hx hrest hinner
    exact ⟨d', hd', hbeside'.ofInner⟩
  error hbeside hts hon hm hrest hne := by
    obtain ⟨d', hd', hbeside'⟩ := h.error hbeside.inner hts hon hm hrest hne
    exact ⟨d', hd', hbeside'.ofInner⟩

/-! ## The least readers -/

theorem pure {x y : α} (hy : y = moved S.move x) :
    Keeps S size on known false (Pure.pure x : Reader α) (Pure.pure y) where
  advances {c} _ := ⟨[], .refl c, List.forall_mem_nil _, nofun⟩
  ok {ts c d x' c' vs} hbeside _ _ h hrest _ := by
    obtain ⟨rfl, rfl⟩ := pure_ok.mp h
    obtain rfl : ts = vs := List.append_cancel_right (hbeside.left.symm.trans hrest)
    exact ⟨d, by rw [hy]; rfl, by simpa using hbeside⟩
  error _ _ _ h := nomatch h

theorem fail {e : Expectation} :
    Keeps S size on known s (Reader.fail e : Reader α) (Reader.fail e) where
  advances {c} _ := ⟨[], .refl c, List.forall_mem_nil _⟩
  ok _ _ _ h := nomatch h
  error {ts c d m vs} hbeside _ _ h hrest _ := by
    obtain rfl := Except.error.inj h
    obtain rfl : ts = vs := List.append_cancel_right (hbeside.left.symm.trans hrest)
    exact ⟨d, rfl, hbeside.left, hbeside.right, nofun⟩

theorem pass (hon : ∀ k, on k → k ≠ .mark .stop) :
    Keeps S size on known true Reader.pass Reader.pass where
  advances {c} h := by
    obtain ⟨t, ht, -, ha⟩ := Cursor.after_next (hon _ h)
    refine ⟨[t], ha, List.forall_mem_singleton.mpr ?_, by simp⟩
    exact ht ▸ hon _ h
  ok {ts c d x c' vs} hbeside _ h hx hrest _ := by
    obtain ⟨t, -, rfl, ha⟩ := pass_ok (hon _ h) hx
    obtain rfl := hbeside.split ha hrest
    refine ⟨d.next, ?_, hrest, ?_, fun _ => ?_⟩
    · simp only [Reader.pass, Cursor.span, hbeside.right]
      rfl
    · simp only [Cursor.next, hbeside.right]
      rfl
    · rw [ha.stop]
      simp only [Cursor.next, hbeside.right]
      rfl
  error _ _ _ h := nomatch h

theorem ite {b : Bool} {A' B' : Reader α} (htrue : b = true → Keeps S size on known s A B)
    (hfalse : b = false → Keeps S size on known s A' B') :
    Keeps S size on known s (if b = true then A else A') (if b = true then B else B') := by
  cases b with
  | true => exact htrue rfl
  | false => exact hfalse rfl

/-! ## Readers that pass nothing -/

section

variable {γ : Type} {T : Reader γ} {v : Cursor → γ} {h h' : γ → Reader α}

/-- A reader that looks at the cursor, before another. Before a token in common this goes on alike
on both sides. Where none is left, it need do so only if it may end there. -/
theorem peek (hT : ∀ c, T c = .ok (v c, c))
    (hadvances : ∀ c, on c.kind → Advances s c (h (v c) c))
    (hk : ∀ {ts c d}, S.Beside known ts c d → ts.length ≤ size → on c.kind →
      (ts = [] → S.edge ∧ s = false) →
      Keeps S ts.length (· = c.kind) known s (h (v c)) (h' (v d))) :
    Keeps S size on known s (T >>= h) (T >>= h') := by
  have hrun (h : γ → Reader α) (c : Cursor) : (T >>= h) c = h (v c) c := by
    show Except.bind _ _ = _
    rw [hT]
    rfl
  constructor
  · intro c hon
    rw [hrun]
    exact hadvances c hon
  · intro ts c d x c' vs hbeside hts hon hx hrest hvs
    rw [hrun] at hx ⊢
    have ha := hadvances c hon
    rw [hx] at ha
    refine (hk hbeside hts hon ?_).ok hbeside (Nat.le_refl _) rfl hx hrest hvs
    rintro rfl
    obtain ⟨us, hafter, -, hstep⟩ := ha
    obtain ⟨rfl, rfl⟩ := hbeside.none_passed hafter hrest
    exact ⟨hvs rfl, Bool.eq_false_iff.mpr fun hs => hstep hs rfl⟩
  · intro ts c d m vs hbeside hts hon hm hrest hne
    rw [hrun] at hm ⊢
    refine (hk hbeside hts hon ?_).error hbeside (Nat.le_refl _) rfl hm hrest hne
    rintro rfl
    exact absurd ((hadvances c hon).nothing_left hbeside hm hrest) hne

/-- Before the end of the text on the left and a separator on the right, the next token must make
no difference. -/
theorem look {φ : Kind → γ} (hT : ∀ c, T c = .ok (φ c.kind, c))
    (hedge : S.edge → s = false → h' (φ (.mark .separator)) = h' (φ (.mark .stop)))
    (hk : ∀ k, on k → Keeps S size (· = k) known s (h (φ k)) (h' (φ k))) :
    Keeps S size on known s (T >>= h) (T >>= h') := by
  refine peek hT (fun c hon => (hk _ hon).advances rfl) fun {ts c d} hbeside hts hon hnil => ?_
  have hsame : h' (φ d.kind) = h' (φ c.kind) := by
    by_cases hts : ts = []
    · obtain ⟨he, hs⟩ := hnil hts
      subst hts
      rw [hbeside.left_kind he, hbeside.right_kind he]
      exact hedge he hs
    · rw [hbeside.kind hts]
  rw [hsame]
  exact (hk _ hon).mono hts fun _ => id

end

/-- Where a token comes next, it begins at the same place on both sides. -/
theorem here {h h' : Position → Reader α} (hedge : S.edge → s = true)
    (hp : ∀ p, Keeps S size on known s (h p) (h' (moved S.move p))) :
    Keeps S size on known s (Reader.here >>= h) (Reader.here >>= h') := by
  refine peek (v := fun c => c.span.start) (fun _ => rfl) (fun c hon => (hp _).advances hon)
    fun {ts c d} hbeside hts hon hnil => ?_
  have hne : ts ≠ [] := fun h => Bool.false_ne_true ((hnil h).2.symm.trans (hedge (hnil h).1))
  rw [hbeside.span hne]
  exact (hp _).mono hts fun _ hk => hk ▸ hon

theorem lastEnd {h h' : Position → Reader α}
    (hp : ∀ p, Keeps S size on true s (h p) (h' (moved S.move p))) :
    Keeps S size on true s (Reader.lastEnd >>= h) (Reader.lastEnd >>= h') := by
  refine peek (v := Cursor.lastEnd) (fun _ => rfl) (fun c hon => (hp _).advances hon)
    fun hbeside hts hon _ => ?_
  rw [hbeside.lastEnd rfl]
  exact (hp _).mono hts fun _ hk => hk ▸ hon

/-- The bounds on both sides are as large as what the rows have in common. -/
theorem remaining {r r' : Nat → Reader α}
    (hr : ∀ n b b', n ≤ size → n ≤ b → n ≤ b' → Keeps S n on known s (r b) (r' b')) :
    Keeps S size on known s (Reader.remaining >>= r) (Reader.remaining >>= r') := by
  refine peek (v := fun c => c.rest.length) (fun _ => rfl)
    (fun c hon => (hr 0 _ 0 (Nat.zero_le _) (Nat.zero_le _) (Nat.le_refl _)).advances hon)
    fun {ts c d} hbeside hts hon _ => ?_
  refine (hr ts.length _ _ hts ?_ ?_).mono (Nat.le_refl _) fun _ hk => hk ▸ hon
  · rw [hbeside.left, List.length_append]
    exact Nat.le_add_right _ _
  · rw [hbeside.right, List.length_append]
    exact Nat.le_add_right_of_le (Nat.le_of_eq (List.length_map _).symm)

/-! ## Readers of single tokens -/

section

variable {T : Reader Bool} {φ : Kind → Bool} {test : Bool → Bool} {h h' : Span → Reader α}
  {E E' : Reader α}

/-- Passes the next token if it is of some kind, and goes on. -/
theorem passIf (hT : ∀ c, T c = .ok (φ c.kind, c)) (hstop : test (φ (.mark .stop)) = false)
    (hsep : test (φ (.mark .separator)) = false)
    (hpass : ∀ s, Keeps S (size - 1) (fun _ => True) true t (h s) (h' (moved S.move s)))
    (helse : Keeps S size on known s E E') :
    Keeps S size on known s (T >>= fun b => if test b = true then Reader.pass >>= h else E)
      (T >>= fun b => if test b = true then Reader.pass >>= h' else E') := by
  refine look hT (fun _ _ => by rw [hstop, hsep]) fun k hk => ?_
  refine .ite (fun htest => ?_) fun _ => helse.mono (Nat.le_refl _) fun _ h => h ▸ hk
  have hne : ∀ l, l = k → l ≠ .mark .stop := by
    rintro l rfl rfl
    exact Bool.false_ne_true (hstop.symm.trans htest)
  exact (first (pass hne) hpass).less fun _ => rfl

theorem passMark {m : Mark} (hm : m ≠ .stop) (hm' : m ≠ .separator)
    (hpass : ∀ s, Keeps S (size - 1) (fun _ => True) true t (h s) (h' (moved S.move s)))
    (helse : Keeps S size on known s E E') :
    Keeps S size on known s (Reader.atMark m >>= fun b => if b = true then Reader.pass >>= h else E)
      (Reader.atMark m >>= fun b => if b = true then Reader.pass >>= h' else E') :=
  passIf (φ := fun k => k.isMark m) (fun _ => rfl) (by simpa [Kind.isMark] using hm.symm)
    (by simpa [Kind.isMark] using hm'.symm) hpass helse

theorem passKeyword {w : Keyword}
    (hpass : ∀ s, Keeps S (size - 1) (fun _ => True) true t (h s) (h' (moved S.move s)))
    (helse : Keeps S size on known s E E') :
    Keeps S size on known s
      (Reader.atKeyword w >>= fun b => if b = true then Reader.pass >>= h else E)
      (Reader.atKeyword w >>= fun b => if b = true then Reader.pass >>= h' else E') :=
  passIf (φ := fun k => k.isKeyword w) (fun _ => rfl) rfl rfl hpass helse

end

/-- Passes the next token, which has to be of a kind. -/
theorem expect {T : Reader Bool} {φ : Kind → Bool} {k : Kind} {e : Expectation}
    (hT : ∀ c, T c = .ok (φ c.kind, c)) (hφ : ∀ l, φ l = true → l = k) (hk : k ≠ .mark .stop) :
    Keeps S size on known true (T >>= fun b => if b = true then Reader.pass else Reader.fail e)
      (T >>= fun b => if b = true then Reader.pass else Reader.fail e) := by
  refine look hT nofun fun l _ => .ite (fun hl => pass ?_) fun _ => fail
  rintro l' rfl
  exact (hφ l' hl).symm ▸ hk

theorem expectMark {m : Mark} (hm : m ≠ .stop) :
    Keeps S size on known true (Reader.expectMark m) (Reader.expectMark m) :=
  expect (φ := fun k => k.isMark m) (fun _ => rfl) (fun _ => Kind.isMark_iff.mp) (by simpa using hm)

theorem expectKeyword {w : Keyword} :
    Keeps S size on known true (Reader.expectKeyword w) (Reader.expectKeyword w) :=
  expect (φ := fun k => k.isKeyword w) (fun _ => rfl) (fun _ => Kind.isKeyword_iff.mp) nofun

theorem identifier : Keeps S size on known true Reader.identifier Reader.identifier := by
  refine look (φ := id) (fun _ => rfl) nofun fun k _ => ?_
  cases k with
  | identifier name =>
    refine first (pass fun _ h => h ▸ nofun) fun s => pure rfl
  | _ => exact fail

theorem node {p q : Position} {e e' : Expr} (hp : q = moved S.move p) (he : e' = moved S.move e) :
    Keeps S size on true false (Grammar.node p e) (Grammar.node q e') :=
  lastEnd fun r => pure (by rw [hp, he]; rfl)

/-- All separators are passed, where some token in common comes after them. -/
theorem skipSeparators (hedge : ¬ S.edge) (hon : s = true → ∀ k, on k → k = .mark .separator) :
    Keeps S size on known s Reader.skipSeparators Reader.skipSeparators := by
  have hstep {c : Cursor} {seps : List Token} (h : on c.kind) (hs : s = true)
      (ha : c.After seps c.skipSeparators) : seps ≠ [] := by
    rintro rfl
    exact c.after_skipSeparators.1 (ha.kind.symm.trans (hon hs _ h))
  constructor
  · intro c h
    obtain ⟨-, seps, hseps, ha⟩ := c.after_skipSeparators
    exact ⟨seps, ha, fun t ht => by simp [hseps t ht], fun hs => hstep h hs ha⟩
  · intro ts c d x c' vs hbeside _ h hx hrest hvs
    obtain ⟨rfl, rfl⟩ := Prod.mk.inj (Except.ok.inj hx)
    obtain ⟨hk, seps, hseps, ha⟩ := c.after_skipSeparators
    obtain ⟨-, seps', -, ha'⟩ := d.after_skipSeparators
    have hne : vs ≠ [] := fun hnil => hedge (hvs hnil)
    obtain rfl := hbeside.split ha hrest
    have hright : d.rest = moved S.move seps ++ (moved S.move vs ++ S.right) := by
      rw [hbeside.right, ← List.append_assoc]
      exact congrArg (· ++ S.right) List.map_append
    have hskip : d.skipSeparators.rest = moved S.move vs ++ S.right := by
      rw [Cursor.skipSeparators, hright]
      refine Cursor.skipFrom_rest (fun t ht => ?_) ?_ _ _
      · obtain ⟨u, hu, rfl⟩ := List.mem_map.mp ht
        exact hseps u hu
      · obtain ⟨v, vs, rfl⟩ := List.exists_cons_of_ne_nil hne
        rw [Cursor.kind_eq, hrest] at hk
        exact hk
    have hseps' : seps' = moved S.move seps := by
      have hrest' := ha'.rest
      rw [hskip, hright] at hrest'
      exact (List.append_cancel_right hrest').symm
    refine ⟨d.skipSeparators, ?_, hrest, hskip, fun hknown => ?_⟩
    · rw [← hbeside.kind (by simp [hne])]
      rfl
    · rw [ha'.lastEnd, ha.lastEnd, hseps']
      rcases Bool.or_eq_true_iff.mp hknown with hknown | hs
      · rw [hbeside.lastEnd hknown, endFrom_moved]
      · obtain ⟨t, seps, rfl⟩ := List.exists_cons_of_ne_nil (hstep h hs ha)
        exact endFrom_moved S.move t.span.stop seps
  · intro ts c d m vs _ _ _ h
    cases h

/-! ## Loops -/

/-- Where no token in common is left, nothing is asked of what takes a step. -/
theorem ofZero (hadvances : ∀ c, on c.kind → Advances true c (A c)) :
    Keeps S 0 on known true A B where
  advances := hadvances _
  ok {ts c d y c' vs} hbeside hts hon h hrest _ := by
    obtain rfl := List.length_eq_zero_iff.mp (Nat.le_zero.mp hts)
    have ha := hadvances c hon
    rw [h] at ha
    obtain ⟨us, ha, -, hstep⟩ := ha
    exact absurd (hbeside.none_passed ha hrest).1 (hstep rfl)
  error {ts c d m vs} hbeside hts hon h hrest hne := by
    obtain rfl := List.length_eq_zero_iff.mp (Nat.le_zero.mp hts)
    exact absurd ((hadvances c hon).nothing_left hbeside h hrest) hne

/-- What does nothing before the end of the text or a separator. -/
theorem ofEdge {x : α} (hadvances : ∀ c, Advances false c (A c))
    (hA : S.edge → ∀ c, c.kind = .mark .stop → A c = .ok (x, c))
    (hB : S.edge → ∀ d, d.kind = .mark .separator → B d = .ok (moved S.move x, d)) :
    Keeps S 0 on known false A B where
  advances _ := hadvances _
  ok {ts c d y c' vs} hbeside hts _ h hrest hvs := by
    obtain rfl := List.length_eq_zero_iff.mp (Nat.le_zero.mp hts)
    have ha := hadvances c
    rw [h] at ha
    obtain ⟨us, ha, -, -⟩ := ha
    obtain ⟨rfl, rfl⟩ := hbeside.none_passed ha hrest
    have he := hvs rfl
    have hleft := hA he c (hbeside.left_kind he)
    obtain ⟨rfl, rfl⟩ := Prod.mk.inj (Except.ok.inj (hleft.symm.trans h))
    exact ⟨d, hB he d (hbeside.right_kind he), by simpa using hbeside⟩
  error {ts c d m vs} hbeside hts _ h hrest hne := by
    obtain rfl := List.length_eq_zero_iff.mp (Nat.le_zero.mp hts)
    exact absurd ((hadvances c).nothing_left hbeside h hrest) hne

/-- Loops that pass a token in each turn, with bounds on both sides that are large enough. -/
theorem turns {σ : Type} [Movable σ] {F G : Nat → σ → Reader α} {r : σ → α} {limit : Nat}
    (hzero : ∀ x c, F 0 x c = .ok (r x, c))
    (hleft : S.edge → ∀ b x c, c.kind = .mark .stop → F b x c = .ok (r x, c))
    (hright : S.edge → ∀ b x d, d.kind = .mark .separator →
      G b (moved S.move x) d = .ok (moved S.move (r x), d))
    (hturn : ∀ {n b b'}, n ≤ limit →
      (∀ x, Keeps S (n - 1) (fun _ => True) true false (F b x) (G b' (moved S.move x))) →
      ∀ {on known} x, Keeps S n on known false (F (b + 1) x) (G (b' + 1) (moved S.move x)))
    {b b' : Nat} (hlimit : size ≤ limit) (hb : size ≤ b) (hb' : size ≤ b') (x : σ) :
    Keeps S size on known false (F b x) (G b' (moved S.move x)) := by
  induction b generalizing size b' on known x with
  | zero =>
    obtain rfl := Nat.le_zero.mp hb
    refine ofEdge (x := r x) (fun c => ?_) (fun he => hleft he 0 x) fun he => hright he b' x
    rw [hzero]
    exact ⟨[], .refl c, List.forall_mem_nil _, nofun⟩
  | succ b ih =>
    cases b' with
    | zero =>
      obtain rfl := Nat.le_zero.mp hb'
      have hone : Keeps S 0 (fun _ => True) known false _ _ :=
        hturn hlimit (ih hlimit (Nat.zero_le b) (Nat.zero_le 0)) x
      exact ofEdge (fun c => hone.advances trivial) (fun he => hleft he _ x) fun he => hright he 0 x
    | succ b' => exact hturn hlimit (ih (by omega) (by omega) (by omega)) x

/-! ## Items -/

theorem itemsAfter {limit : Nat} (hi : ∀ known on, Keeps S limit on known true A B) {b b' : Nat}
    (hlimit : size ≤ limit + 1) (hb : size ≤ b) (hb' : size ≤ b') :
    Keeps S size on known false (Reader.itemsAfter A b) (Reader.itemsAfter B b') := by
  refine turns (F := fun b _ => Reader.itemsAfter A b) (G := fun b _ => Reader.itemsAfter B b)
    (r := fun _ => []) (fun _ _ => rfl) (fun _ b _ c hk => itemsAfter_done b (by rw [hk]; rfl))
    (fun _ b _ d hk => itemsAfter_done b (by rw [hk]; rfl)) ?_ hlimit hb hb' ()
  intro n b b' hn ih on known _
  refine passMark (t := true) nofun nofun (fun _ => ?_) (pure rfl)
  refine ((hi _ _).mono (by omega) fun _ => id).first (t := false) fun x => ?_
  exact ((ih ()).mono (Nat.sub_le _ _) fun _ => id).andThen fun xs => pure rfl

theorem itemsUntil {m : Mark} (hm : m ≠ .stop) (hm' : m ≠ .separator)
    (hi : ∀ known on, Keeps S size on known true A B) :
    Keeps S size on true true (Reader.itemsUntil m A) (Reader.itemsUntil m B) := by
  rw [itemsUntil_eq, itemsUntil_eq]
  have hbefore : Keeps S size on true false (itemsBefore m A) (itemsBefore m B) := by
    refine look (φ := fun k => k.isMark m) (fun _ => rfl) (fun _ _ => ?_) fun k _ => ?_
    · simp [Kind.isMark, hm.symm, hm'.symm]
    · cases k.isMark m with
      | true => exact pure rfl
      | false =>
        refine (hi _ _).andThen (t := false) fun x => remaining fun n b b' hn hb hb' => ?_
        exact (itemsAfter hi (by omega) hb hb').andThen fun xs => pure rfl
  exact hbefore.andThen fun items => passMark hm hm' (fun _ => pure rfl) fail

end Keeps

end Reader

end Scriptlet

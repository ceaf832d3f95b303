import Scriptlet.Proofs.Grammar.Beside

/-!
# Productions side by side

Each production keeps its result on two rows of tokens that begin alike, if
what it nests does, on rows that have one token less in common. So the readers
do for all levels of nesting that are enough for these tokens.
-/

set_option autoImplicit false

namespace Scriptlet

open Token (Kind)

namespace Grammar

open Reader

variable {S : Alignment} {size limit : Nat} {on : Kind → Prop} {known : Bool}
  {sub sub' : Goal → Reader Node}

/-- What a production nests is read alike on rows that have at most `size` tokens in common. -/
def Nests (S : Alignment) (size : Nat) (sub sub' : Goal → Reader Node) : Prop :=
  ∀ goal known on, Keeps S size on known true (sub goal) (sub' goal)

theorem Nests.mono {size' : Nat} (h : Nests S size sub sub') (hsize : size' ≤ size) :
    Nests S size' sub sub' :=
  fun goal known on => (h goal known on).mono hsize fun _ => id

theorem Nests.inner (h : Nests S size sub sub') : Nests S.inner size sub sub' :=
  fun goal known on => (h goal known on).inner

/-! ## Bodies -/

theorem statementsUntil_keeps (hS : ¬ S.edge) (hs : Nests S limit sub sub')
    {close : List Keyword} {b b' : Nat} (hlimit : size ≤ limit) (hb : size ≤ b) (hb' : size ≤ b') :
    Keeps S size on known false (statementsUntil sub close b) (statementsUntil sub' close b') := by
  refine Keeps.turns (F := fun b _ => statementsUntil sub close b)
    (G := fun b _ => statementsUntil sub' close b) (r := fun _ => []) (fun _ _ => rfl)
    (fun he => absurd he hS) (fun he => absurd he hS) ?_ hlimit hb hb' ()
  intro n b b' hn ih on known _
  refine .look (φ := fun k => k.isMark .stop) (fun _ => rfl) (fun he => absurd he hS) fun k _ => ?_
  refine .look (φ := closes close) (fun _ => rfl) (fun he => absurd he hS) fun k' _ => ?_
  refine .ite (fun _ => .pure rfl) fun _ => .less (s := true) ?_ nofun
  refine ((hs .statement _ _).mono hn fun _ => id).first (t := false) fun x => ?_
  refine (Keeps.skipSeparators (s := false) hS nofun).andThen fun more => ?_
  exact .ite (fun _ => (ih ()).andThen fun xs => .pure rfl) fun _ => .pure rfl

theorem block_closes {close : List Keyword} {c c' : Cursor} {n : Node}
    (h : block sub close c = .ok (n, c')) : closes close c'.kind = true := by
  rw [block, lastEnd_bind] at h
  obtain ⟨body, c₁, -, h⟩ := bind_ok.mp h
  rw [atAnyKeyword_bind] at h
  split at h
  · next hk =>
    obtain ⟨-, rfl⟩ := pure_ok.mp h
    exact hk
  · exact (fail_ok.mp h).elim

theorem closes_stop (close : List Keyword) : closes close (.mark .stop) = false := by
  simp [closes, Kind.isKeyword]

theorem block_keeps (hs : Nests S size sub sub') (close : List Keyword)
    (hon : ∀ k, on k → k = .mark .separator) :
    Keeps S size on true true (block sub close) (block sub' close) := by
  refine .ofInner (fun c n c' h hk => ?_) (.lastEnd fun opened => ?_)
  · have hclose := block_closes h
    rw [hk, closes_stop] at hclose
    cases hclose
  have hstatements : Keeps S.inner size on true true (statements sub close)
      (statements sub' close) := by
    have hskip : Keeps S.inner size on true true skipSeparators skipSeparators :=
      .skipSeparators S.inner_edge fun _ => hon
    refine hskip.first (t := false) fun _ => ?_
    refine .remaining fun n b b' hn hb hb' => ?_
    exact statementsUntil_keeps S.inner_edge hs.inner (by omega) (by omega) (by omega)
  refine hstatements.first (t := false) fun body => ?_
  refine .look (φ := closes close) (fun _ => rfl) (fun he => he.elim) fun k _ => ?_
  refine .ite (fun _ => .pure ?_) fun _ => .fail
  show Node.mk _ _ = Node.mk _ (moved _ (spanOf _ _))
  rw [moved_spanOf, ← moved_block]
  rfl

theorem closedBlock_keeps (hs : Nests S size sub sub') (hon : ∀ k, on k → k = .mark .separator) :
    Keeps S size on true true (do let b ← block sub [.close]; let _ ← pass; return b)
      (do let b ← block sub' [.close]; let _ ← pass; return b) := by
  refine (block_keeps hs [.close] hon).bind (o := fun k => closes [.close] k = true)
    (fun c n c' => block_closes) rfl (.inr (Nat.le_refl _)) (t := true) fun n => ?_
  refine (Keeps.pass ?_).first (t := false) fun _ => .pure rfl
  rintro k hk rfl
  cases hk

theorem body_keeps (hs : Nests S size sub sub') :
    Keeps S size on true true (body sub) (body sub') := by
  refine .look (φ := fun k => k.isMark .separator) (fun _ => rfl) nofun fun k _ => ?_
  refine .ite (fun hk => closedBlock_keeps hs ?_) fun _ => hs .statement _ _
  rintro l rfl
  exact Kind.isMark_iff.mp hk

/-! ## Branches -/

theorem armBody_keeps (hs : Nests S size sub sub') {lined : Bool}
    (hon : lined = true → ∀ k, on k → k = .mark .separator) :
    Keeps S size on true true (armBody sub lined) (armBody sub' lined) :=
  .ite (fun hl => block_keeps hs _ (hon hl)) fun _ => hs .statement _ _

theorem arm_keeps (hs : Nests S size sub sub') :
    Keeps S size on known true (arm sub) (arm sub') := by
  refine (hs .expression _ _).first (t := true) fun test => ?_
  refine Keeps.expectKeyword.first (t := true) fun _ => ?_
  refine .look (φ := fun k => k.isMark .separator) (fun _ => rfl) nofun fun k _ => ?_
  refine (armBody_keeps (hs.mono (by omega)) fun hl l hk => ?_).first (t := false) fun inner =>
    .pure rfl
  exact Kind.isMark_iff.mp (hk ▸ hl)

theorem branches_keeps (hs : Nests S limit sub sub') {b b' : Nat} (hlimit : size ≤ limit)
    (hb : size ≤ b) (hb' : size ≤ b') :
    Keeps S size on known true (branches sub b) (branches sub' b') := by
  induction b generalizing size b' on known with
  | zero =>
    obtain rfl := Nat.le_zero.mp hb
    exact .ofZero fun c _ => ⟨[], .refl c, List.forall_mem_nil _⟩
  | succ b ih =>
    have hturn {b' : Nat} (hb' : size ≤ b' + 1) :
        Keeps S size on known true (branches sub (b + 1)) (branches sub' (b' + 1)) := by
      rw [branches_succ, branches_succ]
      refine (arm_keeps (hs.mono hlimit)).first (t := false) fun ⟨lined, test, inner⟩ => ?_
      dsimp only [moved_pair, moved_bool]
      refine .passIf (φ := fun k => k.isKeyword .close) (t := false) (fun _ => rfl)
        (Bool.and_false _) (Bool.and_false _) (fun _ => .pure rfl) ?_
      refine .passKeyword (t := true) (fun _ => ?_)
        (.passKeyword (t := true) (fun _ => ?_) (.pure rfl))
      · refine (ih ?_ ?_ ?_).first (t := false) fun ⟨more, otherwise⟩ => .pure rfl
        all_goals omega
      · exact (body_keeps (hs.mono (by omega))).first (t := false) fun other => .pure rfl
    cases b' with
    | zero =>
      obtain rfl := Nat.le_zero.mp hb'
      exact .ofZero fun c hon => (hturn (Nat.zero_le 1)).advances hon
    | succ b' => exact hturn hb'

/-! ## Atoms -/

theorem ifElse_keeps (hs : Nests S size sub sub') :
    Keeps S (size + 1) on known true (ifElse sub) (ifElse sub') := by
  refine Keeps.expectKeyword.first (t := true) fun word => .remaining fun n b b' hn hb hb' => ?_
  refine (branches_keeps hs hn hb hb').first (t := false) fun ⟨bs, otherwise⟩ => ?_
  exact .node rfl (moved_ifElse bs otherwise).symm

theorem stepClause_keeps (hs : Nests S size sub sub') :
    Keeps S size on true false (stepClause sub) (stepClause sub') :=
  .passKeyword (t := true)
    (fun _ => ((hs.mono (Nat.sub_le _ _)) .expression _ _).first (t := false) fun _ => .pure rfl)
    (.pure rfl)

theorem forTo_keeps (hs : Nests S size sub sub') :
    Keeps S (size + 1) on known true (forTo sub) (forTo sub') := by
  rw [forTo_eq, forTo_eq]
  refine Keeps.expectKeyword.first (t := true) fun word => ?_
  refine Keeps.identifier.andThen (t := true) fun ⟨var, _⟩ => ?_
  dsimp only [moved_pair]
  refine (Keeps.expectMark (m := .equal) nofun).andThen (t := true) fun _ => ?_
  refine (hs .expression _ _).andThen (t := true) fun first => ?_
  refine Keeps.expectKeyword.andThen (t := true) fun _ => ?_
  refine (hs .expression _ _).andThen (t := true) fun limit => ?_
  refine (stepClause_keeps hs).andThen (t := true) fun step => ?_
  refine Keeps.expectKeyword.andThen (t := true) fun _ => ?_
  refine (body_keeps hs).first (t := false) fun inner => ?_
  exact .node rfl (moved_forTo var first limit step inner).symm

theorem whileDo_keeps (hs : Nests S size sub sub') :
    Keeps S (size + 1) on known true (whileDo sub) (whileDo sub') := by
  refine Keeps.expectKeyword.first (t := true) fun word => ?_
  refine (hs .expression _ _).andThen (t := true) fun test => ?_
  refine Keeps.expectKeyword.andThen (t := true) fun _ => ?_
  exact (body_keeps hs).first (t := false) fun inner => .node rfl rfl

theorem functionName_keeps : Keeps S size on true false functionName functionName := by
  refine .look (φ := id) (fun _ => rfl) (fun _ _ => rfl) fun k _ => ?_
  cases k with
  | identifier name =>
    refine .less (s := true) ?_ nofun
    exact .first (t := false) (.pass fun _ h => h ▸ nofun) fun _ => .pure rfl
  | mark m => cases m <;> first | exact .pure rfl | exact .fail
  | _ => exact .fail

theorem param_keeps : Keeps S size on known true param param :=
  Keeps.identifier.first (t := false) fun _ => .pure rfl

theorem routine_keeps (hs : Nests S size sub sub') :
    Keeps S size on true true (routine sub) (routine sub') := by
  refine .look (φ := fun k => k.isMark .arrow) (fun _ => rfl) nofun fun k _ => ?_
  refine .look (φ := fun k => k.isMark .separator) (fun _ => rfl) nofun fun l hl => ?_
  refine .ite (fun harrow => ?_) fun _ => .ite (fun hlined => ?_) fun _ => .fail
  · refine .first (t := true) (.pass ?_) fun _ => hs.mono (Nat.sub_le _ _) .expression _ _
    rintro _ rfl rfl
    cases hl ▸ harrow
  · exact closedBlock_keeps hs fun k hk => hk ▸ Kind.isMark_iff.mp hlined

theorem function_keeps (hs : Nests S size sub sub') :
    Keeps S (size + 1) on known true (function sub) (function sub') := by
  rw [function_eq, function_eq]
  refine Keeps.expectKeyword.first (t := true) fun word => ?_
  refine functionName_keeps.andThen (t := true) fun name => ?_
  refine (Keeps.expectMark (m := .leftParen) nofun).andThen (t := true) fun _ => ?_
  refine (Keeps.itemsUntil (m := .rightParen) nofun nofun fun _ _ => param_keeps).andThen
    (t := true) fun params => ?_
  exact (routine_keeps hs).first (t := false) fun inner => .node rfl (by cases name <;> rfl)

theorem list_keeps (hs : Nests S size sub sub') :
    Keeps S (size + 1) on known true (list sub) (list sub') := by
  refine (Keeps.expectMark (m := .leftSquare) nofun).first (t := true) fun opening => ?_
  refine (Keeps.itemsUntil (m := .rightSquare) nofun nofun (hs .expression)).first (t := false)
    fun items => ?_
  exact .node rfl (moved_list items).symm

theorem parenthesised_keeps (hs : Nests S size sub sub') :
    Keeps S (size + 1) on known true (parenthesised sub) (parenthesised sub') := by
  refine (Keeps.expectMark (m := .leftParen) nofun).first (t := true) fun opening => ?_
  refine (hs .expression _ _).andThen (t := true) fun inner => ?_
  refine (Keeps.expectMark (m := .rightParen) nofun).first (t := false) fun _ => .node rfl ?_
  cases inner
  rfl

theorem literal_keeps {e : Expr} (he : moved S.move e = e) (hon : ∀ k, on k → k ≠ .mark .stop) :
    Keeps S size on known true (literal e) (literal e) :=
  (Keeps.pass hon).first (t := false) fun _ => .pure (congrArg (Node.mk · _) he.symm)

theorem atom_keeps (hs : Nests S size sub sub') :
    Keeps S (size + 1) on known true (atom sub) (atom sub') := by
  refine .look (φ := id) (fun _ => rfl) nofun fun k _ => ?_
  cases k with
  | int | float | text | identifier => exact literal_keeps rfl fun _ h => h ▸ nofun
  | mark m =>
    cases m with
    | leftParen => exact parenthesised_keeps hs
    | leftSquare => exact list_keeps hs
    | _ => exact .fail
  | keyword w =>
    cases w with
    | «if» => exact ifElse_keeps hs
    | «for» => exact forTo_keeps hs
    | «while» => exact whileDo_keeps hs
    | «fun» => exact function_keeps hs
    | _ => exact .fail

/-! ## Operators -/

theorem chainAfter_done {op? : Kind → Option BinaryOp} {operand : Reader Node} (bound : Nat)
    {left : Node} {c : Cursor} (hk : op? c.kind = none) :
    chainAfter op? operand bound left c = .ok (left, c) := by
  cases bound with
  | zero => rfl
  | succ bound =>
    rw [chainAfter, kind_bind, hk]
    rfl

theorem Chain.op?_separator (chain : Chain) : chain.op? (.mark .separator) = none := by
  cases chain <;> rfl

theorem chainAfter_keeps (ch : Chain) {A B : Reader Node}
    (ho : ∀ known on, Keeps S limit on known true A B) {b b' : Nat} (hlimit : size ≤ limit + 1)
    (hb : size ≤ b) (hb' : size ≤ b') (left : Node) :
    Keeps S size on known false (chainAfter ch.op? A b left)
      (chainAfter ch.op? B b' (moved S.move left)) := by
  refine Keeps.turns (r := id) (fun _ _ => rfl)
    (fun _ b _ _ hk => chainAfter_done b (by rw [hk, ch.op?_stop]))
    (fun _ b _ _ hk => chainAfter_done b (by rw [hk, ch.op?_separator])) ?_ hlimit hb hb' left
  intro n b b' hn ih on known left
  refine .look (φ := id) (fun _ => rfl) (fun _ _ => ?_) fun k _ => ?_
  · simp only [id, ch.op?_stop, ch.op?_separator]
  · simp only [id]
    cases hk : ch.op? k with
    | none => exact .pure rfl
    | some op =>
      refine .less (s := true) (.first (t := true) (.pass ?_) fun _ => ?_) nofun
      · rintro _ rfl rfl
        cases (ch.op?_stop).symm.trans hk
      · refine ((ho _ _).mono (by omega) fun _ => id).first (t := false) fun right => ?_
        have hrest := ih (joined left op right)
        rw [moved_joined] at hrest
        exact hrest.mono (Nat.sub_le _ _) fun _ => id

theorem chain_keeps (ch : Chain) {A B : Reader Node}
    (ho : ∀ known on, Keeps S size on known true A B) :
    Keeps S size on known true (chain ch.op? A) (chain ch.op? B) :=
  (ho _ _).first (t := false) fun first => .remaining fun n _ _ hn hb hb' =>
    chainAfter_keeps ch ho (by omega) hb hb' first

theorem trailersAfter_done {start : Position} (bound : Nat) {target : Node} {c : Cursor}
    (hround : c.kind.isMark .leftParen = false) (hsquare : c.kind.isMark .leftSquare = false) :
    trailersAfter sub start bound target c = .ok (target, c) := by
  cases bound with
  | zero => rfl
  | succ bound =>
    rw [trailersAfter, atMark_bind, hround]
    simp only [Bool.false_eq_true, if_false]
    rw [atMark_bind, hsquare]
    rfl

theorem trailersAfter_keeps (hs : Nests S limit sub sub') (start : Position) {b b' : Nat}
    (hlimit : size ≤ limit + 1) (hb : size ≤ b) (hb' : size ≤ b') (target : Node) :
    Keeps S size on known false (trailersAfter sub start b target)
      (trailersAfter sub' (moved S.move start) b' (moved S.move target)) := by
  refine Keeps.turns (r := id) (fun _ _ => rfl)
    (fun _ b _ _ hk => trailersAfter_done b (by rw [hk]; rfl) (by rw [hk]; rfl))
    (fun _ b _ _ hk => trailersAfter_done b (by rw [hk]; rfl) (by rw [hk]; rfl))
    ?_ hlimit hb hb' target
  intro n b b' hn ih on known target
  have hs := hs.mono (show n - 1 ≤ limit by omega)
  refine .passMark (t := true) nofun nofun (fun _ => ?_)
    (.passMark (t := true) nofun nofun (fun _ => ?_) (.pure rfl))
  · refine (Keeps.itemsUntil (m := .rightParen) nofun nofun (hs .expression)).first (t := false)
      fun args => ?_
    refine (Keeps.node rfl (moved_call target args).symm).andThen (t := false) fun applied => ?_
    exact (ih applied).mono (Nat.sub_le _ _) fun _ => id
  · refine (hs .expression _ _).andThen (t := true) fun place => ?_
    refine (Keeps.expectMark (m := .rightSquare) nofun).first (t := false) fun _ => ?_
    refine (Keeps.node rfl rfl).andThen (t := false) fun indexed => ?_
    exact (ih indexed).mono (Nat.sub_le _ _) fun _ => id

theorem application_keeps (hs : Nests S size sub sub') :
    Keeps S (size + 1) on known true (application sub) (application sub') :=
  .here (fun _ => rfl) fun start => (atom_keeps hs).first (t := false) fun target =>
    .remaining fun _ _ _ hn hb hb' => trailersAfter_keeps hs start (by omega) hb hb' target

/-- A power, from what stands after its base on. -/
def powerAfter (sub : Goal → Reader Node) (base : Node) : Reader Node := do
  if ← atMark .caret then
    let _ ← pass
    let exponent ← sub .factor
    return joined base .pow exponent
  else return base

theorem powerAfter_keeps (hs : Nests S size sub sub') (base : Node) :
    Keeps S size on known false (powerAfter sub base) (powerAfter sub' (moved S.move base)) := by
  refine .passMark (t := true) nofun nofun (fun _ => ?_) (.pure rfl)
  refine ((hs .factor _ _).mono (Nat.sub_le _ _) fun _ => id).first (t := false) fun exponent => ?_
  exact .pure (moved_joined base .pow exponent).symm

theorem power_keeps (hs : Nests S size sub sub') :
    Keeps S (size + 1) on known true (power sub) (power sub') :=
  (application_keeps hs).first (powerAfter_keeps hs)

theorem factor_keeps (hs : Nests S size sub sub') :
    Keeps S (size + 1) on known true (factor sub) (factor sub') := by
  refine .look (φ := id) (fun _ => rfl) nofun fun k _ => ?_
  simp only [id]
  cases hk : signOp? k with
  | none => exact power_keeps hs
  | some op =>
    refine .first (t := true) (.pass ?_) fun sign => ?_
    · rintro _ rfl rfl
      cases hk
    · exact (hs .factor _ _).first (t := false) fun operand => .node rfl rfl

theorem product_keeps (hs : Nests S size sub sub') :
    Keeps S (size + 1) on known true (product sub) (product sub') :=
  chain_keeps .product fun _ _ => factor_keeps hs

theorem sum_keeps (hs : Nests S size sub sub') :
    Keeps S (size + 1) on known true (sum sub) (sum sub') :=
  chain_keeps .sum fun _ _ => product_keeps hs

theorem comparison_keeps (hs : Nests S size sub sub') :
    Keeps S (size + 1) on known true (comparison sub) (comparison sub') := by
  refine .passKeyword (t := true) (fun word => ?_) (chain_keeps .comparison fun _ _ => sum_keeps hs)
  exact (hs .comparison _ _).first (t := false) fun operand => .node rfl rfl

/-! ## Assignments and statements -/

/-- The value of an assignment, from the equals sign on. -/
def assignAfter (sub : Goal → Reader Node) (start : Position) (name : String) (declare : Bool) :
    Reader Node := do
  let _ ← expectMark .equal
  let value ← sub .expression
  node start (.assign name value declare)

theorem assignAfter_keeps (hs : Nests S size sub sub') (start : Position) (name : String)
    (declare : Bool) :
    Keeps S size on true true (assignAfter sub start name declare)
      (assignAfter sub' (moved S.move start) name declare) :=
  (Keeps.expectMark (m := .equal) nofun).andThen (t := true) fun _ =>
    (hs .expression _ _).first (t := false) fun _ => .node rfl rfl

/-- A reader that passes an identifier before it fails. -/
def Starts (A : Reader Node) : Prop :=
  ∀ c m name, c.kind = .identifier name → A c = .error m → ∃ us, us ≠ [] ∧ c.After us m.cursor

theorem Starts.bind {A : Reader Node} {f : Node → Reader Node} {s : Bool} (hA : Starts A)
    (hadvances : ∀ c, Advances true c (A c)) (hf : ∀ x c, Advances s c (f x c)) :
    Starts (A >>= f) := by
  intro c m name hk h
  rcases bind_error.mp h with h | ⟨x, c₁, hx, h⟩
  · exact hA _ _ _ hk h
  · have hus := hadvances c
    have hvs := hf x c₁
    rw [hx] at hus
    rw [h] at hvs
    obtain ⟨us, ha, -, hstep⟩ := hus
    obtain ⟨vs, hb, -⟩ := hvs
    exact ⟨us ++ vs, by simp [hstep rfl], ha.trans hb⟩

theorem chain_starts (ch : Chain) {A B : Reader Node} (hA : Starts A)
    (hkeeps : ∀ known on, Keeps S size on known true A B) : Starts (chain ch.op? A) := by
  refine hA.bind (s := false) (hkeeps false _).goes fun first => ?_
  have hrest : Keeps S 0 (fun _ => True) false false
      (remaining >>= fun r => chainAfter ch.op? A r first)
      (remaining >>= fun r => chainAfter ch.op? B r (moved S.move first)) :=
    .remaining fun n b b' hn hb hb' => chainAfter_keeps ch hkeeps (by omega) hb hb' first
  exact hrest.goes

theorem atom_starts (sub : Goal → Reader Node) : Starts (atom sub) := by
  intro c m name hk h
  rw [atom, kind_bind, hk] at h
  cases h

theorem application_starts (hs : Nests S size sub sub') : Starts (application sub) := by
  intro c m name hk h
  rw [application, here_bind] at h
  have hatom : Keeps S (size + 1) (fun _ => True) false true _ _ := atom_keeps hs
  refine Starts.bind (s := false) (atom_starts sub) hatom.goes (fun target => ?_) _ _ _ hk h
  have hrest : Keeps S 0 (fun _ => True) false false
      (remaining >>= fun r => trailersAfter sub c.span.start r target)
      (remaining >>= fun r =>
        trailersAfter sub' (moved S.move c.span.start) r (moved S.move target)) :=
    .remaining fun _ _ _ hn hb hb' => trailersAfter_keeps hs _ (by omega) hb hb' target
  exact hrest.goes

theorem power_starts (hs : Nests S size sub sub') : Starts (power sub) := by
  have happlication : Keeps S (size + 1) (fun _ => True) false true _ _ := application_keeps hs
  refine Starts.bind (s := false) (application_starts hs) happlication.goes fun base => ?_
  have hrest : Keeps S size (fun _ => True) false false _ _ := powerAfter_keeps hs base
  exact hrest.goes

theorem factor_starts (hs : Nests S size sub sub') : Starts (factor sub) := by
  intro c m name hk h
  rw [factor, kind_bind, hk] at h
  exact power_starts hs _ _ _ hk h

theorem comparison_starts (hs : Nests S size sub sub') : Starts (comparison sub) := by
  intro c m name hk h
  rw [comparison, atKeyword_bind, hk] at h
  have hproduct : Starts (product sub) :=
    chain_starts .product (factor_starts hs) fun _ _ => factor_keeps hs
  have hsum : Starts (sum sub) := chain_starts .sum hproduct fun _ _ => product_keeps hs
  exact chain_starts .comparison hsum (fun _ _ => sum_keeps hs) _ _ _ hk h

theorem assigns_identifier (name : String) (us : List Token) :
    assigns (.identifier name :: kinds us) = (following us (.mark .stop)).isMark .equal := by
  cases us <;> rfl

/-- Whether an assignment comes next is told by two tokens. Where only one is in common and it is
an identifier, the reader passes it, whatever comes after. -/
theorem atAssignment_keeps {h h' : Bool → Reader Node}
    (hk : ∀ b, Keeps S size on known true (h b) (h' b)) (hstarts : ∀ b, Starts (h b)) :
    Keeps S size on known true (atAssignment >>= h) (atAssignment >>= h') := by
  have hsame {known : Bool} {ts : List Token} {c d : Cursor} (hbeside : S.Beside known ts c d)
      (hne : ts ≠ []) (hedge : ∀ t, ts = [t] → (∃ name, t.kind = .identifier name) → S.edge) :
      d.atAssignment = c.atAssignment := by
    rw [Cursor.atAssignment_eq, Cursor.atAssignment_eq, hbeside.left, hbeside.right]
    match ts, hne with
    | [⟨k, s⟩], _ =>
      cases k with
      | identifier name =>
        have he := hedge _ rfl ⟨name, rfl⟩
        show assigns (.identifier name :: kinds S.right) =
          assigns (.identifier name :: kinds S.left)
        rw [assigns_identifier, assigns_identifier, S.left_edge he, S.right_edge he]
        rfl
      | _ => rfl
    | ⟨k, s⟩ :: u :: ts, _ => cases k <;> rfl
  constructor
  · exact fun hon => (hk _).advances hon
  · intro ts c d x c' vs hbeside hts hon hx hrest hvs
    rw [atAssignment_bind] at hx ⊢
    have hadvances := (hk c.atAssignment).advances hon
    rw [hx] at hadvances
    obtain ⟨us, ha, -, hstep⟩ := hadvances
    have hsplit := hbeside.split ha hrest
    rw [hsame hbeside (by simp [hsplit, hstep rfl]) fun t ht _ => hvs ?_]
    · exact (hk _).ok hbeside hts hon hx hrest hvs
    · have hone := List.length_pos_of_ne_nil (hstep rfl)
      have hlen := congrArg List.length (ht.symm.trans hsplit)
      simp only [List.length_singleton, List.length_append] at hlen
      exact List.length_eq_zero_iff.mp (by omega)
  · intro ts c d m vs hbeside hts hon hm hrest hne
    rw [atAssignment_bind] at hm ⊢
    have hadvances := (hk c.atAssignment).advances hon
    rw [hm] at hadvances
    obtain ⟨us, ha, -⟩ := hadvances
    have hsplit := hbeside.split ha hrest
    rw [hsame hbeside (by simp [hsplit, hne]) fun t ht hname => ?_]
    · exact (hk _).error hbeside hts hon hm hrest hne
    · obtain ⟨name, hname⟩ := hname
      have hkind : c.kind = .identifier name := by
        rw [Cursor.kind_eq, hbeside.left, ht]
        exact hname
      obtain ⟨us, hus, ha⟩ := hstarts _ _ _ _ hkind hm
      have hone := List.length_pos_of_ne_nil hus
      have htwo := List.length_pos_of_ne_nil hne
      have hlen := congrArg List.length (ht.symm.trans (hbeside.split ha hrest))
      simp only [List.length_singleton, List.length_append] at hlen
      omega

theorem expression_keeps (hs : Nests S size sub sub') :
    Keeps S (size + 1) on known true (expression sub) (expression sub') := by
  rw [expression_eq, expression_eq]
  refine .here (fun _ => rfl) fun start => ?_
  refine .passKeyword (t := true) (fun _ => ?_) (atAssignment_keeps (fun b => ?_) fun b => ?_)
  · exact Keeps.identifier.andThen (t := true) fun ⟨name, _⟩ => assignAfter_keeps hs start name true
  · refine .ite (fun _ => ?_) fun _ => chain_keeps .logic fun _ _ => comparison_keeps hs
    exact Keeps.identifier.first (t := true) fun ⟨name, _⟩ => assignAfter_keeps hs start name false
  · cases b with
    | false => exact chain_starts .logic (comparison_starts hs) fun _ _ => comparison_keeps hs
    | true =>
      intro c m name hk h
      have hrest : Keeps S size (fun _ => True) true true _ _ :=
        assignAfter_keeps hs start name false
      have hadvances := hrest.goes c.next
      have hrun : assignAfter sub start name false c.next = .error m :=
        (identifier_bind hk fun x => assignAfter sub start x.1 false).symm.trans h
      rw [hrun] at hadvances
      obtain ⟨us, hb, -⟩ := hadvances
      obtain ⟨t, -, -, ha⟩ := Cursor.after_next (c := c) (by simp [hk])
      exact ⟨[t] ++ us, by simp, ha.trans hb⟩

theorem statement_keeps (hs : Nests S size sub sub') :
    Keeps S (size + 1) on known true (statement sub) (statement sub') := by
  refine .here (fun _ => rfl) fun start => ?_
  refine .passKeyword (t := false) (fun _ => ?_) (.passKeyword (t := false) (fun _ => ?_)
    (.passKeyword (t := false) (fun _ => ?_) (expression_keeps hs)))
  · refine .look (φ := id) (fun _ => rfl) (fun _ _ => rfl) fun k _ => ?_
    refine .ite (fun _ => .less (s := true) ?_ nofun) fun _ => .node rfl rfl
    exact (hs .expression _ _).first (t := false) fun value => .node rfl rfl
  · exact .node rfl rfl
  · exact .node rfl rfl

/-! ## All levels of nesting -/

theorem Level.reader_keeps (hs : Nests S size sub sub') :
    ∀ level : Level, Keeps S (size + 1) on known true (level.reader sub) (level.reader sub')
  | .atom => atom_keeps hs
  | .application => application_keeps hs
  | .power => power_keeps hs
  | .factor => factor_keeps hs
  | .product => product_keeps hs
  | .sum => sum_keeps hs
  | .comparison => comparison_keeps hs
  | .expression => expression_keeps hs
  | .statement => statement_keeps hs

theorem produce_keeps (hs : Nests S size sub sub') : Nests S (size + 1) (produce sub) (produce sub')
  | .statement, _, _ => statement_keeps hs
  | .expression, _, _ => expression_keeps hs
  | .comparison, _, _ => comparison_keeps hs
  | .factor, _, _ => factor_keeps hs

/-- Readers with more levels of nesting than tokens in common read alike. -/
theorem reader_keeps {depth depth' : Nat} (hd : size ≤ depth) (hd' : size ≤ depth') :
    Nests S size (reader depth) (reader depth') := by
  induction depth generalizing size depth' with
  | zero =>
    obtain rfl := Nat.le_zero.mp hd
    exact fun goal known on => .ofZero fun c _ => ⟨[], .refl c, List.forall_mem_nil _⟩
  | succ depth ih =>
    cases depth' with
    | zero =>
      obtain rfl := Nat.le_zero.mp hd'
      have hone := produce_keeps (ih (Nat.zero_le depth) (Nat.zero_le 0))
      exact fun goal known on => .ofZero fun c hon => (hone goal known on).advances hon
    | succ depth' =>
      have hless := ih (show size - 1 ≤ depth by omega) (show size - 1 ≤ depth' by omega)
      have hmore := produce_keeps hless
      exact hmore.mono (by omega)

/-! ## Programs -/

/-- The program from a cursor on, read with a reader for what it nests. -/
def programWith (sub : Goal → Reader Node) : Reader Program := do
  let start ← here
  let body ← statements sub []
  if ← atMark .stop then
    let stop : Span ← fun c => .ok (c.span, c)
    return ⟨body, ⟨start, stop.stop⟩⟩
  else fail .operatorOrEnd

theorem program_eq (c : Cursor) : program c = programWith (reader (c.rest.length + 1)) c := by
  simp only [program, programWith, here_bind, remaining_bind]

theorem statements_keeps (hS : ¬ S.edge) (hs : Nests S size sub sub') (close : List Keyword) :
    Keeps S size on true false (statements sub close) (statements sub' close) := by
  refine (Keeps.skipSeparators (s := false) hS nofun).andThen fun _ => ?_
  refine .remaining fun n b b' hn hb hb' => ?_
  exact statementsUntil_keeps hS hs hn (by omega) (by omega)

theorem programWith_keeps (hS : ¬ S.edge) (hs : Nests S size sub sub') :
    Keeps S size on true false (programWith sub) (programWith sub') := by
  refine .here (fun he => absurd he hS) fun start => ?_
  refine (statements_keeps hS hs []).andThen fun body => ?_
  refine .look (φ := fun k => k.isMark .stop) (fun _ => rfl) (fun he => absurd he hS) fun k _ => ?_
  refine .ite (fun _ => ?_) fun _ => .fail
  refine .peek (v := Cursor.span) (fun _ => rfl)
    (fun c _ => ⟨[], .refl c, List.forall_mem_nil _, nofun⟩) fun {ts c d} hbeside _ _ hnil => ?_
  rw [hbeside.span fun h => hS (hnil h).1]
  exact .pure rfl

end Grammar

end Scriptlet

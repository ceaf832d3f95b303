import Scriptlet.Proofs.Grammar.Viable.Bodies
import Scriptlet.Proofs.Grammar.Spans

/-!
# Productions that can be completed

Wherever a production fails, brackets that are open can be closed, operators
can be given an operand, and words what comes after them.
-/

set_option autoImplicit false

namespace Scriptlet

open Token (Kind)

namespace Grammar

open Reader

variable {level : Level} {on : Kind → Prop} {sub : Goal → Reader Node}

theorem viable_completes (level : Level) : ∃ ts n, Reads (.node level n) ts (.mark .stop) :=
  ⟨_, literal_reads level⟩

/-! ## Atoms -/

section

variable (hs : ∀ goal, Sound goal.level (sub goal)) (hv : ∀ goal, Viable goal.level (sub goal))

include hs hv

theorem parenthesised_viable : Viable .atom (parenthesised sub) := by
  refine .expectMark nofun fun o ho => ?_
  refine (hv .expression).bind (hs .expression) fun inner ts k h => ?_
  refine .expectMark nofun fun p hp => .never ?_ fun c _ => ⟨_, rfl⟩
  exact ⟨[], _, .parens ho (hp ▸ h.endsAt .rightParen) hp⟩

theorem list_viable : Viable .atom (list sub) := by
  refine .expectMark nofun fun o ho => ?_
  refine ((items_viable (hs .expression) (hv .expression) .rightSquare nofun).imp
    fun ts h => ?_).tail fun items c => ⟨_, rfl⟩
  obtain ⟨ns, us, p, rfl, hp, h⟩ := h
  exact ⟨_, .list ho h hp⟩

theorem ifElse_viable : Viable .atom (ifElse sub) := by
  refine .expectKeyword fun w hw => ?_
  have hbranches (bound : Nat) : Resumes (fun _ => True)
      (fun ts => ∃ n, Reads (.node .atom n) (w :: ts) (.mark .stop)) (branches sub bound) :=
    (branches_viable hs hv bound).imp fun ts ⟨bs, otherwise, h⟩ => ⟨_, .ifElse hw h⟩
  exact .still (v := fun c => c.rest.length) (fun _ => rfl) (hbranches 0).completes fun bound =>
    (hbranches bound).tail fun x c => ⟨_, rfl⟩

omit hs in
theorem stepClause_viable {k : Kind} : Resumes (· = k)
    (fun ts => ∃ s l, Reads (.step s) ts l ∧ k = following ts l) (stepClause sub) := by
  by_cases hk : k = .keyword .step
  · subst hk
    refine .look (φ := fun k => k.isKeyword .step) (fun _ => rfl) ?_ fun k hk => ?_
    · obtain ⟨s, h⟩ := literal_reads .expression
      exact ⟨ofKind (.keyword .step) :: _, some s, _, .step rfl h, rfl⟩
    obtain rfl := hk
    refine .pass nofun fun w hw => ?_
    refine Resumes.tail ((hv .expression).last fun s ts h => ?_) fun s c => ⟨_, rfl⟩
    exact ⟨some s, _, .step hw h, hw.symm⟩
  · refine .never ⟨[], none, k, .noStep hk, rfl⟩ fun c hc => ?_
    refine ⟨(none, c), ?_⟩
    rw [stepClause, atKeyword_bind, if_neg fun h => hk (hc ▸ Kind.isKeyword_iff.mp h)]
    rfl

theorem forTo_viable : Viable .atom (forTo sub) := by
  show Resumes _ _ _
  rw [forTo_eq]
  refine .expectKeyword fun w hw => .identifier fun v name hv' => .expectMark nofun fun q hq => ?_
  refine (hv .expression).bind (hs .expression) fun first ts₁ k₁ h₁ => ?_
  refine .expectKeyword fun u hu => ?_
  refine (hv .expression).bind (hs .expression) fun limit ts₂ k₂ h₂ => ?_
  refine .bind (P := fun s ts l => Reads (.step s) ts l ∧ k₂ = following ts l)
    (stepClause_viable hv) (fun c s c' hk h => ?_) fun s ts₃ k₃ h₃ => ?_
  · obtain ⟨ts, ha, hr⟩ := stepClause_sound hs h
    exact ⟨ts, ha, hr, hk ▸ ha.kind⟩
  obtain ⟨h₃, rfl⟩ := h₃
  refine .expectKeyword fun t ht => ?_
  refine ((body_viable hs hv t.span.stop).imp fun ts₄ h => ?_).tail fun inner c => ⟨_, rfl⟩
  obtain ⟨inner, h₄⟩ := h
  exact ⟨_, .forTo hw hv' hq (hu ▸ h₁.endsAt .to) hu (ht ▸ h₂.beforeRest (h₂.endsAt .then))
    (ht ▸ h₃.endsAt .then) ht h₄⟩

theorem whileDo_viable : Viable .atom (whileDo sub) := by
  refine .expectKeyword fun w hw => ?_
  refine (hv .expression).bind (hs .expression) fun test ts k h₁ => ?_
  refine .expectKeyword fun t ht => ?_
  refine ((body_viable hs hv t.span.stop).imp fun us h => ?_).tail fun inner c => ⟨_, rfl⟩
  obtain ⟨inner, h₂⟩ := h
  exact ⟨_, .whileDo hw (ht ▸ h₁.endsAt .then) ht h₂⟩

theorem routine_viable (opened : Position) :
    Resumes on (fun ts => ∃ n, Reads (.routine opened n) ts (.mark .stop)) (routine sub) := by
  have hsome : ∃ ts n, Reads (.routine opened n) ts (.mark .stop) := by
    obtain ⟨n, h⟩ := literal_reads .expression
    exact ⟨ofKind (.mark .arrow) :: _, n, .arrow rfl h⟩
  refine .look (φ := fun k => k.isMark .arrow) (fun _ => rfl) hsome fun k _ => ?_
  refine .look (φ := fun k => k.isMark .separator) (fun _ => rfl) hsome fun k hk => ?_
  obtain rfl := hk
  refine .ite (fun harrow => ?_) fun _ => .ite (fun hsep => ?_) fun _ => .fail hsome
  · obtain rfl := Kind.isMark_iff.mp harrow
    exact .pass nofun fun a ha => (hv .expression).last fun n ts h => ⟨n, .arrow ha h⟩
  · obtain rfl := Kind.isMark_iff.mp hsep
    refine (closedBlock_viable hs hv opened).imp fun ts h => ?_
    obtain ⟨us, e, rfl, he, n, h⟩ := h
    exact ⟨n, .routine h he⟩

omit hs hv in
theorem functionName_viable :
    Resumes on (fun ts => ∃ name, ∃ (_ : Kind), Named name ts) functionName := by
  have hnone : ∃ ts name, ∃ (_ : Kind), Named name ts := ⟨[], none, .mark .stop, .none⟩
  refine .look (φ := id) (fun _ => rfl) hnone fun k _ => ?_
  cases k with
  | identifier name => exact .never hnone fun c _ => ⟨_, rfl⟩
  | mark m => cases m <;> first | exact .pure hnone | exact .fail hnone
  | _ => exact .fail hnone

theorem function_viable : Viable .atom (function sub) := by
  show Resumes _ _ _
  rw [function_eq]
  refine .expectKeyword fun w hw => ?_
  refine .bind (P := fun name ts _ => Named name ts) functionName_viable
    (fun c name c' _ => functionName_sound) fun name names _ hn => ?_
  refine .expectMark nofun fun o ho => ?_
  refine .bind (P := fun ps ts _ => ∃ us p, ts = us ++ [p] ∧ p.kind = .mark .rightParen ∧
    Params ps us) (params_viable.imp fun ts ⟨ps, h⟩ => ⟨ps, .mark .stop, h⟩)
    (fun c ps c' _ h => ?_) fun ps ts _ h => ?_
  · obtain ⟨us, p, hp, ha, h⟩ := params_sound h
    exact ⟨_, ha, us, p, rfl, hp, h⟩
  obtain ⟨us, p, rfl, hp, hps⟩ := h
  refine ((routine_viable hs hv p.span.stop).imp fun vs h => ?_).tail fun inner c => ⟨_, rfl⟩
  obtain ⟨n, h⟩ := h
  have hread := Reads.function hw hn ho hps hp h
  exact ⟨_, by simpa using hread⟩

theorem atom_viable : Viable .atom (atom sub) := by
  have hsome := viable_completes .atom
  refine .look (φ := id) (fun _ => rfl) hsome fun k _ => ?_
  cases k with
  | int | float | text | identifier => exact .never hsome fun c _ => ⟨_, rfl⟩
  | mark m =>
    cases m with
    | leftParen => exact (parenthesised_viable hs hv).mono fun _ _ => trivial
    | leftSquare => exact (list_viable hs hv).mono fun _ _ => trivial
    | _ => exact .fail hsome
  | keyword w =>
    cases w with
    | «if» => exact (ifElse_viable hs hv).mono fun _ _ => trivial
    | «for» => exact (forTo_viable hs hv).mono fun _ _ => trivial
    | «while» => exact (whileDo_viable hs hv).mono fun _ _ => trivial
    | «fun» => exact (function_viable hs hv).mono fun _ _ => trivial
    | _ => exact .fail hsome

end

/-! ## Operators -/

theorem chainAfter_viable {ch : Chain} {operand : Reader Node} (hs : Sound ch.operand operand)
    (hv : Viable ch.operand operand) {left : Node} {ts : List Token} {k : Kind}
    (h : Reads (.operands ch left) ts k) (bound : Nat) (seen : Node) :
    Resumes (· = k) (fun us => ∃ n, Reads (.node ch.level n) (ts ++ us) (.mark .stop))
      (chainAfter ch.op? operand bound seen) := by
  have hdone {left : Node} {ts : List Token} {k : Kind} (h : Reads (.operands ch left) ts k) :
      ∃ us n, Reads (.node ch.level n) (ts ++ us) (.mark .stop) :=
    ⟨[], left, by rw [List.append_nil]; exact .ofChain ch .stop (h.endsAt .stop)⟩
  induction bound generalizing left ts k seen with
  | zero => exact .pure (hdone h)
  | succ bound ih =>
    refine .look (φ := id) (fun _ => rfl) (hdone h) fun l hl => ?_
    obtain rfl := hl
    simp only [id]
    cases hop : ch.op? l with
    | none => exact .pure (hdone h)
    | some op =>
      have hstop : l ≠ .mark .stop := by
        rintro rfl
        cases ch.op?_stop.symm.trans hop
      refine .pass hstop fun o ho => ?_
      refine hv.bind hs fun right us l hr => ?_
      have hrest := ih (.joined (ho ▸ h) (ho ▸ hop) hr) (joined seen op right)
      simpa only [List.append_assoc, List.cons_append] using hrest

theorem chain_viable (ch : Chain) {operand : Reader Node} (hs : Sound ch.operand operand)
    (hv : Viable ch.operand operand) : Viable ch.level (chain ch.op? operand) := by
  refine hv.bind hs fun first ts k h => ?_
  have hafter (bound : Nat) := chainAfter_viable hs hv (.first h) bound first
  exact .still (v := fun c => c.rest.length) (fun _ => rfl) (hafter 0).completes hafter

section

variable (hs : ∀ goal, Sound goal.level (sub goal)) (hv : ∀ goal, Viable goal.level (sub goal))

include hs hv

theorem trailersAfter_viable {start : Position} {target : Node} {ts : List Token} {k : Kind}
    (h : Reads (.applied start target) ts k) (begun : Position) (bound : Nat) (seen : Node) :
    Resumes (· = k) (fun us => ∃ n, Reads (.applied start n) (ts ++ us) (.mark .stop))
      (trailersAfter sub begun bound seen) := by
  have hdone {target : Node} {ts : List Token} {k : Kind} (h : Reads (.applied start target) ts k) :
      ∃ us n, Reads (.applied start n) (ts ++ us) (.mark .stop) :=
    ⟨[], target, by rw [List.append_nil]; exact h.endsAt .stop⟩
  induction bound generalizing target ts k seen with
  | zero => exact .pure (hdone h)
  | succ bound ih =>
    refine .passMark nofun (fun hk o ho => ?_)
      (.passMark nofun (fun hk o ho => ?_) (.pure (hdone h)))
    · obtain rfl := hk
      refine .bind (P := fun args ts _ => ∃ us p, ts = us ++ [p] ∧ p.kind = .mark .rightParen ∧
        Reads (.items args) us p.kind) ?_ (fun c args c' _ h => ?_) fun args us l hargs => ?_
      · exact (items_viable (hs .expression) (hv .expression) .rightParen nofun).imp
          fun ts ⟨args, h⟩ => ⟨args, .mark .stop, h⟩
      · obtain ⟨us, p, hp, ha, hr⟩ := items_sound hs (by simp) h
        exact ⟨_, ha, us, p, rfl, hp, hr⟩
      · obtain ⟨us, p, rfl, hp, hargs⟩ := hargs
        have hrest := ih (.call (k := l) (ho ▸ h) ho hargs hp)
        simp only [List.append_assoc, List.cons_append, List.nil_append] at hrest ⊢
        exact .still (v := fun c => .mk (.call seen args) ⟨begun, c.lastEnd⟩) (fun _ => rfl)
          (hrest seen).completes hrest
    · obtain rfl := hk
      refine (hv .expression).bind (hs .expression) fun place us l hplace => ?_
      refine .expectMark nofun fun p hp => ?_
      have hindex (k : Kind) := Reads.index (k := k) (ho ▸ h) ho
        (hp ▸ hplace.endsAt .rightSquare) hp
      have hrest (x : Node) : Resumes (fun _ => True) (fun vs => ∃ n, Reads (.applied start n)
          ((ts ++ o :: (us ++ [p])) ++ vs) (.mark .stop)) (trailersAfter sub begun bound x) :=
        .ofKinds (fun l _ => ih (hindex l) x) (hdone (hindex l))
      simp only [List.append_assoc, List.cons_append, List.nil_append] at hrest ⊢
      exact .still (v := fun c => .mk (.index seen place) ⟨begun, c.lastEnd⟩) (fun _ => rfl)
        (hrest seen).completes hrest

theorem application_viable : Viable .application (application sub) := by
  have hfrom (p : Position) : Resumes (fun _ => True)
      (fun ts => ∃ n, Reads (.node .application n) ts (.mark .stop)) (do
        let target ← atom sub
        trailersAfter sub p (← remaining) target) := by
    refine (atom_viable hs hv).bind (atom_sound hs) fun target ts k h => ?_
    have hafter (bound : Nat) : Resumes (· = k)
        (fun us => ∃ n, Reads (.node .application n) (ts ++ us) (.mark .stop))
        (trailersAfter sub p bound target) := by
      have hbegun : Reads (.applied (covering ts).start target) ts k := .target h
      refine (trailersAfter_viable hs hv hbegun p bound target).imp fun us h' => ?_
      obtain ⟨n, h'⟩ := h'
      rw [← covering_start_append h.ne_nil us] at h'
      exact ⟨n, .application h' nofun nofun⟩
    exact .still (v := fun c => c.rest.length) (fun _ => rfl) (hafter 0).completes hafter
  exact .still (v := fun c => c.span.start) (fun _ => rfl) (hfrom .origin).completes hfrom

theorem power_viable : Viable .power (power sub) := by
  refine (application_viable hs hv).bind (application_sound hs) fun base ts k h => ?_
  have hdone : ∃ us n, Reads (.node .power n) (ts ++ us) (.mark .stop) :=
    ⟨[], base, by rw [List.append_nil]; exact .base (h.endsAt .stop) nofun⟩
  refine .passMark nofun (fun hk o ho => ?_) (.pure hdone)
  obtain rfl := hk
  refine Resumes.tail ((hv .factor).last fun x us hx => ?_) fun x c => ⟨_, rfl⟩
  exact ⟨_, .power (ho ▸ h) ho hx⟩

theorem factor_viable : Viable .factor (factor sub) := by
  refine .look (φ := id) (fun _ => rfl) (viable_completes .factor) fun k _ => ?_
  simp only [id]
  cases hk : signOp? k with
  | none => exact (power_viable hs hv).last fun n ts h => ⟨n, .unsigned h⟩
  | some op =>
    have hstop : k ≠ .mark .stop := by
      rintro rfl
      cases hk
    refine .pass hstop fun s hsign => Resumes.tail ((hv .factor).last fun x ts h => ?_)
      fun x c => ⟨_, rfl⟩
    exact ⟨_, .signed (hsign ▸ hk) h⟩

theorem product_viable : Viable .product (product sub) :=
  chain_viable .product (factor_sound hs) (factor_viable hs hv)

theorem sum_viable : Viable .sum (sum sub) :=
  chain_viable .sum (product_sound hs) (product_viable hs hv)

theorem comparison_viable : Viable .comparison (comparison sub) := by
  refine .passKeyword (fun _ w hw => ?_)
    (chain_viable .comparison (sum_sound hs) (sum_viable hs hv))
  refine Resumes.tail ((hv .comparison).last fun x ts h => ?_) fun x c => ⟨_, rfl⟩
  exact ⟨_, .not hw h⟩

/-! ## Assignments and statements -/

theorem expression_viable : Viable .expression (expression sub) := by
  show Resumes _ _ _
  rw [expression_eq]
  refine .still (v := fun c => c.span.start) (fun _ => rfl) (viable_completes .expression)
    fun start => ?_
  refine .passKeyword (fun _ w hw => ?_) ?_
  · refine .identifier fun v name hname => .expectMark nofun fun q hq => ?_
    refine Resumes.tail ((hv .expression).last fun x ts h => ?_) fun x c => ⟨_, rfl⟩
    exact ⟨_, .declare hw hname hq h⟩
  refine .still (v := Cursor.atAssignment) (fun _ => rfl) (viable_completes .expression) fun b => ?_
  refine .ite (fun _ => ?_) fun _ =>
    (chain_viable .logic (comparison_sound hs) (comparison_viable hs hv)).mono fun _ _ => trivial
  refine .identifier fun v name hname => .expectMark nofun fun q hq => ?_
  refine Resumes.tail ((hv .expression).last fun x ts h => ?_) fun x c => ⟨_, rfl⟩
  exact ⟨_, .rebind hname hq h⟩

theorem statement_viable : Viable .statement (statement sub) := by
  have hsome := viable_completes .statement
  refine .still (v := fun c => c.span.start) (fun _ => rfl) hsome fun start => ?_
  refine .passKeyword (fun _ w hw => ?_) ?_
  · have hnothing : ∃ ts n, Reads (.node .statement n) (w :: ts) (.mark .stop) :=
      ⟨[], _, .returnNothing hw rfl⟩
    refine .look (φ := id) (fun _ => rfl) hnothing fun k _ => ?_
    refine .ite (fun _ => ?_) fun _ => .never hnothing fun c _ => ⟨_, rfl⟩
    refine Resumes.tail ((hv .expression).last fun x ts h => ?_) fun x c => ⟨_, rfl⟩
    exact ⟨_, .returnValue hw h⟩
  refine .look (φ := fun k => k.isKeyword .continue) (fun _ => rfl) hsome fun k _ => ?_
  refine .ite (fun _ => .never hsome fun c _ => ⟨_, rfl⟩) fun _ => ?_
  refine .look (φ := fun k => k.isKeyword .break) (fun _ => rfl) hsome fun k _ => ?_
  refine .ite (fun _ => .never hsome fun c _ => ⟨_, rfl⟩) fun _ => ?_
  exact (expression_viable hs hv).last fun n ts h => ⟨n, .expression h⟩

end

/-! ## Programs -/

theorem reader_viable (depth : Nat) (goal : Goal) : Viable goal.level (reader depth goal) := by
  induction depth generalizing goal with
  | zero => exact .fail (viable_completes goal.level)
  | succ depth ih =>
    rw [reader_succ]
    have hs := reader_sound depth
    cases goal with
    | statement => exact statement_viable hs ih
    | expression => exact expression_viable hs ih
    | comparison => exact comparison_viable hs ih
    | factor => exact factor_viable hs ih

end Grammar

end Scriptlet

import Scriptlet.Proofs.Grammar.Viable

/-!
# Items and bodies that can be completed

What is open where a reader of items or of a body fails is closed with a
bracket, with `END`, or with a condition and what is done under it.
-/

set_option autoImplicit false

namespace Scriptlet

open Token (Kind)

namespace Grammar

open Reader

/-- Where the reader fails it has passed the first tokens of a node of the level. -/
def Viable (level : Level) (A : Reader Node) : Prop :=
  Resumes (fun _ => True) (fun ts => ∃ n, Reads (.node level n) ts (.mark .stop)) A

variable {level : Level} {on : Kind → Prop} {Q : List Token → Prop} {sub : Goal → Reader Node}

theorem Viable.bind {α : Type} {A : Reader Node} {f : Node → Reader α} (hv : Viable level A)
    (hs : Sound level A)
    (hf : ∀ n ts k, Reads (.node level n) ts k → Resumes (· = k) (fun us => Q (ts ++ us)) (f n)) :
    Resumes on Q (A >>= f) := by
  refine .bind (P := fun n ts k => Reads (.node level n) ts k) ?_ (fun c n c' _ => hs c n c') hf
  exact (Resumes.imp hv fun ts ⟨n, h⟩ => ⟨n, _, h⟩).mono fun _ _ => trivial

/-- What ends with a node ends where the text may. -/
theorem Viable.last {A : Reader Node} (hv : Viable level A)
    (hQ : ∀ n ts, Reads (.node level n) ts (.mark .stop) → Q ts) : Resumes on Q A :=
  (Resumes.imp hv fun ts ⟨n, h⟩ => hQ n ts h).mono fun _ _ => trivial

/-- A literal is a node of every level. -/
theorem literal_reads (level : Level) :
    ∃ n, Reads (.node level n) [ofKind (.int 0)] (.mark .stop) := by
  let n : Node := .mk (.int 0) (ofKind (.int 0)).span
  have atom : Reads (.node .atom n) [ofKind (.int 0)] (.mark .stop) := .literal rfl
  have power : Reads (.node .power n) [ofKind (.int 0)] (.mark .stop) := .base atom.ofAtom nofun
  have factor : Reads (.node .factor n) [ofKind (.int 0)] (.mark .stop) := .unsigned power
  have comparison := factor.ofFactor.ofProduct.ofSum
  refine ⟨n, ?_⟩
  cases level with
  | atom => exact atom
  | application => exact atom.ofAtom
  | power => exact power
  | factor => exact factor
  | product => exact factor.ofFactor
  | sum => exact factor.ofFactor.ofProduct
  | comparison => exact comparison
  | expression => exact comparison.ofComparison
  | statement => exact .expression comparison.ofComparison

/-! ## Items -/

section

variable {α : Type} {item : Reader α} {P : α → List Token → Kind → Prop}
  {F R : List α → List Token → Kind → Prop} {close : Mark}

theorem itemsAfter_viable
    (hitem : ∀ c x c', item c = .ok (x, c') → ∃ ts, c.After ts c' ∧ P x ts c'.kind)
    (hviable : Resumes (fun _ => True) (fun ts => ∃ x k, P x ts k) item)
    (hnone : F [] [] (.mark close))
    (hmore : ∀ t x xs ts us k, t.kind = .mark .comma → P x ts k → F xs us (.mark close) →
      F (x :: xs) (t :: (ts ++ us)) (.mark close)) (bound : Nat) :
    Resumes on (fun ts => ∃ xs, F xs ts (.mark close)) (itemsAfter item bound) := by
  induction bound generalizing on with
  | zero => exact .pure ⟨[], [], hnone⟩
  | succ bound ih =>
    refine .passMark nofun (fun _ t ht => ?_) (.pure ⟨[], [], hnone⟩)
    refine .bind (hviable.mono fun _ _ => trivial) (fun c x c' _ => hitem c x c')
      fun x ts k hx => ?_
    refine (Resumes.imp ih fun us h => ?_).tail fun xs c => ⟨_, rfl⟩
    obtain ⟨xs, h⟩ := h
    exact ⟨x :: xs, hmore t x xs ts us k ht hx h⟩

theorem itemsBefore_viable
    (hitem : ∀ c x c', item c = .ok (x, c') → ∃ ts, c.After ts c' ∧ P x ts c'.kind)
    (hviable : Resumes (fun _ => True) (fun ts => ∃ x k, P x ts k) item)
    (hnone : F [] [] (.mark close))
    (hmore : ∀ t x xs ts us k, t.kind = .mark .comma → P x ts k → F xs us (.mark close) →
      F (x :: xs) (t :: (ts ++ us)) (.mark close))
    (hempty : R [] [] (.mark close))
    (hfirst : ∀ x xs ts us k, P x ts k → F xs us (.mark close) →
      R (x :: xs) (ts ++ us) (.mark close)) :
    Resumes on (fun ts => ∃ xs, R xs ts (.mark close)) (itemsBefore close item) := by
  refine .look (φ := fun k => k.isMark close) (fun _ => rfl) ⟨[], [], hempty⟩ fun k _ => ?_
  refine .ite (fun _ => .pure ⟨[], [], hempty⟩) fun _ => ?_
  refine .bind (hviable.mono fun _ _ => trivial) (fun c x c' _ => hitem c x c') fun x ts k hx => ?_
  have hrest (bound : Nat) : Resumes (· = k) (fun us => ∃ xs, R xs (ts ++ us) (.mark close))
      (do let xs ← itemsAfter item bound; return x :: xs) := by
    refine (Resumes.imp (itemsAfter_viable hitem hviable hnone hmore bound) fun us h => ?_).tail
      fun xs c => ⟨_, rfl⟩
    obtain ⟨xs, h⟩ := h
    exact ⟨x :: xs, hfirst x xs ts us k hx h⟩
  exact .still (v := fun c => c.rest.length) (fun _ => rfl) (hrest 0).completes hrest

/-- What is read of items is closed where the reader fails. -/
theorem itemsUntil_viable
    (hbefore : ∀ c xs c', itemsBefore close item c = .ok (xs, c') →
      ∃ ts, c.After ts c' ∧ R xs ts c'.kind)
    (hviable : Resumes (fun _ => True) (fun ts => ∃ xs, R xs ts (.mark close))
      (itemsBefore close item))
    (hR : ∀ xs ts k, R xs ts k → R xs ts (.mark close)) :
    Resumes on (fun ts => ∃ xs us p, ts = us ++ [p] ∧ p.kind = .mark close ∧ R xs us p.kind)
      (itemsUntil close item) := by
  rw [itemsUntil_eq]
  refine .bind (P := R) ?_ (fun c xs c' _ => hbefore c xs c') fun xs ts k h => ?_
  · exact (hviable.imp fun ts ⟨xs, h⟩ => ⟨xs, _, h⟩).mono fun _ _ => trivial
  · have hdone : ∃ us xs vs p, ts ++ us = vs ++ [p] ∧ p.kind = .mark close ∧ R xs vs p.kind :=
      ⟨[ofKind (.mark close)], xs, ts, _, rfl, rfl, hR xs ts k h⟩
    refine .look (φ := fun k => k.isMark close) (fun _ => rfl) hdone fun k _ => ?_
    exact .ite (fun _ => .never hdone fun c _ => ⟨_, rfl⟩) fun _ => .fail hdone

end

/-- Between two expressions of a row comes a comma. -/
theorem Reads.beforeFurther {x : Node} {ns : List Node} {ts us : List Token} {k k' : Kind}
    (h : Reads (.node .expression x) ts k) (hr : Reads (.further ns) us k') (hk' : Delimits k') :
    Reads (.node .expression x) ts (following us k') := by
  generalize hp : Phrase.further ns = p at hr
  cases hr with
  | noFurther _ => exact h.endsAt hk'
  | further hc _ _ =>
    have hcomma : Reads (.node .expression x) ts (.mark .comma) := h.endsAt .comma
    rw [← hc] at hcomma
    exact hcomma
  | _ => cases hp

theorem items_viable (hs : Sound .expression (sub .expression))
    (hv : Viable .expression (sub .expression)) {close : Mark} (hclose : Delimits (.mark close))
    (hcomma : close ≠ .comma) :
    Resumes on (fun ts => ∃ ns us p, ts = us ++ [p] ∧ p.kind = .mark close ∧
      Reads (.items ns) us p.kind) (itemsUntil close (sub .expression)) := by
  have hk : Kind.mark close ≠ .mark .comma := by simpa using hcomma
  have hexpression : Resumes (fun _ => True)
      (fun ts => ∃ x k, Reads (.node .expression x) ts k) (sub .expression) :=
    hv.last fun n ts h => ⟨n, _, h⟩
  have hsound (c : Cursor) (ns : List Node) (c' : Cursor)
      (h : itemsBefore close (sub .expression) c = .ok (ns, c')) :
      ∃ ts, c.After ts c' ∧ Reads (.items ns) ts c'.kind :=
    itemsBefore_sound (P := fun x => Reads (.node .expression x))
      (Q := fun xs => Reads (.further xs)) (R := fun xs => Reads (.items xs)) hs
      (fun _ => .noFurther) (fun _ _ _ _ _ _ => .further) (fun _ => .noItems)
      (fun _ _ _ _ _ => .items) h
  refine itemsUntil_viable hsound (itemsBefore_viable (F := fun xs => Reads (.further xs)) hs
    hexpression (.noFurther hk) ?_ .noItems ?_) fun xs ts k h => h.endsAt hclose hk
  · exact fun t x xs ts us k ht hx hr => .further ht (hx.beforeFurther hr hclose) hr
  · exact fun x xs ts us k hx hr => .items (hx.beforeFurther hr hclose) hr

theorem params_viable : Resumes on (fun ts => ∃ ps us p, ts = us ++ [p] ∧
    p.kind = .mark .rightParen ∧ Params ps us) (itemsUntil .rightParen param) := by
  have hparam : Resumes (fun _ => True) (fun ts => ∃ p, ∃ (_ : Kind), ReadsParam p ts) param := by
    refine .identifier fun t name ht => .pure ?_
    exact ⟨[], ⟨name, t.span⟩, .mark .stop, t, name, ht, rfl, rfl⟩
  have hsound (c : Cursor) (ps : List Param) (c' : Cursor)
      (h : itemsBefore .rightParen param c = .ok (ps, c')) :
      ∃ ts, c.After ts c' ∧ Params ps ts :=
    itemsBefore_sound (P := fun p ts _ => ReadsParam p ts) (Q := fun ps ts _ => FurtherParams ps ts)
      (R := fun ps ts _ => Params ps ts) (fun _ _ _ => param_sound)
      (fun _ _ => .nil) (fun _ _ _ _ _ _ hc hp hr => hp.further hc hr) (fun _ => .nil)
      (fun _ _ _ _ _ hp hr => hp.params hr) h
  exact itemsUntil_viable (R := fun ps ts _ => Params ps ts) hsound
    (itemsBefore_viable (P := fun p ts _ => ReadsParam p ts)
      (F := fun ps ts _ => FurtherParams ps ts) (R := fun ps ts _ => Params ps ts)
      (fun _ _ _ => param_sound) hparam FurtherParams.nil
      (fun _ _ _ _ _ _ hc hp hr => hp.further hc hr) Params.nil
      fun _ _ _ _ _ hp hr => hp.params hr)
    fun _ _ _ h => h

/-! ## Bodies -/

/-- An arm, before a word that may come after it. -/
def ReadsArm (x : Bool × Node × Node) (ts : List Token) (k : Kind) : Prop :=
  Reads (.arm x.1 x.2.1 x.2.2) ts k ∧ (x.1 = true → closes [.close, .elif, .else] k = true)

section

variable (hs : ∀ goal, Sound goal.level (sub goal)) (hv : ∀ goal, Viable goal.level (sub goal))

include hs hv

/-- Statements are closed with one, or with what ends them. -/
theorem statementsUntil_viable {close : List Keyword} {k : Kind} (hd : Delimits k)
    (hk : k = .mark .stop ∨ closes close k = true) (bound : Nat) :
    Resumes on (fun ts => ∃ ns, Reads (.lines close ns) ts k)
      (statementsUntil sub close bound) := by
  have hempty : ∃ ts ns, Reads (.lines close ns) ts k := ⟨[], [], .noLines hk⟩
  have hsep : k ≠ .mark .separator := by
    rintro rfl
    simp [closes, Kind.isKeyword] at hk
  induction bound generalizing on with
  | zero => exact .pure hempty
  | succ bound ih =>
    refine .look (φ := fun k => k.isMark .stop) (fun _ => rfl) hempty fun l _ => ?_
    refine .look (φ := closes close) (fun _ => rfl) hempty fun l _ => ?_
    refine .ite (fun _ => .pure hempty) fun _ => ?_
    refine (hv .statement).bind (hs .statement) fun n ts l h => ?_
    have hlast : ∃ us ns, Reads (.lines close ns) (ts ++ us) k :=
      ⟨[], [n], by rw [List.append_nil]; exact .lastLine (h.endsAt hd) hsep⟩
    by_cases hl : l = .mark .separator
    · subst hl
      refine .separators fun seps hseps => ?_
      refine (Resumes.imp ih fun us h' => ?_).tail fun ns c => ⟨_, rfl⟩
      obtain ⟨ns, h'⟩ := h'
      exact ⟨n :: ns, .line h hseps h'⟩
    · exact .noSeparators (fun _ h => h ▸ hl) (.pure hlast)

theorem lines_viable {close : List Keyword} {k : Kind} (hd : Delimits k)
    (hk : k = .mark .stop ∨ closes close k = true) :
    Resumes on (fun ts => ∃ ns, Reads (.lines close ns) ts k) (lines sub close) :=
  have h (bound : Nat) : Resumes on _ (statementsUntil sub close bound) :=
    statementsUntil_viable hs hv hd hk bound
  .still (v := fun c => c.rest.length) (fun _ => rfl) (h 0).completes fun bound => h (bound + 1)

theorem block_viable {close : List Keyword} (hclose : closes close (.keyword .close) = true)
    (opened : Position) :
    Resumes (· = .mark .separator)
      (fun ts => ∃ n, Reads (.block close opened n) ts (.keyword .close)) (block sub close) := by
  have hafter (p : Position) : Resumes (· = .mark .separator)
      (fun ts => ∃ n, Reads (.block close opened n) ts (.keyword .close)) (do
        let _ ← skipSeparators
        let body ← lines sub close
        if ← atAnyKeyword close then return Node.mk (.block body) (spanOf (.emptyAt p) body)
        else fail (.keywords close)) := by
    refine .separators fun seps hseps => ?_
    refine .bind (P := fun ns ts k => Reads (.lines close ns) ts k) ?_ ?_ fun ns ts k h => ?_
    · exact (lines_viable hs hv .close (.inr hclose)).imp fun ts ⟨ns, h⟩ => ⟨ns, _, h⟩
    · exact fun c ns c' _ h => statementsUntil_sound hs (Nat.lt_succ_self _) h
    · have hdone : ∃ us n, Reads (.block close opened n) (seps ++ (ts ++ us)) (.keyword .close) :=
        ⟨[], _, by rw [List.append_nil]; exact .block hseps (h.endsAt .close (.inr hclose)) hclose⟩
      refine .look (φ := closes close) (fun _ => rfl) hdone fun _ _ => ?_
      exact .ite (fun _ => .pure hdone) fun _ => .fail hdone
  rw [block_eq]
  exact .still (v := Cursor.lastEnd) (fun _ => rfl) (hafter .origin).completes hafter

theorem closedBlock_viable (opened : Position) :
    Resumes (· = .mark .separator) (fun ts => ∃ us e, ts = us ++ [e] ∧ e.kind = .keyword .close ∧
        ∃ n, Reads (.block [.close] opened n) us e.kind)
      (do let b ← block sub [.close]; let _ ← pass; return b) := by
  refine ((block_viable hs hv rfl opened).extend fun ts h => ?_).tail fun b c => ⟨_, rfl⟩
  exact ⟨[ofKind (.keyword .close)], ts, _, rfl, rfl, h⟩

theorem body_viable (opened : Position) :
    Resumes on (fun ts => ∃ n, Reads (.body opened n) ts (.mark .stop)) (body sub) := by
  have hlast : Resumes (fun _ => True) (fun ts => ∃ n, Reads (.body opened n) ts (.mark .stop))
      (sub .statement) := (hv .statement).last fun n ts h => ⟨n, .inline h⟩
  refine .look (φ := fun k => k.isMark .separator) (fun _ => rfl) hlast.completes fun k _ => ?_
  refine .ite (fun hk => ?_) fun _ => hlast.mono fun _ _ => trivial
  obtain rfl := Kind.isMark_iff.mp hk
  refine (closedBlock_viable hs hv opened).imp fun ts h => ?_
  obtain ⟨us, e, rfl, he, n, h⟩ := h
  exact ⟨n, .lined h he⟩

/-! ## Branches -/

theorem arm_viable : Resumes on (fun ts => ∃ x k, ReadsArm x ts k) (arm sub) := by
  refine (hv .expression).bind (hs .expression) fun test ts k h₁ => ?_
  refine .expectKeyword fun t ht => ?_
  have htest : Reads (.node .expression test) ts t.kind := ht ▸ h₁.endsAt .then
  have hinline : Resumes (fun _ => True) (fun us => ∃ x k, ReadsArm x (ts ++ t :: us) k)
      (sub .statement) :=
    (hv .statement).last fun n us h => ⟨(false, test, n), _, .armInline htest ht h, nofun⟩
  refine .look (φ := fun k => k.isMark .separator) (fun _ => rfl) hinline.completes fun l _ => ?_
  refine Resumes.tail ?_ fun inner c => ⟨_, rfl⟩
  refine .ite (fun hl => ?_) fun _ => hinline.mono fun _ _ => trivial
  obtain rfl := Kind.isMark_iff.mp hl
  refine (block_viable hs hv rfl t.span.stop).imp fun us h => ?_
  obtain ⟨n, h⟩ := h
  exact ⟨(true, test, n), _, .armLined htest ht h, fun _ => rfl⟩

theorem branches_viable (bound : Nat) : Resumes on
    (fun ts => ∃ bs otherwise, Reads (.branches bs otherwise) ts (.mark .stop))
    (branches sub bound) := by
  have hone : ∃ ts bs otherwise, Reads (.branches bs otherwise) ts (.mark .stop) := by
    obtain ⟨test, ht⟩ := literal_reads .expression
    obtain ⟨inner, hi⟩ := literal_reads .statement
    exact ⟨_, _, _, .only (.armInline (t := ofKind (.keyword .then)) (ht.endsAt .then) rfl hi)
      nofun nofun⟩
  induction bound generalizing on with
  | zero => exact .fail hone
  | succ bound ih =>
    rw [branches_succ]
    refine .bind (P := ReadsArm) (arm_viable hs hv) (fun c x c' _ h => ?_) ?_
    · obtain ⟨ts, ha, hr, hclose⟩ := arm_sound hs h
      exact ⟨ts, ha, hr, hclose⟩
    rintro ⟨lined, test, inner⟩ ts k ⟨hr, hclose⟩
    have hdone : ∃ us bs otherwise, Reads (.branches bs otherwise) (ts ++ us) (.mark .stop) := by
      cases lined with
      | true => exact ⟨[ofKind (.keyword .close)], _, _, .closed (hr.endsAt .close rfl) rfl⟩
      | false =>
        exact ⟨[], _, _, by rw [List.append_nil]; exact .only (hr.endsAt .stop) nofun nofun⟩
    refine .look (φ := fun k => k.isKeyword .close) (fun _ => rfl) hdone fun k hk => ?_
    obtain rfl := hk
    refine .ite (fun _ => .never hdone fun c _ => ⟨_, rfl⟩) fun _ => ?_
    refine .passKeyword (fun hk e he => ?_) (.passKeyword (fun hk e he => ?_) (.pure hdone))
    · obtain rfl := hk
      refine (Resumes.imp ih fun us h => ?_).tail fun x c => ⟨_, rfl⟩
      obtain ⟨bs, otherwise, h⟩ := h
      exact ⟨_, _, .elif (he ▸ hr) he h⟩
    · obtain rfl := hk
      refine ((body_viable hs hv e.span.stop).imp fun us h => ?_).tail fun x c => ⟨_, rfl⟩
      obtain ⟨n, h⟩ := h
      exact ⟨_, _, .otherwise (he ▸ hr) he h⟩

end

end Grammar

end Scriptlet

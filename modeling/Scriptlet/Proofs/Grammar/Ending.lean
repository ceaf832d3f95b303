import Scriptlet.Proofs.Grammar.Opening

/-!
# How phrases end

A phrase that is done is read alike before anything that cannot go on with it,
such as the end of its line, a closing bracket or the word after a condition.
At the end of a text a node of any level is a statement too, as there is
nothing left that a looser production could go on with.
-/

set_option autoImplicit false

namespace Scriptlet

open Token (Kind)

namespace Grammar

/-- Statements with separators between them and none after the last. -/
inductive Rows : List Node → List Token → Prop where
  | one {n : Node} {ts : List Token} (h : Reads (.node .statement n) ts (.mark .stop)) :
      Rows [n] ts
  | more {n : Node} {ns : List Node} {ts seps us : List Token}
      (h : Reads (.node .statement n) ts (.mark .separator)) (hs : Separators seps)
      (hr : Rows ns us) : Rows (n :: ns) (ts ++ (seps ++ us))

theorem Rows.lines {ns : List Node} {ts : List Token} (h : Rows ns ts) :
    Reads (.lines [] ns) ts (.mark .stop) := by
  induction h with
  | one h => exact .lastLine h (by simp)
  | more h hs _ ih => exact .line h hs ih

theorem Rows.ne_nil {ns : List Node} {ts : List Token} (h : Rows ns ts) : ts ≠ [] := by
  cases h with
  | one h => exact h.ne_nil
  | more h _ _ => simp [h.ne_nil]

/-- What is left of a phrase at the end of a text. A phrase that something must follow is no
phrase there. -/
def Ends : Phrase → List Token → Prop
  | .lines _ ns, ts => ns = [] ∧ ts = [] ∨ ∃ row seps, ts = row ++ seps ∧ Rows ns row
  | .block .., _ | .items _, _ | .further _, _ | .step _, _ | .arm true _ _, _ => True
  | p, ts => Reads p ts (.mark .stop)

/-- What no phrase goes on with: the end of the text or of a line, a comma, a closing bracket, and
the words after the first parts of loops and conditions and after a body. -/
inductive Delimits : Kind → Prop where
  | stop : Delimits (.mark .stop)
  | separator : Delimits (.mark .separator)
  | comma : Delimits (.mark .comma)
  | rightParen : Delimits (.mark .rightParen)
  | rightSquare : Delimits (.mark .rightSquare)
  | to : Delimits (.keyword .to)
  | then : Delimits (.keyword .then)
  | close : Delimits (.keyword .close)

/-- What is left of a phrase before a token of kind `k`, if that may come after such a phrase. -/
def EndsAt (k : Kind) : Phrase → List Token → Prop
  | .lines close ns, ts =>
    (k = .mark .stop ∨ closes close k = true) → Reads (.lines close ns) ts k
  | .block close opened n, ts => closes close k = true → Reads (.block close opened n) ts k
  | .arm true test inner, ts =>
    closes [.close, .elif, .else] k = true → Reads (.arm true test inner) ts k
  | .items ns, ts => k ≠ .mark .comma → Reads (.items ns) ts k
  | .further ns, ts => k ≠ .mark .comma → Reads (.further ns) ts k
  | p, ts => Reads p ts k

section

variable {k : Kind}

theorem Delimits.op? (hk : Delimits k) (chain : Chain) : chain.op? k = none := by
  cases hk <;> cases chain <;> rfl

theorem Delimits.assigns (hk : Delimits k) {ts : List Token} (h : assigns (kinds ts) = false) :
    Grammar.assigns (kinds ts ++ [k]) = false := by
  have hequal : k.isMark .equal = false := by cases hk <;> rfl
  match ts with
  | [] => cases hk <;> rfl
  | [t] => cases ht : t.kind <;> simp [kinds, ht, Grammar.assigns, hequal]
  | t :: u :: ts => cases ht : t.kind <;> simp_all [kinds, Grammar.assigns]

theorem Reads.ofChain (chain : Chain) {n : Node} {ts : List Token} (hk : Delimits k)
    (h : Reads (.operands chain n) ts k) : Reads (.node chain.level n) ts k := by
  apply Reads.chain h (hk.op? chain)
  intro _
  obtain ⟨t, us, rfl, -, ha⟩ := h.opens
  exact hk.assigns ha

/-- Only what follows at the end makes a difference to what comes next. -/
theorem Reads.beforeRest {level : Level} {n : Node} {ts us : List Token} {k' : Kind}
    (h : Reads (.node level n) ts (following us k')) (hend : Reads (.node level n) ts k) :
    Reads (.node level n) ts (following us k) := by
  cases us with
  | nil => exact hend
  | cons u us => exact h

theorem Reads.endsAt {p : Phrase} {ts : List Token} {k' : Kind} (hk : Delimits k)
    (h : Reads p ts k') : EndsAt k p ts := by
  induction h with
  | literal h => exact .literal h
  | parens ho h hc _ => exact .parens ho h hc
  | list ho h hc _ => exact .list ho h hc
  | ifElse hw _ ih => exact .ifElse hw ih
  | forTo hw hv hq h₁ hu h₂ h₃ ht _ _ _ _ ih => exact .forTo hw hv hq h₁ hu h₂ h₃ ht ih
  | whileDo hw h₁ ht _ _ ih => exact .whileDo hw h₁ ht ih
  | function hw hn ho hp hc _ ih => exact .function hw hn ho hp hc ih
  | noStep _ => exact .noStep (by cases hk <;> simp)
  | step hw _ ih => exact .step hw ih
  | arrow ha _ ih => exact .arrow ha ih
  | routine h he _ => exact .routine h he
  | target _ ih => exact .target ih
  | call hf ho ha hc _ _ => exact .call hf ho ha hc
  | index ht ho hp hc _ _ => exact .index ht ho hp hc
  | application _ _ _ ih => exact .application ih (by cases hk <;> simp) (by cases hk <;> simp)
  | base _ _ ih => exact .base ih (by cases hk <;> simp)
  | power hb ho _ _ ih => exact .power hb ho ih
  | unsigned _ ih => exact .unsigned ih
  | signed hs _ ih => exact .signed hs ih
  | first _ ih => exact .first ih
  | joined hl ho _ _ ih => exact .joined hl ho ih
  | chain _ _ _ ih => exact .ofChain _ hk ih
  | not hw _ ih => exact .not hw ih
  | declare hw hv hq _ ih => exact .declare hw hv hq ih
  | rebind hv hq _ ih => exact .rebind hv hq ih
  | returnNothing hw _ => exact .returnNothing hw (by cases hk <;> rfl)
  | returnValue hw _ ih => exact .returnValue hw ih
  | «continue» hw => exact .continue hw
  | «break» hw => exact .break hw
  | expression _ ih => exact .expression ih
  | noItems => exact fun _ => .noItems
  | items h _ ih ih' => exact fun hne => .items (h.beforeRest ih) (ih' hne)
  | noFurther _ => exact fun hne => .noFurther hne
  | further hc h _ ih ih' => exact fun hne => .further hc (h.beforeRest ih) (ih' hne)
  | noLines _ => exact fun hclose => .noLines hclose
  | lastLine _ _ ih =>
    refine fun hclose => .lastLine ih ?_
    rintro rfl
    simp [closes, Kind.isKeyword] at hclose
  | line h hs _ _ ih => exact fun hclose => .line h hs (ih hclose)
  | block hs _ _ ih => exact fun hclose => .block hs (ih (.inr hclose)) hclose
  | lined h he _ => exact .lined h he
  | inline _ ih => exact .inline ih
  | armLined h₁ ht _ _ ih => exact fun hclose => .armLined h₁ ht (ih hclose)
  | armInline h₁ ht _ _ ih => exact .armInline h₁ ht ih
  | closed h he _ => exact .closed h he
  | only _ _ _ ih => exact .only ih (by cases hk <;> simp) (by cases hk <;> simp)
  | elif h he _ _ ih => exact .elif h he ih
  | otherwise h he _ _ ih => exact .otherwise h he ih

theorem Reads.lines_ends {close : List Keyword} {ns : List Node} {ts : List Token}
    (h : Reads (.lines close ns) ts k) :
    ns = [] ∧ ts = [] ∨ ∃ row seps, ts = row ++ seps ∧ Rows ns row := by
  generalize hp : Phrase.lines close ns = p at h
  induction h generalizing ns with
  | noLines _ =>
    obtain ⟨-, rfl⟩ := Phrase.lines.inj hp
    exact .inl ⟨rfl, rfl⟩
  | @lastLine close n ts k h _ _ =>
    obtain ⟨-, rfl⟩ := Phrase.lines.inj hp
    exact .inr ⟨ts, [], by simp, .one (h.endsAt .stop)⟩
  | @line close n ns ts seps us k h hs _ _ ih =>
    obtain ⟨rfl, rfl⟩ := Phrase.lines.inj hp
    right
    rcases ih rfl with ⟨rfl, rfl⟩ | ⟨row, tail, rfl, hrow⟩
    · exact ⟨ts, seps, by simp, .one (h.endsAt .stop)⟩
    · exact ⟨ts ++ (seps ++ row), tail, by simp, .more h hs hrow⟩
  | _ => cases hp

theorem Reads.ends {p : Phrase} {ts : List Token} (h : Reads p ts k) : Ends p ts := by
  have hend : EndsAt (.mark .stop) p ts := h.endsAt .stop
  cases p with
  | lines close ns => exact h.lines_ends
  | block | items | further | step => trivial
  | arm lined test inner =>
    cases lined with
    | true => trivial
    | false => exact hend
  | _ => exact hend

end

/-! ## At the end of a text every node is a statement -/

namespace Reads

variable {n : Node} {ts : List Token}

theorem ofAtom (h : Reads (.node .atom n) ts (.mark .stop)) :
    Reads (.node .application n) ts (.mark .stop) :=
  .application (.target h) (by simp) (by simp)

theorem ofFactor (h : Reads (.node .factor n) ts (.mark .stop)) :
    Reads (.node .product n) ts (.mark .stop) :=
  ofChain .product .stop (.first h)

theorem ofProduct (h : Reads (.node .product n) ts (.mark .stop)) :
    Reads (.node .sum n) ts (.mark .stop) :=
  ofChain .sum .stop (.first h)

theorem ofSum (h : Reads (.node .sum n) ts (.mark .stop)) :
    Reads (.node .comparison n) ts (.mark .stop) :=
  ofChain .comparison .stop (.first h)

theorem ofComparison (h : Reads (.node .comparison n) ts (.mark .stop)) :
    Reads (.node .expression n) ts (.mark .stop) :=
  ofChain .logic .stop (.first h)

/-- With nothing after it a node of any level is a statement. -/
theorem statement {level : Level} (h : Reads (.node level n) ts (.mark .stop)) :
    Reads (.node .statement n) ts (.mark .stop) := by
  have ofSum' (h : Reads (.node .sum n) ts (.mark .stop)) :
      Reads (.node .statement n) ts (.mark .stop) := .expression h.ofSum.ofComparison
  have ofPower (h : Reads (.node .power n) ts (.mark .stop)) :
      Reads (.node .statement n) ts (.mark .stop) := ofSum' (ofProduct (ofFactor (.unsigned h)))
  have ofApplication (h : Reads (.node .application n) ts (.mark .stop)) :
      Reads (.node .statement n) ts (.mark .stop) := ofPower (.base h (by simp))
  cases level with
  | atom => exact ofApplication h.ofAtom
  | application => exact ofApplication h
  | power => exact ofPower h
  | factor => exact ofSum' h.ofFactor.ofProduct
  | product => exact ofSum' h.ofProduct
  | sum => exact ofSum' h
  | comparison => exact .expression h.ofComparison
  | expression => exact .expression h
  | statement => exact h

end Reads

end Grammar

end Scriptlet

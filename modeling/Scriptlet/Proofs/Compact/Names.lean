import Scriptlet.Proofs.Compact.Shape
import Scriptlet.Proofs.Grammar.Reparse

/-!
# The names in a program

Every name in a program was an identifier of its text, and so it cannot be
taken for a number where it is written as a word.
-/

set_option autoImplicit false

namespace Scriptlet

open Sexp (word form)

/-- The names that stand in an expression itself. -/
def Expr.names : Expr → List String
  | .var name | .assign name _ _ | .forTo name _ _ _ _ => [name]
  | .function name params _ => name.toList ++ params.map Param.name
  | _ => []

/-- All names in a node can be told from numbers. -/
def Node.Named (n : Node) : Prop :=
  ∀ m : Node, m.PartOf n → ∀ name ∈ m.expr.names, NameLike name.toList

/-- A word without digits. -/
def isWording (cs : List Char) : Bool := cs ≠ [] && cs.all fun c => isPlain c && !c.isDigit

theorem Node.PartOf.trans {l m n : Node} (hl : l.PartOf m) (hm : m.PartOf n) : l.PartOf n := by
  induction hm with
  | self => exact hl
  | child hc _ ih => exact .child hc ih

theorem nameLike_of_isWording {cs : List Char} (h : isWording cs = true) : NameLike cs := by
  obtain ⟨hne, hall⟩ : cs ≠ [] ∧ ∀ c ∈ cs, isPlain c = true ∧ c.isDigit = false := by
    simpa [isWording] using h
  exact ⟨hne, fun c hc => (hall c hc).1, .inl fun c hc => (hall c hc).2⟩

/-! ## Terms of nodes -/

theorem Sexp.Proper.word {s : String} (h : NameLike s.toList) : (word s).Proper := .atom h

theorem Sexp.Proper.form {head : String} {items : List Sexp} (hh : isWording head.toList = true)
    (h : ∀ s ∈ items, s.Proper) : (form head items).Proper :=
  .list (List.forall_mem_cons.mpr ⟨.word (nameLike_of_isWording hh), h⟩) _

theorem BinaryOp.symbol_isWording (op : BinaryOp) : isWording op.symbol.toList = true := by
  cases op <;> decide

theorem UnaryOp.symbol_isWording (op : UnaryOp) : isWording op.symbol.toList = true := by
  cases op <;> decide

theorem Atom.ofFloat_proper (x : Float) : (Atom.ofFloat x).Proper := by
  have hrender : (Decimal.render x).toList = Decimal.Style.plain.chars (.ofFloat x) :=
    String.toList_ofList
  have hname (h : NameLike (Decimal.Style.plain.chars (.ofFloat x))) :
      (Atom.name (Decimal.render x)).Proper := by
    rwa [← hrender] at h
  unfold Atom.ofFloat
  cases hx : Decimal.Binary.ofFloat x with
  | finite negative m e => exact ⟨negative, m, e, hx⟩
  | undefined =>
    rw [hx] at hname
    exact hname (nameLike_of_isWording (by decide))
  | infinite negative =>
    rw [hx] at hname
    cases negative <;> exact hname (nameLike_of_isWording (by decide))

theorem sexpAll_proper {ns : List Node} (h : ∀ n ∈ ns, n.sexp.Proper) :
    ∀ s ∈ sexpAll ns, s.Proper := by
  induction ns with
  | nil => nofun
  | cons n ns ih =>
    obtain ⟨hn, hns⟩ := List.forall_mem_cons.mp h
    exact List.forall_mem_cons.mpr ⟨hn, ih hns⟩

theorem sexpBranches_proper {bs : List (Node × Node)}
    (h : ∀ n ∈ bs.flatMap fun b => [b.1, b.2], n.sexp.Proper) :
    ∀ s ∈ sexpBranches bs, s.Proper := by
  induction bs with
  | nil => nofun
  | cons b bs ih =>
    obtain ⟨test, body⟩ := b
    simp only [List.flatMap_cons, List.forall_mem_append] at h
    have hpair : ∀ s ∈ [test.sexp, body.sexp], s.Proper := sexpAll_proper h.1
    exact List.forall_mem_cons.mpr ⟨.list hpair _, ih h.2⟩

theorem sexpOption_proper {head : String} (hh : isWording head.toList = true)
    {o : Option Node}
    (h : ∀ n ∈ o.toList, n.sexp.Proper) : ∀ s ∈ sexpOption head o, s.Proper := by
  cases o with
  | none => nofun
  | some n =>
    have hn : ∀ s ∈ [n.sexp], s.Proper := sexpAll_proper h
    exact List.forall_mem_singleton.mpr (.form hh hn)

theorem Node.sexp_proper : ∀ n : Node, n.Named → n.sexp.Proper := by
  apply Node.induction
  intro e span ih hnamed
  have hnames : ∀ name ∈ e.names, NameLike name.toList := hnamed _ (.self _)
  have ih (n : Node) (hn : n ∈ e.children) : n.sexp.Proper :=
    ih n hn fun m hm => hnamed m (.child hn hm)
  unfold Node.sexp
  cases e with
  | int | text => exact .atom trivial
  | float x => exact .atom (Atom.ofFloat_proper x)
  | list items => exact .list (sexpAll_proper ih) _
  | var name => exact .word (hnames name (List.mem_cons_self ..))
  | assign name value declare =>
    have hname := hnames name (List.mem_cons_self ..)
    refine .form ?_ (List.forall_mem_cons.mpr ⟨.word hname, sexpAll_proper ih⟩)
    cases declare <;> decide
  | binary op left right => exact .form op.symbol_isWording (sexpAll_proper ih)
  | unary op operand => exact .form op.symbol_isWording (sexpAll_proper ih)
  | whileDo test body => exact .form (by decide) (sexpAll_proper ih)
  | index target place => exact .form (by decide) (sexpAll_proper ih)
  | call callee args => exact .form (by decide) (sexpAll_proper ih)
  | block body => exact .form (by decide) (sexpAll_proper ih)
  | ifElse branches otherwise =>
    obtain ⟨hbranches, hotherwise⟩ := List.forall_mem_append.mp ih
    exact .form (by decide) (List.forall_mem_append.mpr
      ⟨sexpBranches_proper hbranches,
        sexpOption_proper (by decide) hotherwise⟩)
  | forTo var start stop step body =>
    simp only [Expr.children, List.forall_mem_append] at ih
    obtain ⟨⟨hends, hstep⟩, hbody⟩ := ih
    have hname := hnames var (List.mem_cons_self ..)
    have hfirst : ∀ s ∈ [word var, start.sexp, stop.sexp], s.Proper :=
      List.forall_mem_cons.mpr ⟨.word hname, sexpAll_proper hends⟩
    exact .form (by decide) (List.forall_mem_append.mpr
      ⟨List.forall_mem_append.mpr ⟨hfirst, sexpOption_proper (by decide) hstep⟩,
        sexpAll_proper hbody⟩)
  | function name params body =>
    have hname : NameLike (name.getD "_").toList := by
      cases name with
      | none => exact nameLike_of_isWording (by decide)
      | some name => exact hnames name (List.mem_cons_self ..)
    have hparams : ∀ s ∈ params.map fun p => word p.name, s.Proper :=
      List.forall_mem_map.mpr fun p hp =>
        .word (hnames p.name (List.mem_append_right _ (List.mem_map_of_mem hp)))
    exact .form (by decide) (List.forall_mem_cons.mpr ⟨.word hname,
      List.forall_mem_cons.mpr ⟨.list hparams _, sexpAll_proper ih⟩⟩)
  | «return» value =>
    cases value with
    | none => exact .form (by decide) (List.forall_mem_nil _)
    | some value => exact .form (by decide) (sexpAll_proper ih)
  | «continue» | «break» => exact .form (by decide) (List.forall_mem_nil _)

/-! ## Names from identifiers -/

namespace Lexer

theorem isPlain_of_isWordPart {c : Char} (h : isWordPart c = true) : isPlain c = true := by
  simp only [isPlain, decide_eq_true_eq, List.mem_cons, List.not_mem_nil, or_false]
  rintro (rfl | rfl | rfl | rfl | rfl | rfl) <;> simp [isWordPart] at h

theorem nameLike_of_wordReading {c : Char} {cs : List Char} {name : String}
    (hc : isWordStart c = true)
    (h : wordReading ((c :: cs).takeWhile isWordPart) = .token (.identifier name)) :
    NameLike name.toList := by
  have hall : ∀ d ∈ (c :: cs).takeWhile isWordPart, isWordPart d = true :=
    fun d hd => List.mem_takeWhile_imp hd
  have hfirst := List.takeWhile_cons_of_pos (l := cs) (isWordPart_of_isWordStart hc)
  rw [wordReading] at h
  split at h
  · cases h
  · obtain rfl := Token.Kind.identifier.inj (Reading.token.inj h)
    rw [String.toList_ofList]
    refine ⟨by simp [hfirst], fun d hd => isPlain_of_isWordPart (hall d hd),
      .inr ⟨c, by simp [hfirst], ?_, ?_⟩⟩
    · exact not_isDigit_of_isWordStart hc
    · rintro rfl
      simp [isWordStart] at hc

theorem number_ne_identifier {cs : List Char} {name : String} :
    (number cs).reading ≠ .token (.identifier name) := by
  unfold number decimalReading integerReading
  split
  · dsimp only
    split <;> simp
  · dsimp only
    split <;> simp

theorem mark_ne_identifier {c : Char} {cs : List Char} {name : String} :
    (mark c cs).reading ≠ .token (.identifier name) := by
  have hsingle : (singleMark c cs).reading ≠ .token (.identifier name) := by
    unfold singleMark
    split <;> simp
  unfold mark
  split
  · exact hsingle
  · split
    · simp
    · exact hsingle

theorem scan_identifier {c : Char} {cs taken rest : List Char} {name : String}
    (h : scan c cs = ⟨.token (.identifier name), taken, rest⟩) : NameLike name.toList := by
  have hreading : (scan c cs).reading = .token (.identifier name) := by rw [h]
  unfold scan at hreading
  split_ifs at hreading with hblank hcomment hdigit hword hquote
  · cases hreading
  · cases hreading
  · exact absurd hreading number_ne_identifier
  · exact nameLike_of_wordReading hword hreading
  · unfold text at hreading
    dsimp only at hreading
    split at hreading <;> cases hreading
  · exact absurd hreading mark_ne_identifier

theorem Lexes.nameLike {p : Position} {cs : List Char} {ts : List Token} (h : Lexes p cs ts) :
    ∀ t ∈ ts, ∀ name, t.kind = .identifier name → NameLike name.toList := by
  induction h with
  | stop p => simp [ending]
  | blank _ _ ih => exact ih
  | token hs _ ih =>
    refine List.forall_mem_cons.mpr ⟨?_, ih⟩
    rintro name rfl
    exact scan_identifier hs

end Lexer

namespace Grammar

open Token (Kind)

/-- The names in the node of a phrase itself. -/
def Phrase.names : Phrase → List String
  | .node _ n | .operands _ n | .applied _ n | .block _ _ n => n.expr.names
  | _ => []

theorem Named.names {name : Option String} {ts : List Token} (h : Named name ts) :
    ∀ x ∈ name.toList, .identifier x ∈ kinds ts := by
  cases h with
  | none => nofun
  | some ht => simp [ht]

theorem FurtherParams.names {ps : List Param} {ts : List Token} (h : FurtherParams ps ts) :
    ∀ x ∈ ps.map Param.name, .identifier x ∈ kinds ts := by
  induction h with
  | nil => nofun
  | cons hc ht _ ih =>
    refine List.forall_mem_cons.mpr ⟨by simp [ht], fun x hx => ?_⟩
    simpa using .inr (.inr (ih x hx))

theorem Params.names {ps : List Param} {ts : List Token} (h : Params ps ts) :
    ∀ x ∈ ps.map Param.name, .identifier x ∈ kinds ts := by
  cases h with
  | nil => nofun
  | cons ht h =>
    refine List.forall_mem_cons.mpr ⟨by simp [ht], fun x hx => ?_⟩
    simpa using .inr (h.names x hx)

theorem Reads.names {p : Phrase} {ts : List Token} {k : Kind} (h : Reads p ts k) :
    ∀ name ∈ p.names, .identifier name ∈ kinds ts := by
  induction h with
  | @literal t e k h =>
    cases hk : t.kind <;> simp only [hk, literal?, Option.some.injEq, reduceCtorEq] at h <;>
      subst h <;> simp [Phrase.names, Node.expr, Expr.names, hk]
  | parens _ _ _ ih =>
    intro name hname
    simpa using .inr (.inl (ih name hname))
  | forTo _ hv | declare _ hv | rebind hv => simp [Phrase.names, Node.expr, Expr.names, hv]
  | function _ hn _ hp =>
    intro name hname
    rcases List.mem_append.mp hname with hname | hname
    · simpa using .inr (.inl (hn.names name hname))
    · simpa using .inr (.inr (.inr (.inl (hp.names name hname))))
  | target _ ih | base _ _ ih | unsigned _ ih | first _ ih | chain _ _ _ ih | expression _ ih
  | application _ _ _ ih => exact ih
  | _ => exact fun _ hname => absurd hname List.not_mem_nil

end Grammar

/-- The names in a program can be told from numbers. -/
theorem Source.program_named {s : Source} {p : Program} (h : s.program = .ok p) {m n : Node}
    (hm : m ∈ p.statements) (hn : n.PartOf m) : n.Named := by
  obtain ⟨front, ts, back, htok, -, -, hlines⟩ := Source.program_lines h
  have hlex := Lexer.tokenize_iff.mp htok
  intro part hpart name hname
  have hword (row : List Token) (hrow : row <:+: ts) (h : .identifier name ∈ kinds row) :
      NameLike name.toList := by
    obtain ⟨t, ht, hkind⟩ := List.mem_map.mp h
    exact hlex.nameLike t (by simp [hrow.subset ht]) name hkind
  cases hlines.parts List.infix_rfl trivial m hm part (hpart.trans hn) with
  | alone hrow hr => exact hword _ hrow (hr.names name hname)
  | block hrow hr => exact hword _ hrow (hr.names name hname)

end Scriptlet

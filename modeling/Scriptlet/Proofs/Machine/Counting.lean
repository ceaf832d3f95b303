import Scriptlet.Proofs.Host.Reached
import Scriptlet.Proofs.Number.Doubles
import Scriptlet.Proofs.Number.Exact
import Mathlib.Algebra.Order.Group.Unbundled.Int
import Mathlib.Data.List.TakeWhile

/-!
# Counting loops

A loop over whole numbers counts from the start in steps, as long as the
counter is short of the limit. Counter and limit are compared on doubles, so
the loop also ends where both are the same double; up to `2 ^ 53` that makes
no difference. The counter is a double itself once it would have more than 64
bits, and is beyond any limit then.
-/

set_option autoImplicit false

namespace Scriptlet

open Double (rounded Denotes denotes_lt denotes_add denotes_zero denotes_whole)

/-! ## Numbers that are counted -/

/-- Counted in steps of `k`, `x` is short of the limit. -/
def Short (e k x : ℤ) : Prop := 0 < k ∧ x < e ∨ k < 0 ∧ e < x

instance (e k x : ℤ) : Decidable (Short e k x) := inferInstanceAs (Decidable (_ ∨ _))

/-- The numbers from `x` on, in steps of `k`, that are short of `e`. -/
def countTo (e k x : ℤ) : List ℤ :=
  if Short e k x then x :: countTo e k (x + k) else []
termination_by if 0 < k then (e - x).toNat else (x - e).toNat
decreasing_by unfold Short at *; split <;> omega

/-- Those before the first that is the same double as the limit. -/
def counters (e k x : ℤ) : List ℤ :=
  (countTo e k x).takeWhile fun x => rounded x ≠ rounded e

variable {e k x y : ℤ}

theorem countTo_of_short (h : Short e k x) : countTo e k x = x :: countTo e k (x + k) := by
  rw [countTo, if_pos h]

theorem countTo_of_not_short (h : ¬ Short e k x) : countTo e k x = [] := by
  rw [countTo, if_neg h]

/-- Rounding keeps the order, so what is short as a double is short. -/
theorem Short.of_rounded (h : Short (rounded e) k (rounded x)) : Short e k x := by
  rcases h with ⟨hk, hlt⟩ | ⟨hk, hlt⟩
  · exact .inl ⟨hk, lt_of_not_ge fun hle => absurd (Double.rounded_mono hle) (not_le.mpr hlt)⟩
  · exact .inr ⟨hk, lt_of_not_ge fun hle => absurd (Double.rounded_mono hle) (not_le.mpr hlt)⟩

theorem Short.ne (h : Short e k x) : x ≠ e := by
  rcases h with ⟨-, hlt⟩ | ⟨-, hlt⟩
  · exact hlt.ne
  · exact hlt.ne'

/-- A number that is short stays so when it is rounded, unless it becomes the limit. -/
theorem Short.rounded (h : Short e k x) (hne : rounded x ≠ rounded e) :
    Short (rounded e) k (rounded x) := by
  rcases h with ⟨hk, hlt⟩ | ⟨hk, hlt⟩
  · exact .inl ⟨hk, lt_of_le_of_ne (Double.rounded_mono hlt.le) hne⟩
  · exact .inr ⟨hk, lt_of_le_of_ne (Double.rounded_mono hlt.le) hne.symm⟩

theorem counters_of_short (h : Short (rounded e) k (rounded x)) :
    counters e k x = x :: counters e k (x + k) := by
  rw [counters, countTo_of_short h.of_rounded, List.takeWhile_cons_of_pos (by simpa using h.ne)]
  rfl

theorem counters_of_not_short (h : ¬ Short (rounded e) k (rounded x)) : counters e k x = [] := by
  by_cases hexact : Short e k x
  · have heq : rounded x = rounded e := by
      by_contra hne
      exact h (hexact.rounded hne)
    rw [counters, countTo_of_short hexact, List.takeWhile_cons_of_neg (by simpa using heq)]
  · rw [counters, countTo_of_not_short hexact, List.takeWhile_nil]

theorem short_of_mem (h : y ∈ countTo e k x) : Short e k y := by
  induction x using countTo.induct (e := e) (k := k) with
  | case1 x hx ih =>
    rw [countTo_of_short hx] at h
    rcases List.mem_cons.mp h with rfl | h
    · exact hx
    · exact ih h
  | case2 x hx =>
    rw [countTo_of_not_short hx] at h
    cases h

/-- With a limit that is a double, as are its neighbours, the loop gets to all numbers. -/
theorem counters_eq (he : |e| < 2 ^ 53) (k x : ℤ) : counters e k x = countTo e k x := by
  obtain ⟨hlow, hhigh⟩ := abs_lt.mp he
  have hrounded : rounded e = e := Double.rounded_eq he.le
  have hbelow : rounded (e - 1) = e - 1 :=
    Double.rounded_eq (abs_le.mpr ⟨by omega, by omega⟩)
  have habove : rounded (e + 1) = e + 1 :=
    Double.rounded_eq (abs_le.mpr ⟨by omega, by omega⟩)
  rw [counters, List.takeWhile_eq_self_iff]
  intro y hy
  have hne : rounded y ≠ rounded e := by
    rcases short_of_mem hy with ⟨-, hlt⟩ | ⟨-, hlt⟩
    · have hmono := Double.rounded_mono (show y ≤ e - 1 by omega)
      omega
    · have hmono := Double.rounded_mono (show e + 1 ≤ y by omega)
      omega
  simpa using hne

namespace Store

variable {s : Store} {id : ScopeId} {name : String} {v : Value}

theorem get?_of_bound {sc : Scope} (h : s.scopeAt? id.slot = some sc)
    (hb : Bindings.get? name sc.bindings = some v) : s.get? id name = some v := by
  obtain ⟨n, hn⟩ : ∃ n, s.scopes.size = n + 1 :=
    Nat.exists_eq_succ_of_ne_zero (Nat.ne_zero_of_lt (lt_size h))
  simp [get?, hn, getFor, scope?_eq, h, hb]

theorem get?_define {sc : Scope} (h : s.scopeAt? id.slot = some sc) (name : String) (v : Value) :
    (s.define id name v).get? id name = some v := by
  have hscope : (s.define id name v).scope? id =
      some { sc with bindings := Bindings.put name v sc.bindings } := by
    rw [define_eq h]
    show (s.rebind id.slot sc _).scopeAt? id.slot = _
    rw [rebind, scopeAt?_setScope, if_pos ⟨rfl, lt_size h⟩]
  exact get?_of_bound hscope (by rw [Bindings.get?_put, if_pos rfl])

/-- In a scope that stands after it, a name is bound. -/
theorem Standing.get?_define (h : (s.define id name v).Standing id) :
    (s.define id name v).get? id name = some v := by
  obtain ⟨hd, hh, -⟩ := h.holds
  obtain ⟨sc, hsc, -⟩ := Option.map_eq_some_iff.mp hh
  cases hs : s.scope? id with
  | none =>
    have hdrop : s.define id name v = s.drop v := by simp only [define, hs]
    rw [hdrop] at hsc
    cases hs.symm.trans hsc
  | some sc => exact Store.get?_define hs name v

end Store

namespace Machine

variable {settings : Settings} {loop : ForLoop} {pace : Pace} {results : List Value}
  {below : List Frame} {m last : Machine} {c : ℤ}

/-! ## One turn -/

theorem whole_pos (k : Int64) : Number.wholeToFloat k > 0.0 ↔ 0 < k.toInt := by
  have hone : rounded 1 = 1 := rfl
  refine (denotes_lt denotes_zero (denotes_whole k)).trans ⟨fun h => ?_, fun h => ?_⟩
  · by_contra hle
    have hmono := Double.rounded_mono (show k.toInt ≤ 0 by omega)
    exact absurd h (not_lt.mpr hmono)
  · have hmono := Double.rounded_mono (show 1 ≤ k.toInt by omega)
    omega

/-- The pace of a loop over integers. -/
def Pace.whole (c : Number) (k e : Int64) : Pace := ⟨c, .int k, Number.wholeToFloat e⟩

theorem short_iff {e k : Int64} {n : Number} (hk : k.toInt ≠ 0) (hc : Denotes n.toFloat c) :
    (if Number.wholeToFloat k > 0.0 then decide (n.toFloat < Number.wholeToFloat e)
      else decide (n.toFloat > Number.wholeToFloat e)) = true ↔ Short (rounded e.toInt) k.toInt c := by
  have hlt : n.toFloat < Number.wholeToFloat e ↔ c < rounded e.toInt :=
    denotes_lt hc (denotes_whole e)
  have hgt : n.toFloat > Number.wholeToFloat e ↔ rounded e.toInt < c :=
    denotes_lt (denotes_whole e) hc
  simp only [hlt, hgt, whole_pos, Short]
  by_cases h : 0 < k.toInt
  · simp [h, not_lt.mpr h.le]
  · simp [h, show k.toInt < 0 by omega]

/-- A turn is taken if the counter is short of the limit, on doubles. -/
theorem turn_taken {e k : Int64} {n : Number} (hk : k.toInt ≠ 0) (hc : Denotes n.toFloat c)
    (h : Short (rounded e.toInt) k.toInt c) (m : Machine) (loop : ForLoop) (results : List Value) :
    m.turn loop (Pace.whole n k e) results =
      (m.define loop.scope loop.var (.number n)).enter (.forBody loop (Pace.whole n k e) results)
        loop.body loop.scope :=
  if_pos ((short_iff hk hc).mpr h)

theorem turn_done {e k : Int64} {n : Number} (hk : k.toInt ≠ 0) (hc : Denotes n.toFloat c)
    (h : ¬ Short (rounded e.toInt) k.toInt c) (m : Machine) (loop : ForLoop) (results : List Value) :
    m.turn loop (Pace.whole n k e) results = m.finishLoop loop.body results :=
  if_neg fun hs => h ((short_iff hk hc).mp hs)

theorem denotes_int (n : Int64) : Denotes (Number.int n).toFloat (rounded n.toInt) :=
  denotes_whole n

/-! ## All turns -/

/-- The body of a loop is next, in a turn of the loop above a stack. -/
def Begins (loop : ForLoop) (below : List Frame) (m : Machine) : Prop :=
  m.control = .eval loop.body loop.scope ∧
    ∃ pace results, m.stack = .forBody loop pace results :: below

/-- A loop evaluates its body once for each of some numbers and gets a value each time. Each
evaluation begins with the variable bound to the number, one step after the last has ended. -/
inductive Turns (settings : Settings) (loop : ForLoop) (below : List Frame) :
    List (ℤ × Value) → Machine → Machine → Prop where
  | last (m : Machine) : Turns settings loop below [] m m
  | turn {x : Int64} {v : Value} {rest : List (ℤ × Value)} {m e last : Machine}
      (hm : Begins loop below m) (hx : m.store.get? loop.scope loop.var = some (.int x))
      (hv : Gives settings loop.body loop.scope m v e)
      (hr : Turns settings loop below rest (step settings e) last) :
      Turns settings loop below ((x.toInt, v) :: rest) m last

variable {turns : List (ℤ × Value)}

theorem Begins.body {v : Value} {e : Machine} (hm : Begins loop below m)
    (hv : Gives settings loop.body loop.scope m v e) : Reaches settings m.stack m e := by
  have hsame : { m with control := .eval loop.body loop.scope } = m := by rw [← hm.1]
  exact hsame ▸ hv.reaches

theorem Turns.reaches (h : Turns settings loop below turns m last) (hl : last.Finished below) :
    Reaches settings below m last := by
  induction h with
  | last m => exact .here hl
  | @turn x v rest m e last hm hx hv hr ih =>
    have hbody := hm.body hv
    obtain ⟨-, pace, results, hs⟩ := hm
    exact (hs ▸ hbody).andThen hs (ih hl)

theorem step_forBody {v : Value} {e : Machine} (hv : e.control = .flow (.value v))
    (hs : e.stack = .forBody loop pace results :: below) :
    ∃ m' : Machine, m'.stack = below ∧ step settings e =
      m'.turn loop { pace with counter := pace.counter.add pace.step }
        (if loop.body.isBlock then results else v :: results) := by
  rw [step_value hv hs]
  show ∃ m' : Machine, m'.stack = below ∧ (collect _ loop.body results v).2.turn loop _
    (collect _ loop.body results v).1 = _
  unfold collect
  split
  · exact ⟨_, rfl, rfl⟩
  · exact ⟨_, rfl, rfl⟩

/-- A loop takes a turn for each of some numbers, and ends with the values of its body before it
has them in `results`. -/
def Completes (settings : Settings) (loop : ForLoop) (below : List Frame) (results : List Value)
    (xs : List ℤ) (m : Machine) : Prop :=
  ∃ (turns : List (ℤ × Value)) (e : Machine), turns.map Prod.fst = xs ∧ e.stack = below ∧
    Turns settings loop below turns m (e.finishLoop loop.body
      (if loop.body.isBlock then results else (turns.map Prod.snd).reverse ++ results))

theorem Completes.none (hs : m.stack = below) :
    Completes settings loop below results [] (m.finishLoop loop.body results) :=
  ⟨[], m, rfl, hs, by simpa using .last _⟩

theorem Completes.turn {x : Int64} {v : Value} {e : Machine} {xs : List ℤ}
    (hm : Begins loop below m) (hx : m.store.get? loop.scope loop.var = some (.int x))
    (hv : Gives settings loop.body loop.scope m v e)
    (h : Completes settings loop below (if loop.body.isBlock then results else v :: results) xs
      (step settings e)) : Completes settings loop below results (x.toInt :: xs) m := by
  obtain ⟨turns, e', hxs, hs, hturns⟩ := h
  refine ⟨(x.toInt, v) :: turns, e', by rw [List.map_cons, hxs], hs, ?_⟩
  refine .turn hm hx hv ?_
  convert hturns using 2
  split <;> simp

theorem add_within {s k c : Int64} (h : int64? (s.toInt + k.toInt) = some c) :
    (Number.int s).add (.int k) = .int c := by
  simp only [Number.add, Number.compute?, Whole.compute?, Outcome.int?, h]
  rfl

/-- Where the sum does not have 64 bits, the counter is beyond any limit. -/
theorem add_beyond {s k : Int64} (h : int64? (s.toInt + k.toInt) = none) (e : Int64) :
    ∃ c, Denotes ((Number.int s).add (.int k)).toFloat c ∧ ¬ Short (rounded e.toInt) k.toInt c ∧
      ¬ Short (rounded e.toInt) k.toInt (rounded (s.toInt + k.toInt)) := by
  have hadd : (Number.int s).add (.int k) =
      .float (Number.wholeToFloat s + Number.wholeToFloat k) := by
    simp only [Number.add, Number.compute?, Whole.compute?, Outcome.int?, h]
    rfl
  have hs := And.intro s.le_toInt s.toInt_lt
  have hk := And.intro k.le_toInt k.toInt_lt
  have he := And.intro e.le_toInt e.toInt_lt
  have hlows := Double.rounded_lower hs.1
  have hlowk := Double.rounded_lower hk.1
  have hlowe := Double.rounded_lower he.1
  have hups := Double.rounded_upper hs.2.le
  have hupk := Double.rounded_upper hk.2.le
  have hupe := Double.rounded_upper he.2.le
  have hsum : Denotes ((Number.int s).add (.int k)).toFloat
      (rounded (rounded s.toInt + rounded k.toInt)) := by
    rw [hadd]
    exact denotes_add (denotes_whole s) (denotes_whole k) (Double.log2_small (by omega))
  refine ⟨_, hsum, ?_⟩
  rcases int64?_eq_none.mp h with hlt | hge
  · have hbelow := Double.rounded_sum_le hs.1 hk.1 hlt
    have hmono := Double.rounded_mono (show s.toInt + k.toInt ≤ e.toInt by omega)
    simp only [Short]
    omega
  · have habove := Double.le_rounded_sum hs.2 hk.2 hge
    have hmono := Double.rounded_mono (show e.toInt ≤ s.toInt + k.toInt by omega)
    simp only [Short]
    omega

/-- Every evaluation of the body that a loop begins until it has ended, with an integer in its
variable, ends with a value. -/
def BodyEnds (settings : Settings) (loop : ForLoop) (below : List Frame) (m : Machine) : Prop :=
  ∀ n x, (∀ j < n, ¬ (steps settings j m).Finished below) → Begins loop below (steps settings n m) →
    (steps settings n m).store.get? loop.scope loop.var = some (.int x) →
    ∃ v e, Gives settings loop.body loop.scope (steps settings n m) v e

theorem BodyEnds.later {k : Nat} (h : BodyEnds settings loop below m)
    (hk : ∀ j < k, ¬ (steps settings j m).Finished below) :
    BodyEnds settings loop below (steps settings k m) := by
  intro n x hn hm hx
  rw [← steps_add] at hm hx ⊢
  refine h (k + n) x (fun j hj => ?_) hm hx
  rcases Nat.lt_or_ge j k with hlt | hge
  · exact hk j hlt
  · have hlater := hn (j - k) (by omega)
    rwa [← steps_add, Nat.add_sub_cancel' hge] at hlater

/-- A turn that is taken begins the body with the variable bound to the counter. -/
theorem turn_begins {host : List Value} {s e k : Int64} {t : Machine} (hk : k.toInt ≠ 0)
    (hshort : Short (rounded e.toInt) k.toInt (rounded s.toInt)) (hm : m.stack = below)
    (ht : t = m.turn loop (Pace.whole (.int s) k e) results)
    (hsound : t.Sound settings.reclaim host) :
    t.stack = .forBody loop (Pace.whole (.int s) k e) results :: below ∧ Begins loop below t ∧
      t.store.get? loop.scope loop.var = some (.int s) := by
  rw [turn_taken hk (denotes_int s) hshort] at ht
  have hstack : t.stack = .forBody loop (Pace.whole (.int s) k e) results :: below := by
    rw [ht, ← hm]
    rfl
  have hbegins : Begins loop below t := ⟨by rw [ht]; rfl, _, _, hstack⟩
  have hstanding : t.store.Standing loop.scope :=
    hsound.inPlace _ _ hbegins.1 ▸ hsound.ready.standing_here
  refine ⟨hstack, hbegins, ?_⟩
  rw [ht] at hstanding ⊢
  exact hstanding.get?_define

/-- By induction on the numbers that are left. After each turn the counter is the next of them,
or has more than 64 bits and none is left. -/
theorem completes {host : List Value} {e k : Int64} (hk : k.toInt ≠ 0) (x : ℤ) :
    ∀ (s : Int64) (results : List Value) (m t : Machine), s.toInt = x → m.stack = below →
      t = m.turn loop (Pace.whole (.int s) k e) results →
      t.Sound settings.reclaim host → BodyEnds settings loop below t →
      Completes settings loop below results (counters e.toInt k.toInt x) t := by
  induction x using countTo.induct (e := e.toInt) (k := k.toInt) with
  | case1 x hexact ih =>
    rintro s results m t rfl hm ht hsound hbody
    by_cases hshort : Short (rounded e.toInt) k.toInt (rounded s.toInt)
    · obtain ⟨hstack, hbegins, hx⟩ := turn_begins hk hshort hm ht hsound
      obtain ⟨v, b, hv⟩ := hbody 0 s (fun j hj => absurd hj j.not_lt_zero) hbegins hx
      obtain ⟨m', hm', hstep⟩ := step_forBody hv.value (hv.finished.trans hstack)
      obtain ⟨n, rfl, habove⟩ := (hstack ▸ hbegins.body hv).above hstack
      rw [counters_of_short hshort]
      refine .turn hbegins hx hv ?_
      cases hsum : int64? (s.toInt + k.toInt) with
      | some c =>
        rw [← steps_succ] at hstep ⊢
        refine ih c _ m' _ (eq_of_int64? hsum) hm' ?_ (hsound.steps (n + 1))
          (hbody.later fun j hj => habove j (Nat.le_of_lt_succ hj))
        rw [← add_within hsum]
        exact hstep
      | none =>
        obtain ⟨c, hc, hdone, hnot⟩ := add_beyond hsum e
        rw [counters_of_not_short hnot, hstep]
        have hfinish := turn_done hk hc hdone m' loop
          (if loop.body.isBlock then results else v :: results)
        exact hfinish.symm ▸ .none hm'
    · rw [turn_done hk (denotes_int s) hshort] at ht
      rw [counters_of_not_short hshort, ht]
      exact .none hm
  | case2 x hexact =>
    rintro s results m t rfl hm ht - -
    have hshort : ¬ Short (rounded e.toInt) k.toInt (rounded s.toInt) :=
      fun h => hexact h.of_rounded
    rw [turn_done hk (denotes_int s) hshort] at ht
    rw [counters_of_not_short hshort, ht]
    exact .none hm

/-! ## Loops over variables -/

theorem steps_var {name : String} {span : Span} {scope : ScopeId} {n : Int64}
    (h : m.store.get? scope name = some (.int n)) (frame : Frame) :
    steps settings 2 (m.enter frame (.mk (.var name) span) scope) =
      resume settings { m with control := .flow .continue } frame (.value (.int n)) := by
  have hone : step settings (m.enter frame (.mk (.var name) span) scope) =
      { m with control := .flow (.value (.int n)), stack := frame :: m.stack } := by
    simp only [enter, step, begin, h]
    rfl
  rw [steps, hone]
  rfl

/-- The loop that a node over variables makes. -/
def varLoop (i e k : String) (ps pe pk : Span) (body : Node) (scope : ScopeId) : ForLoop :=
  ⟨i, ps, .mk (.var e) pe, some (.mk (.var k) pk), body, scope⟩

section

variable {i s e k : String} {ps pe pk span : Span} {body : Node} {scope : ScopeId} {a b c : Int64}

/-- The state in which the bounds are known. -/
theorem steps_bounds
    (hm : m.control = .eval (.mk (.forTo i (.mk (.var s) ps) (.mk (.var e) pe)
      (some (.mk (.var k) pk)) body) span) scope)
    (hs : m.store.get? scope s = some (.int a)) (he : m.store.get? scope e = some (.int b))
    (hk : m.store.get? scope k = some (.int c)) :
    steps settings 7 m = { m with control := .flow .continue }.turn
      (varLoop i e k ps pe pk body scope) (Pace.whole (.int a) c b) [] := by
  let loop := varLoop i e k ps pe pk body scope
  have hfirst : step settings m = enter { m with control := .flow .continue } (.forStart loop)
      (.mk (.var s) ps) scope := step_eval hm
  have hvar {name : String} {p : Span} {n : Int64} (h : m.store.get? scope name = some (.int n))
      (frame : Frame) : steps settings 2 (enter { m with control := .flow .continue } frame
        (.mk (.var name) p) scope) =
        resume settings { m with control := .flow .continue } frame (.value (.int n)) :=
    steps_var h frame
  calc steps settings 7 m
      = steps settings 4 (steps settings 2 (enter { m with control := .flow .continue }
          (.forStart loop) (.mk (.var s) ps) scope)) := by rw [steps, hfirst, ← steps_add]
    _ = steps settings 2 (steps settings 2 (enter { m with control := .flow .continue }
          (.forStop loop (.int a)) (.mk (.var e) pe) scope)) := by
        rw [hvar hs, ← steps_add]
        rfl
    _ = steps settings 2 (enter { m with control := .flow .continue }
          (.forStep loop (.int a) (.int b)) (.mk (.var k) pk) scope) := by
        rw [hvar he]
        rfl
    _ = _ := by
        rw [hvar hk]
        rfl

theorem Reaches.fromBounds
    (hm : m.control = .eval (.mk (.forTo i (.mk (.var s) ps) (.mk (.var e) pe)
      (some (.mk (.var k) pk)) body) span) scope)
    (hs : m.store.get? scope s = some (.int a)) (he : m.store.get? scope e = some (.int b))
    (hk : m.store.get? scope k = some (.int c))
    (h : Reaches settings m.stack (steps settings 7 m) last) : Reaches settings m.stack m last := by
  have hvar {name : String} {p : Span} {n : Int64} (h : m.store.get? scope name = some (.int n))
      (frame : Frame) (hnext : Reaches settings m.stack
        (resume settings { m with control := .flow .continue } frame (.value (.int n))) last) :
      Reaches settings m.stack
        (enter { m with control := .flow .continue } frame (.mk (.var name) p) scope) last :=
    (gives_var (m := { m with control := .flow .continue, stack := frame :: m.stack })
      h).reaches.andThen rfl hnext
  rw [steps_bounds hm hs he hk] at h
  refine .next (not_finished_eval hm) ?_
  rw [step_eval hm]
  exact hvar hs _ (hvar he _ (hvar hk _ h))

end

/-! ## Results -/

theorem giveList_spec (m : Machine) (results : List Value) :
    ∃ id, (m.giveList results).control = .flow (.value (.list id)) ∧
      (m.giveList results).stack = m.stack ∧
      (m.giveList results).store.heap.items id = results.reverse.toArray := by
  refine ⟨m.store.heap.lists.size, rfl, rfl, ?_⟩
  show ((m.store.heap.newList results.toArray.reverse).2.list? _).getD #[] = _
  rw [Heap.newList_list?, if_pos rfl]
  simp

/-- A body that is the variable itself gives the counter in each turn. -/
theorem Turns.counter {p : Span} (hb : loop.body = .mk (.var loop.var) p)
    (h : Turns settings loop below turns m last) :
    turns.map Prod.snd = (turns.map Prod.fst).map fun x => .int (Int64.ofInt x) := by
  induction h with
  | last => rfl
  | @turn x v rest m e last hm hx hv hr ih =>
    rw [hb] at hv
    obtain rfl := hv.unique (gives_var hx)
    simp [ih]

end Machine

namespace Host

open Machine

variable {settings : Settings} {h : Host} {m : Machine}

/-- A loop over integers counts as the operators compare, but ends where the counter is the same
double as the limit. An inline body makes a list of its values, here of the counters; a block is
evaluated once for each of them, in order. The first turn begins when the bounds are known, after
seven steps. -/
theorem loop_counts (hm : h.Passes settings m) {i s e k : String} {ps pe pk span : Span}
    {body : Node} {scope : ScopeId} {first limit step : Int64}
    (hc : m.control = .eval (.mk (.forTo i (.mk (.var s) ps) (.mk (.var e) pe)
      (some (.mk (.var k) pk)) body) span) scope)
    (hs : m.store.get? scope s = some (.int first)) (he : m.store.get? scope e = some (.int limit))
    (hk : m.store.get? scope k = some (.int step)) (hstep : step.toInt ≠ 0) :
    let loop := varLoop i e k ps pe pk body scope
    let xs := counters limit.toInt step.toInt first.toInt
    (|limit.toInt| < 2 ^ 53 → xs = countTo limit.toInt step.toInt first.toInt) ∧
    (∀ p, body = .mk (.var i) p → ∃ id last, Reaches settings m.stack m last ∧
      last.control = .flow (.value (.list id)) ∧
      last.store.heap.items id = (xs.map fun x => .int (Int64.ofInt x)).toArray) ∧
    (body.isBlock → BodyEnds settings loop m.stack (steps settings 7 m) →
      ∃ turns last, turns.map Prod.fst = xs ∧
        Turns settings loop m.stack turns (steps settings 7 m) last ∧
        Reaches settings m.stack m last ∧ last.control = .flow (.value .nothing)) := by
  intro loop xs
  have hcompletes (hbody : BodyEnds settings loop m.stack (steps settings 7 m)) :
      Completes settings loop m.stack [] xs (steps settings 7 m) :=
    completes hstep _ first [] _ _ rfl rfl (steps_bounds hc hs he hk) (hm.sound.steps 7) hbody
  refine ⟨fun hlimit => counters_eq hlimit _ _, ?list, ?block⟩
  case list =>
    rintro p rfl
    obtain ⟨turns, m', hxs, hstack, hturns⟩ :=
      hcompletes fun n x _ _ hx => ⟨_, _, gives_var hx⟩
    obtain ⟨id, hcontrol, hbelow, hitems⟩ := giveList_spec m' ((turns.map Prod.snd).reverse ++ [])
    have hend : Finished m.stack (m'.giveList ((turns.map Prod.snd).reverse ++ [])) :=
      .of_flow hcontrol (hbelow.trans hstack)
    have hvalues : turns.map Prod.snd = xs.map fun x => .int (Int64.ofInt x) :=
      (Turns.counter rfl hturns).trans (by rw [hxs])
    refine ⟨id, _, .fromBounds hc hs he hk (hturns.reaches hend), hcontrol, hitems.trans ?_⟩
    rw [List.append_nil, List.reverse_reverse, hvalues]
  case block =>
    intro hblock hbody
    obtain ⟨turns, m', hxs, hstack, hturns⟩ := hcompletes hbody
    have hgive : ∀ results, m'.finishLoop loop.body results = m'.give .nothing :=
      fun _ => if_pos hblock
    rw [hgive] at hturns
    exact ⟨turns, _, hxs, hturns, .fromBounds hc hs he hk (hturns.reaches (.of_flow rfl hstack)),
      rfl⟩

/-- A loop over three variables that are given values before. -/
def counting (first limit step : Int64) (body : Node) : Program :=
  let at0 : Expr → Node := fun e => .mk e default
  let declare (name : String) (n : Int64) : Node := at0 (.assign name (at0 (.int n)) true)
  ⟨[declare "s" first, declare "e" limit, declare "k" step,
    at0 (.forTo "i" (at0 (.var "s")) (at0 (.var "e")) (some (at0 (.var "k"))) body)], default⟩

/-- The state in which the loop is next. -/
def beforeLoop (first limit step : Int64) (body : Node) : Machine :=
  steps .standard 13 (.ofProgram .bare default (counting first limit step body))

theorem passes_beforeLoop (first limit step : Int64) (body : Node) :
    (Host.start false .standard).Passes .standard (beforeLoop first limit step body) :=
  ⟨.start false, .execute default (counting first limit step body), _, 13, rfl, rfl⟩

theorem counters_odd :
    counters (6 : Int64).toInt (2 : Int64).toInt (1 : Int64).toInt = [1, 3, 5] := by
  have hlimit : (6 : Int64).toInt = 6 := rfl
  have hstep : (2 : Int64).toInt = 2 := rfl
  have hfirst : (1 : Int64).toInt = 1 := rfl
  rw [hlimit, hstep, hfirst, counters_eq (by decide)]
  rw [countTo_of_short (by decide), countTo_of_short (by decide), countTo_of_short (by decide),
    countTo_of_not_short (by decide)]
  rfl

theorem gives_block {node : Node} {span : Span} {scope : ScopeId} {v : Value} {e : Machine}
    (h : Gives settings node scope { m with stack := .block [] scope :: m.stack } v e) :
    ∃ e', Gives settings (.mk (.block [node]) span) scope m .nothing e' := by
  have hlast : step settings e =
      (({ e with control := .flow .continue, stack := m.stack } : Machine).dropAll [v]).give
        .nothing :=
    step_value h.value h.finished
  have hvalue : (step settings e).control = .flow (.value .nothing) := by rw [hlast]; rfl
  have hstack : (step settings e).stack = m.stack := by rw [hlast]; rfl
  exact ⟨_, .within rfl h (.here (.of_flow hvalue hstack)), hvalue⟩

/-- The odd numbers below six. -/
theorem loop_counts_odd :
    let inline : Node := .mk (.var "i") default
    let block : Node := .mk (.block [inline]) default
    (∃ id last, Reaches .standard (beforeLoop 1 6 2 inline).stack (beforeLoop 1 6 2 inline) last ∧
      last.control = .flow (.value (.list id)) ∧
      last.store.heap.items id = #[.int 1, .int 3, .int 5]) ∧
    ∃ turns last, turns.map Prod.fst = [1, 3, 5] ∧
      Turns .standard (varLoop "i" "e" "k" default default default block Store.global)
        (beforeLoop 1 6 2 block).stack turns (steps .standard 7 (beforeLoop 1 6 2 block)) last := by
  intro inline block
  have hcounts (body : Node) := loop_counts (passes_beforeLoop 1 6 2 body) rfl rfl rfl rfl
    (by decide)
  constructor
  · obtain ⟨id, last, hreaches, hcontrol, hitems⟩ := (hcounts inline).2.1 default rfl
    rw [counters_odd] at hitems
    exact ⟨id, last, hreaches, hcontrol, hitems⟩
  · have hbody : BodyEnds .standard (varLoop "i" "e" "k" default default default block Store.global)
        (beforeLoop 1 6 2 block).stack (steps .standard 7 (beforeLoop 1 6 2 block)) := by
      intro n x _ _ hx
      exact ⟨_, gives_block (gives_var hx)⟩
    obtain ⟨turns, last, hxs, hturns, -⟩ := (hcounts block).2.2 rfl hbody
    exact ⟨turns, last, hxs.trans counters_odd, hturns⟩

/-- Between two neighbours that are the same double, the loop takes no turn. -/
theorem loop_misses :
    let inline : Node := .mk (.var "i") default
    let m := beforeLoop 9007199254740992 9007199254740993 1 inline
    countTo 9007199254740993 1 9007199254740992 = [9007199254740992] ∧
      ∃ id last, Reaches .standard m.stack m last ∧ last.control = .flow (.value (.list id)) ∧
        last.store.heap.items id = #[] := by
  intro inline m
  refine ⟨by rw [countTo_of_short (by decide), countTo_of_not_short (by decide)], ?_⟩
  have hshort : ¬ Short (rounded (9007199254740993 : Int64).toInt) (1 : Int64).toInt
      (rounded (9007199254740992 : Int64).toInt) := by decide
  have hdone : steps .standard 7 m = { m with control := .flow .continue }.giveList [] :=
    (steps_bounds rfl rfl rfl rfl).trans (turn_done (by decide) (denotes_int _) hshort _ _ _)
  obtain ⟨id, hcontrol, hbelow, hitems⟩ := giveList_spec { m with control := .flow .continue } []
  refine ⟨id, _, .fromBounds rfl rfl rfl rfl ?_, hcontrol, hitems⟩
  rw [hdone]
  exact .here (.of_flow hcontrol hbelow)

end Host

end Scriptlet

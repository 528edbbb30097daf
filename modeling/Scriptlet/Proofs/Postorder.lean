import Mathlib.Data.List.Forall2
import Scriptlet.Proofs.Termination

/-! Expressions of literals and operators alone.
Their nodes are computed from left to right, each operator behind its operands, whatever the values
of these are. What an expression denotes is told on integers of any size. It is the value of the
expression if no node fails on what its operands denote; else the first node that does is at fault,
and no node behind it is computed. -/
namespace Scriptlet

open Outcome Job

namespace Expr

inductive Elementary : Expr → Prop where
  | integer (n : Int) (span : Span) : Elementary (.integer n span)
  | boolean (b : Bool) (span : Span) : Elementary (.boolean b span)
  | string (text : String) (span : Span) : Elementary (.string text span)
  | unary {op e span} (inner : Elementary e) : Elementary (.unary op e span)
  | binary {op left right span} (first : Elementary left) (second : Elementary right) :
      Elementary (.binary op left right span)

def postorder : Expr → List Expr
  | .unary op e span => e.postorder ++ [.unary op e span]
  | .binary op left right span =>
      left.postorder ++ right.postorder ++ [.binary op left right span]
  | e => [e]

inductive Truth : BinaryOp → (Value → Value → Prop) → Prop where
  | equal : Truth .equal Equal
  | notEqual : Truth .notEqual fun v w => ¬ Equal v w
  | and : Truth .and fun v w => ¬ Falsy v ∧ ¬ Falsy w
  | or : Truth .or fun v w => ¬ Falsy v ∨ ¬ Falsy w

inductive Denotes : Expr → Value → Prop where
  | integer {n span} : Denotes (.integer n span) (.integer n)
  | boolean {b span} : Denotes (.boolean b span) (.boolean b)
  | string {text span} : Denotes (.string text span) (.string text)
  | not {e span v b} (inner : Denotes e v) (holds : b = true ↔ Falsy v) :
      Denotes (.unary .not e span) (.boolean b)
  | negate {e span n} (inner : Denotes e (.integer n)) :
      Denotes (.unary .negate e span) (.integer (-n))
  | arithmetic {op left right span m n k} (first : Denotes left (.integer m))
      (second : Denotes right (.integer n)) (value : Arithmetic op m n k) :
      Denotes (.binary op left right span) (.integer k)
  | order {op left right span p m n b} (first : Denotes left (.integer m))
      (second : Denotes right (.integer n)) (order : Order op p) (holds : b = true ↔ p m n) :
      Denotes (.binary op left right span) (.boolean b)
  | truth {op left right span p v w b} (first : Denotes left v) (second : Denotes right w)
      (truth : Truth op p) (holds : b = true ↔ p v w) :
      Denotes (.binary op left right span) (.boolean b)

inductive Fails : Expr → EvalFault → Prop where
  | illegalUnary {e span v} (inner : e.Denotes v) (other : ∀ n, v ≠ .integer n) :
      Fails (.unary .negate e span) (.illegalUnary .negate v)
  | unaryOverflow {op e span n} (value : (Expr.unary op e span).Denotes (.integer n))
      (beyond : ¬ InRange n) : Fails (.unary op e span) (.integerOverflow op.symbol)
  | illegalBinary {op left right span v w} (first : left.Denotes v) (second : right.Denotes w)
      (kind : op.ofIntegers) (other : ∀ m n, v = .integer m → w ≠ .integer n) :
      Fails (.binary op left right span) (.illegalBinary op v w)
  | byZero {left right span m} (first : left.Denotes (.integer m))
      (second : right.Denotes (.integer 0)) :
      Fails (.binary .divide left right span) .divisionByZero
  | binaryOverflow {op left right span n}
      (value : (Expr.binary op left right span).Denotes (.integer n)) (beyond : ¬ InRange n) :
      Fails (.binary op left right span) (.integerOverflow op.symbol)

def Sound (e : Expr) : Prop := ∀ fault, ¬ e.Fails fault

/- The outcome of an expression and the nodes that are computed for it. -/
inductive Computes (e : Expr) : Outcome Value → List Expr → Prop where
  | value {v} (denotes : e.Denotes v) (sound : ∀ d ∈ e.postorder, d.Sound) :
      Computes e (result v) e.postorder
  | fault {before d after fault} (split : e.postorder = before ++ d :: after)
      (sound : ∀ c ∈ before, c.Sound) (fails : d.Fails fault) :
      Computes e (failure ⟨fault, d.span⟩) (before ++ [d])

end Expr

section denotation

variable {e left right : Expr} {op : UnaryOp} {sign : BinaryOp} {span : Span} {v w : Value}
  {fault other : EvalFault} {r : Except EvalFault Value}

theorem Expr.Denotes.unique (one : e.Denotes v) (other : e.Denotes w) : v = w := by
  induction one generalizing w with
  | integer | boolean | string => cases other; rfl
  | not _ holds ih =>
    cases other with
    | not inner holds' =>
      cases ih inner
      rw [sameTest holds holds']
  | negate _ ih =>
    cases other with
    | negate inner =>
      cases ih inner
      rfl
  | arithmetic _ _ value ih ih' =>
    cases other with
    | arithmetic first second value' =>
      cases ih first
      cases ih' second
      cases value <;> cases value' <;> rfl
    | order _ _ order => cases value <;> cases order
    | truth _ _ truth => cases value <;> cases truth
  | order _ _ order holds ih ih' =>
    cases other with
    | arithmetic _ _ value => cases value <;> cases order
    | order first second order' holds' =>
      cases ih first
      cases ih' second
      cases order <;> cases order' <;> rw [sameTest holds holds']
    | truth _ _ truth => cases order <;> cases truth
  | truth _ _ truth holds ih ih' =>
    cases other with
    | arithmetic _ _ value => cases value <;> cases truth
    | order _ _ order => cases order <;> cases truth
    | truth first second truth' holds' =>
      cases ih first
      cases ih' second
      cases truth <;> cases truth' <;> rw [sameTest holds holds']

theorem UnaryRule.denotes (rule : UnaryRule op v (.ok w)) (inner : e.Denotes v) :
    (Expr.unary op e span).Denotes w := by
  cases rule with
  | not holds => exact .not inner holds
  | negate => exact .negate inner

theorem BinaryRule.denotes {u : Value} (rule : BinaryRule sign v w (.ok u)) (first : left.Denotes v)
    (second : right.Denotes w) : (Expr.binary sign left right span).Denotes u := by
  cases rule with
  | exact value => exact .arithmetic first second value
  | ordered order holds => exact .order first second order holds
  | equal holds => exact .truth first second .equal holds
  | notEqual holds => exact .truth first second .notEqual holds
  | and holds => exact .truth first second .and holds
  | or holds => exact .truth first second .or holds

theorem failsUnary : (Expr.unary op e span).Fails fault ↔
    ∃ v, e.Denotes v ∧ UnaryRule op v (.error fault) := by
  constructor
  · intro fails
    cases fails with
    | illegalUnary inner other => exact ⟨_, inner, .illegal other⟩
    | unaryOverflow value beyond =>
      cases value with
      | negate inner => exact ⟨_, inner, .overflow beyond⟩
  · rintro ⟨v, inner, rule⟩
    cases rule with
    | overflow beyond => exact .unaryOverflow (.negate inner) beyond
    | illegal other => exact .illegalUnary inner other

theorem failsBinary : (Expr.binary sign left right span).Fails fault ↔
    ∃ v w, left.Denotes v ∧ right.Denotes w ∧ BinaryRule sign v w (.error fault) := by
  constructor
  · intro fails
    cases fails with
    | illegalBinary first second kind other =>
      exact ⟨_, _, first, second, .illegal kind other⟩
    | byZero first second => exact ⟨_, _, first, second, .byZero _⟩
    | binaryOverflow value beyond =>
      cases value with
      | arithmetic first second value => exact ⟨_, _, first, second, .overflow value beyond⟩
  · rintro ⟨v, w, first, second, rule⟩
    cases rule with
    | overflow value beyond => exact .binaryOverflow (.arithmetic first second value) beyond
    | byZero => exact .byZero first second
    | illegal kind other => exact .illegalBinary first second kind other

theorem unaryFault (inner : e.Denotes v) (rule : UnaryRule op v r) :
    (Expr.unary op e span).Fails fault ↔ r = .error fault := by
  rw [failsUnary]
  constructor
  · rintro ⟨v', inner', rule'⟩
    cases inner.unique inner'
    rw [← rule.apply, rule'.apply]
  · rintro rfl
    exact ⟨v, inner, rule⟩

theorem binaryFault (first : left.Denotes v) (second : right.Denotes w)
    (rule : BinaryRule sign v w r) :
    (Expr.binary sign left right span).Fails fault ↔ r = .error fault := by
  rw [failsBinary]
  constructor
  · rintro ⟨v', w', first', second', rule'⟩
    cases first.unique first'
    cases second.unique second'
    rw [← rule.apply, rule'.apply]
  · rintro rfl
    exact ⟨v, w, first, second, rule⟩

theorem Expr.Fails.unique (one : e.Fails fault) (two : e.Fails other) : fault = other := by
  cases e with
  | unary =>
    obtain ⟨v, inner, rule⟩ := failsUnary.mp one
    exact Except.error.inj ((unaryFault inner rule).mp two)
  | binary =>
    obtain ⟨v, w, first, second, rule⟩ := failsBinary.mp one
    exact Except.error.inj ((binaryFault first second rule).mp two)
  | _ => cases one

end denotation

section computing

variable {e outer left right : Expr} {o o' : Outcome Value} {v w : Value}
  {nodes others before later : List Expr} {fault : EvalFault}

theorem firstOnce {α : Type} {p : α → Prop} {before before' after after' : List α} {a b : α}
    (split : before ++ a :: after = before' ++ b :: after') (kept : ∀ c ∈ before, p c)
    (kept' : ∀ c ∈ before', p c) (fails : ¬ p a) (fails' : ¬ p b) : before = before' ∧ a = b := by
  rcases List.append_eq_append_iff.mp split with ⟨between, rfl, rest⟩ | ⟨between, rfl, rest⟩
  · cases between with
    | nil => exact ⟨(List.append_nil _).symm, (List.cons.inj rest).1⟩
    | cons c cs =>
      obtain rfl := (List.cons.inj rest).1
      exact absurd (kept' a (by simp)) fails
  · cases between with
    | nil => exact ⟨List.append_nil _, (List.cons.inj rest).1.symm⟩
    | cons c cs =>
      obtain rfl := (List.cons.inj rest).1
      exact absurd (kept b (by simp)) fails'

theorem Expr.Computes.unique (one : e.Computes o nodes) (two : e.Computes o' others) :
    o = o' ∧ nodes = others := by
  cases one with
  | value denotes sound =>
    cases two with
    | value denotes' => exact ⟨congrArg result (denotes.unique denotes'), rfl⟩
    | fault split _ fails => exact absurd fails (sound _ (by simp [split]) _)
  | fault split sound fails =>
    cases two with
    | value _ sound' => exact absurd fails (sound' _ (by simp [split]) _)
    | fault split' sound' fails' =>
      obtain ⟨rfl, rfl⟩ := firstOnce (split.symm.trans split') sound sound'
        (fun none => none _ fails) (fun none => none _ fails')
      rw [fails.unique fails']
      exact ⟨rfl, rfl⟩

theorem Expr.Computes.within (part : e.Computes o nodes) (before : List Expr) (out : o.Out o')
    (split : outer.postorder = before ++ e.postorder ++ later) (sound : ∀ d ∈ before, d.Sound) :
    outer.Computes o' (before ++ nodes) := by
  -- A failure of a part is that of the whole if nothing before the part fails.
  cases part with
  | value => cases out
  | @fault first d rest fault inside sound' fails =>
    cases out with
    | failure =>
      have whole : outer.postorder = (before ++ first) ++ d :: (rest ++ later) := by
        simp [split, inside]
      have all : ∀ c ∈ before ++ first, c.Sound := by
        intro c mem
        exact (List.mem_append.mp mem).elim (sound c) (sound' c)
      simpa using Expr.Computes.fault whole all fails

theorem Expr.computesRoot {r : Except EvalFault Value} (split : e.postorder = before ++ [e])
    (sound : ∀ d ∈ before, d.Sound) (value : ∀ v, r = .ok v → e.Denotes v)
    (fails : ∀ fault, e.Fails fault ↔ r = .error fault) :
    e.Computes (ofExcept e.span r) e.postorder := by
  cases r with
  | ok v =>
    refine .value (value v rfl) fun d mem => ?_
    rw [split, List.mem_append, List.mem_singleton] at mem
    rcases mem with inside | rfl
    · exact sound d inside
    · intro fault failed
      cases (fails fault).mp failed
  | error fault =>
    rw [split]
    exact .fault split sound ((fails fault).mpr rfl)

end computing

/- Something computed: a literal, or an operator from the values of its sides. -/
inductive Visit where
  | literal (v : Value) (span : Span)
  | unary (op : UnaryOp) (v : Value) (span : Span)
  | binary (op : BinaryOp) (v w : Value) (span : Span)

def Config.visit? : Config → Option Visit
  | ⟨.todo (.expr (.integer n span)), _, _⟩ => some (.literal (.integer n) span)
  | ⟨.todo (.expr (.boolean b span)), _, _⟩ => some (.literal (.boolean b) span)
  | ⟨.todo (.expr (.string text span)), _, _⟩ => some (.literal (.string text) span)
  | ⟨.ended (.result v), .operand op span _, _⟩ => some (.unary op v span)
  | ⟨.ended (.result w), .right op v span _, _⟩ => some (.binary op v w span)
  | _ => none

inductive Expr.Visits : Expr → Visit → Prop where
  | integer {n span} : Visits (.integer n span) (.literal (.integer n) span)
  | boolean {b span} : Visits (.boolean b span) (.literal (.boolean b) span)
  | string {text span} : Visits (.string text span) (.literal (.string text) span)
  | unary {op e span v} (inner : e.Denotes v) : Visits (.unary op e span) (.unary op v span)
  | binary {op left right span v w} (first : left.Denotes v) (second : right.Denotes w) :
      Visits (.binary op left right span) (.binary op v w span)

inductive Traces (limit : Nat) : Config → List Visit → Config → Prop where
  | here (c : Config) : Traces limit c [] c
  | next {c d e visits} (first : c.step limit = some d) (rest : Traces limit d visits e) :
      Traces limit c (c.visit?.toList ++ visits) e

theorem Traces.trans {limit : Nat} {c d e : Config} {visits more : List Visit}
    (first : Traces limit c visits d) (second : Traces limit d more e) :
    Traces limit c (visits ++ more) e := by
  induction first with
  | here => exact second
  | next step _ ih =>
    rw [List.append_assoc]
    exact .next step (ih second)

theorem Traces.out {limit : Nat} {c : Config} {visits : List Visit} {o o' : Outcome Value}
    {p k : Pending Value} {m : Machine} (inner : Traces limit c visits ⟨.ended o, p, m⟩)
    (out : o.Out o')
    (unwinds : ∀ x : {γ : Type} → Outcome γ, p.unwind x m = some ⟨.ended x, k, m⟩) :
    Traces limit c visits ⟨.ended o', k, m⟩ := by
  have last : Traces limit ⟨.ended o, p, m⟩ [] ⟨.ended o', k, m⟩ := by
    have step : Config.step limit _ = _ := stepOut out unwinds
    cases out <;> exact .next step (.here _)
  simpa using inner.trans last

structure Expr.Ends (e : Expr) (o : Outcome Value) (nodes : List Expr) : Prop where
  computes : e.Computes o nodes
  evaluates : ∀ apply m, evalExpr apply e m = (o, m)
  traces : ∃ visits, List.Forall₂ Expr.Visits nodes visits ∧
    ∀ limit k m, Traces limit ⟨.todo (expr e), k, m⟩ visits ⟨.ended o, k, m⟩

namespace Expr.Ends

variable {e left right : Expr} {op : UnaryOp} {sign : BinaryOp} {span : Span} {v w : Value}
  {o o' : Outcome Value} {nodes others : List Expr}

theorem unary (inner : e.Ends (result v) nodes) :
    (Expr.unary op e span).Ends (ofExcept span (op.apply v)) (nodes ++ [.unary op e span]) := by
  obtain ⟨computes, evaluates, visits, visited, traces⟩ := inner
  cases computes with
  | value denotes sound =>
    refine ⟨computesRoot (e := .unary op e span) rfl sound ?_ fun _ => ?_, fun apply m => ?_,
      visits ++ [.unary op v span], ?_, fun limit k m => ?_⟩
    · intro w ok
      exact UnaryRule.denotes (ok ▸ applyUnary op v) denotes
    · exact unaryFault denotes (applyUnary op v)
    · rw [evalExpr, Exec.bindResult (evaluates apply m), Exec.liftExcept]
    · exact List.rel_append visited (.cons (.unary denotes) .nil)
    · refine .next rfl ((traces limit _ m).trans (.next ?_ (.here _)))
      exact congrArg some (performEnds (Exec.liftExcept _ _))

theorem unaryOut (inner : e.Ends o nodes) (out : o.Out o') :
    (Expr.unary op e span).Ends o' nodes := by
  obtain ⟨computes, evaluates, visits, visited, traces⟩ := inner
  refine ⟨computes.within [] out rfl (by simp), fun apply m => ?_, visits, visited,
    fun limit k m => ?_⟩
  · rw [evalExpr, Exec.bindOut (evaluates apply m) out]
  · exact .next rfl ((traces limit _ m).out out fun _ => rfl)

theorem binary (first : left.Ends (result v) nodes) (second : right.Ends (result w) others) :
    (Expr.binary sign left right span).Ends (ofExcept span (sign.apply v w))
      (nodes ++ others ++ [.binary sign left right span]) := by
  obtain ⟨computes, evaluates, visits, visited, traces⟩ := first
  obtain ⟨computes', evaluates', visits', visited', traces'⟩ := second
  cases computes with
  | value denotes sound =>
    cases computes' with
    | value denotes' sound' =>
      have all : ∀ d ∈ left.postorder ++ right.postorder, d.Sound := by
        intro d mem
        exact (List.mem_append.mp mem).elim (sound d) (sound' d)
      refine ⟨computesRoot (e := .binary sign left right span) rfl all ?_ fun _ => ?_,
        fun apply m => ?_, visits ++ visits' ++ [.binary sign v w span], ?_, fun limit k m => ?_⟩
      · intro u ok
        exact BinaryRule.denotes (ok ▸ applyBinary sign v w) denotes denotes'
      · exact binaryFault denotes denotes' (applyBinary sign v w)
      · rw [evalExpr, Exec.bindResult (evaluates apply m), Exec.bindResult (evaluates' apply m),
          Exec.liftExcept]
      · exact List.rel_append (List.rel_append visited visited')
          (.cons (.binary denotes denotes') .nil)
      · have last : Traces limit ⟨.ended (result w), .right sign v span k, m⟩
            [.binary sign v w span] ⟨.ended (ofExcept span (sign.apply v w)), k, m⟩ :=
          .next (congrArg some (performEnds (Exec.liftExcept _ _))) (.here _)
        rw [List.append_assoc]
        exact .next rfl ((traces limit _ m).trans (.next rfl ((traces' limit _ m).trans last)))

theorem leftOut (first : left.Ends o nodes) (out : o.Out o') :
    (Expr.binary sign left right span).Ends o' nodes := by
  obtain ⟨computes, evaluates, visits, visited, traces⟩ := first
  refine ⟨computes.within [] out (List.append_assoc ..) (by simp), fun apply m => ?_,
    visits, visited, fun limit k m => ?_⟩
  · rw [evalExpr, Exec.bindOut (evaluates apply m) out]
  · exact .next rfl ((traces limit _ m).out out fun _ => rfl)

theorem rightOut (first : left.Ends (result v) nodes) (second : right.Ends o others)
    (out : o.Out o') : (Expr.binary sign left right span).Ends o' (nodes ++ others) := by
  obtain ⟨computes, evaluates, visits, visited, traces⟩ := first
  obtain ⟨computes', evaluates', visits', visited', traces'⟩ := second
  cases computes with
  | value denotes sound =>
    refine ⟨computes'.within _ out rfl sound, fun apply m => ?_, visits ++ visits',
      List.rel_append visited visited', fun limit k m => ?_⟩
    · rw [evalExpr, Exec.bindResult (evaluates apply m), Exec.bindOut (evaluates' apply m) out]
    · exact .next rfl ((traces limit _ m).trans
        (.next rfl ((traces' limit _ m).out out fun _ => rfl)))

end Expr.Ends

theorem Expr.Elementary.ends {e : Expr} (elementary : e.Elementary) :
    ∃ o nodes, e.Ends o nodes := by
  induction elementary with
  | integer | boolean | string =>
    refine ⟨_, _, .value (by constructor) ?_, fun _ _ => rfl, [_], .cons (by constructor) .nil,
      fun limit k m => .next rfl (.here _)⟩
    simp [Expr.postorder, Expr.Sound]
    intro fault fails
    cases fails
  | unary _ ih =>
    obtain ⟨o, nodes, inner⟩ := ih
    cases o with
    | result v => exact ⟨_, _, inner.unary⟩
    | leaving v => exact ⟨_, _, inner.unaryOut (.leaving v)⟩
    | failure error => exact ⟨_, _, inner.unaryOut (.failure error)⟩
  | binary _ _ ih ih' =>
    obtain ⟨o, nodes, first⟩ := ih
    obtain ⟨o', others, second⟩ := ih'
    cases o with
    | result v =>
      cases o' with
      | result w => exact ⟨_, _, first.binary second⟩
      | leaving w => exact ⟨_, _, first.rightOut second (.leaving w)⟩
      | failure error => exact ⟨_, _, first.rightOut second (.failure error)⟩
    | leaving v => exact ⟨_, _, first.leftOut (.leaving v)⟩
    | failure error => exact ⟨_, _, first.leftOut (.failure error)⟩

/-- An expression of literals and operators has a value if and only if none of its nodes fails on
what its operands denote, and the value is what the expression denotes. Else its outcome is the
failure of the first node that does, from left to right and behind its operands. Nothing else
changes, and stepping computes just those nodes one after the other, none being passed over. -/
theorem operatorsExact {e : Expr} (elementary : e.Elementary) (apply : Application) (m : Machine)
    (limit : Nat) (k : Pending Value) :
    ((∃ v, (evalExpr apply e m).1 = result v) ↔ ∀ d ∈ e.postorder, d.Sound) ∧
    (∀ o after, evalExpr apply e m = (o, after) ↔ after = m ∧ ∃ nodes, e.Computes o nodes) ∧
    ∀ o nodes, e.Computes o nodes → ∃ visits, List.Forall₂ Expr.Visits nodes visits ∧
      Traces limit ⟨.todo (expr e), k, m⟩ visits ⟨.ended o, k, m⟩ := by
  obtain ⟨o, nodes, computes, evaluates, visits, visited, traces⟩ := elementary.ends
  rw [evaluates apply m]
  refine ⟨?_, fun o' after => ?_, fun o' others computes' => ?_⟩
  · cases computes with
    | value denotes sound => exact ⟨fun _ => sound, fun _ => ⟨_, rfl⟩⟩
    | fault split _ fails =>
      constructor
      · rintro ⟨v, ⟨_⟩⟩
      · intro sound
        exact absurd fails (sound _ (by simp [split]) _)
  · constructor
    · rintro ⟨⟩
      exact ⟨rfl, nodes, computes⟩
    · rintro ⟨rfl, others, computes'⟩
      rw [(computes.unique computes').1]
  · obtain ⟨rfl, rfl⟩ := computes.unique computes'
    exact ⟨visits, visited, traces limit k m⟩

def illOrdered : Expr :=
  let within (i j : Nat) : Span := ⟨⟨i, 1, i + 1⟩, ⟨j, 1, j + 1⟩⟩
  let product : Expr := .binary .multiply (.unary .negate (.integer 2 (within 1 2)) (within 0 2))
    (.integer 3 (within 5 6)) (within 0 6)
  .binary .or (.binary .notEqual product (.integer 6 (within 10 11)) (within 0 11))
    (.binary .less (.boolean true (within 15 19)) (.string "x" (within 22 25)) (within 15 25))
    (within 0 25)

theorem illOrderedFails :
    let e : EvalError :=
      ⟨.illegalBinary .less (.boolean true) (.string "x"), ⟨⟨15, 1, 16⟩, ⟨25, 1, 26⟩⟩⟩
    let m := (Session.start 0).machine
    illOrdered.Elementary ∧ evalExpr (applyWithin 0) illOrdered m = (failure e, m) ∧
      ∃ nodes visits, illOrdered.Computes (failure e) nodes ∧
        List.Forall₂ Expr.Visits nodes visits ∧
        Traces 0 ⟨.todo (expr illOrdered), .done, m⟩ visits ⟨.ended (failure e), .done, m⟩ := by
  intro e m
  have elementary : illOrdered.Elementary := by
    repeat constructor
  obtain ⟨_, outcome, traces⟩ := operatorsExact elementary (applyWithin 0) m 0 .done
  have fails : evalExpr (applyWithin 0) illOrdered m = (failure e, m) := rfl
  obtain ⟨_, nodes, computes⟩ := (outcome _ _).mp fails
  obtain ⟨visits, visited, traced⟩ := traces _ _ computes
  exact ⟨elementary, fails, nodes, visits, computes, visited, traced⟩

end Scriptlet

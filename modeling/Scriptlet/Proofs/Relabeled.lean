import Scriptlet.Proofs.Alike

/-! What evaluation gives under other labels.
Where one map of names and one map of spans make the labels, what is alike is the image: evaluating
the image of a program in the image of a session is evaluating the program and taking the image of
what comes out. -/
namespace Scriptlet

section images

variable (n : String → String) (g : Span → Span)

def Value.relabel : Value → Value
  | function f => .function (f.relabel n g)
  | v => v

def EvalFault.relabel : EvalFault → EvalFault
  | unboundIdentifier name => .unboundIdentifier (n name)
  | illegalUnary op operand => .illegalUnary op (operand.relabel n g)
  | illegalBinary op left right => .illegalBinary op (left.relabel n g) (right.relabel n g)
  | notCallable callee => .notCallable (callee.relabel n g)
  | wrongArity function expected given => .wrongArity (function.map n) expected given
  | fault => fault

def EvalError.relabel (e : EvalError) : EvalError := ⟨e.fault.relabel n g, g e.span⟩

def relabelAnswer : Except EvalError Value → Except EvalError Value
  | .ok v => .ok (v.relabel n g)
  | .error e => .error (e.relabel n g)

def Frame.relabel (frame : Frame) : Frame := frame.map fun b => (n b.1, b.2.relabel n g)

def Store.relabel (s : Store) : Store := ⟨s.frames.map (Frame.relabel n g), s.created⟩

def Session.relabel (s : Session) : Session :=
  { s with machine := { s.machine with store := s.machine.store.relabel n g } }

def Labeling.only {n : String → String} (distinct : n.Injective) (g : Span → Span) : Labeling :=
  ⟨n, distinct, (· = g)⟩

end images

section exact

variable {n : String → String} {distinct : n.Injective} {g : Span → Span}

theorem Value.alikeOnly {v v' : Value} : v.Alike (.only distinct g) v' ↔ v' = v.relabel n g := by
  constructor
  · intro alike
    cases alike with
    | function allowed f =>
      cases allowed
      rfl
    | _ => rfl
  · rintro rfl
    cases v with
    | integer k => exact .integer k
    | boolean b => exact .boolean b
    | string s => exact .string s
    | unit => exact .unit
    | function f => exact .function rfl f

theorem EvalFault.alikeOnly {fault fault' : EvalFault}
    (alike : fault.Alike (.only distinct g) fault') : fault' = fault.relabel n g := by
  cases alike with
  | illegalUnary op operand => rw [Value.alikeOnly.mp operand, relabel]
  | illegalBinary op left right =>
    rw [Value.alikeOnly.mp left, Value.alikeOnly.mp right, relabel]
  | notCallable callee => rw [Value.alikeOnly.mp callee, relabel]
  | _ => rfl

theorem EvalError.alikeOnly {e e' : EvalError} (alike : e.Alike (.only distinct g) e') :
    e' = e.relabel n g := by
  obtain ⟨fault, span⟩ := e
  obtain ⟨fault', span'⟩ := e'
  obtain ⟨faults, _, rfl, rfl⟩ := alike
  exact congrArg (EvalError.mk · _) (EvalFault.alikeOnly faults)

theorem answersOnly {r r' : Except EvalError Value} (alike : ExceptAlike
    (EvalError.Alike (.only distinct g)) (Value.Alike (.only distinct g)) r r') :
    r' = relabelAnswer n g r := by
  cases alike with
  | ok values => exact congrArg Except.ok (Value.alikeOnly.mp values)
  | error errors => exact congrArg Except.error (EvalError.alikeOnly errors)

theorem Frame.alikeOnly {frame frame' : Frame} :
    Frame.Alike (.only distinct g) frame frame' ↔ frame' = frame.relabel n g := by
  constructor
  · intro bindings
    induction bindings with
    | nil => rfl
    | @cons b b' _ _ same _ ih =>
      have here : b' = (n b.1, b.2.relabel n g) := Prod.ext same.1 (Value.alikeOnly.mp same.2)
      rw [here, ih]
      rfl
  · rintro rfl
    induction frame with
    | nil => exact .nil
    | cons b frame ih => exact .cons ⟨rfl, Value.alikeOnly.mpr rfl⟩ ih

theorem Store.frameRelabel (s : Store) (i : Nat) :
    (s.relabel n g).frame i = (s.frame i).relabel n g := by
  by_cases inside : i < s.frames.size
  · simp [Store.frame, Store.relabel, inside]
  · simp [Store.frame, Store.relabel, inside, Frame.relabel]

theorem Store.alikeOnly {s s' : Store} :
    s.Alike (.only distinct g) s' ↔ s' = s.relabel n g := by
  constructor
  · rintro ⟨size, created, frames⟩
    refine Store.sameFrames (by simpa [Store.relabel] using size) (fun i => ?_) created
    rw [s.frameRelabel, Frame.alikeOnly.mp (frames i)]
  · rintro rfl
    refine ⟨by simp [Store.relabel], rfl, fun i => ?_⟩
    exact Frame.alikeOnly.mpr (s.frameRelabel i)

theorem Session.alikeOnly {s s' : Session} :
    s.Alike (.only distinct g) s' ↔ s' = s.relabel n g := by
  constructor
  · rintro ⟨⟨stores, current, active⟩, globals, limit⟩
    obtain ⟨⟨store', current', active'⟩, globals', limit'⟩ := s'
    rw [Store.alikeOnly] at stores
    simp only at stores current active globals limit
    simp only [stores, current, active, globals, limit, Session.relabel]
  · rintro rfl
    exact ⟨⟨Store.alikeOnly.mpr rfl, rfl, rfl⟩, rfl, rfl⟩

end exact

section sessions

variable {n : String → String} (distinct : n.Injective) (g : Span → Span) (s : Session)
include distinct

theorem Session.evaluateRelabel (p : Program) : (s.relabel n g).evaluate (p.relabel n g) =
    (relabelAnswer n g (s.evaluate p).1, (s.evaluate p).2.relabel n g) := by
  have start : s.Alike (.only distinct g) (s.relabel n g) := Session.alikeOnly.mpr rfl
  obtain ⟨answers, sessions⟩ := start.evaluate rfl p
  exact Prod.ext (answersOnly answers) (Session.alikeOnly.mp sessions)

theorem Session.getRelabel (name : String) :
    (s.relabel n g).get? (n name) = (s.get? name).map (Value.relabel n g) := by
  have alike : s.Alike (.only distinct g) (s.relabel n g) := Session.alikeOnly.mpr rfl
  have found : Option.Rel _ (s.get? name) ((s.relabel n g).get? (n name)) := alike.get name
  revert found
  generalize (s.relabel n g).get? (n name) = w
  cases s.get? name with
  | none => rintro ⟨⟩; rfl
  | some v => rintro ⟨values⟩; exact congrArg some (Value.alikeOnly.mp values)

end sessions

end Scriptlet

import Scriptlet.Proofs.Registry

/-! Functions are the same if one evaluation gave them.
A function is numbered by the evaluation of its literal and keeps its number wherever it is passed,
so the numbers tell evaluations apart. A function created from outside counts as one more. What a
function is made of makes no difference. -/
namespace Scriptlet

section

variable {G : Registry} {limit bound : Nat} {c d : Config} {f g : Closure} {fs : List Closure}

theorem functionsEqual (f g : Closure) : BinaryOp.equal.apply (.function f) (.function g) =
    .ok (.boolean (f.creation = g.creation)) := rfl

theorem Registry.equalAt (G : Registry) {j k : Nat} (first : G.functions[j]? = some f)
    (second : G.functions[k]? = some g) :
    BinaryOp.equal.apply (.function f) (.function g) = .ok (.boolean (j = k)) := by
  rw [functionsEqual, G.creationAt first, G.creationAt second]

end

/-- At every moment of a history the functions that there are, also those pending and those bound in
any scope, are among the ones that were created so far, by the evaluations of literals or from
outside. Two of these are equal if and only if they stem from one creation, and then they are alike
in all they are made of. A literal that is evaluated next gives a function with its own definition
and the current scope, which equals none of them. -/
theorem identityIsCreation (limit : Nat) {held : List Scope} {fs : List Closure}
    {c : Config} (moment : Moment limit held fs c) :
    (∀ f, c.Holds (.function f) → f ∈ fs) ∧
    (∀ (j k : Nat) f g, fs[j]? = some f → fs[k]? = some g →
      BinaryOp.equal.apply (.function f) (.function g) = .ok (.boolean (j = k))) ∧
    (∀ f ∈ fs, ∀ g ∈ fs,
      BinaryOp.equal.apply (.function f) (.function g) = .ok (.boolean true) ↔ f = g) ∧
    ∀ name parameters body bound d, c.Literal name parameters body → c.step bound = some d →
      ∃ f, d.Yields f ∧ f.name = name ∧ f.parameters = parameters ∧ f.body = body ∧
        f.scope = c.machine.current ∧
        ∀ g ∈ fs, BinaryOp.equal.apply (.function f) (.function g) = .ok (.boolean false) := by
  obtain ⟨G, rfl, fits, _⟩ := moment.fits
  refine ⟨fun f => fits.listed, fun j k f g => G.equalAt, ?_, ?_⟩
  · intro f first g second
    rw [functionsEqual]
    constructor
    · intro equal
      have same := of_decide_eq_true (Value.boolean.inj (Except.ok.inj equal))
      exact G.functionOnce first second same
    · rintro rfl
      rw [decide_eq_true rfl]
  · intro name parameters body bound d literal step
    obtain ⟨G', _, f, function, grows, parts⟩ := literalFits fits literal step
    refine ⟨f, function, parts.1, parts.2.1, parts.2.2.1, parts.2.2.2, fun g member => ?_⟩
    obtain ⟨k, there, rfl⟩ := List.mem_iff_getElem.mp member
    have new : G'.functions[G.functions.length]? = some f := by simp [grows.functions]
    have old : G'.functions[k]? = some G.functions[k] := by
      rw [grows.functions, List.getElem?_append_left there, List.getElem?_eq_getElem there]
    rw [G'.equalAt new old, decide_eq_false (Nat.ne_of_gt there)]

def makers : Program :=
  let name (text : String) : Ident := ⟨text, .nowhere⟩
  let made : Expr := .call (.name (name "make")) [] .nowhere
  let inner : Expr := .function none [] (.mk [] .nowhere) .nowhere
  ⟨[.expression (.function (some (name "make")) [] (.mk [.expression inner .nowhere] .nowhere)
      .nowhere) .nowhere,
    .binding (name "a") made .nowhere,
    .binding (name "b") made .nowhere]⟩

theorem madeTwice : ∃ held fs f g,
    let c := ((Session.start 1).after [.evaluate makers]).evaluating ⟨[]⟩
    Moment 1 held fs c ∧ c.Holds (.function f) ∧ c.Holds (.function g) ∧ f ∈ fs ∧ g ∈ fs ∧
      f.body.statements = g.body.statements ∧
      BinaryOp.equal.apply (.function f) (.function f) = .ok (.boolean true) ∧
      BinaryOp.equal.apply (.function f) (.function g) ≠ .ok (.boolean true) := by
  have shown : (((Session.start 1).after [.evaluate makers]).machine.store.frame 0).map
      (·.2.function?.map fun f => (f.creation, f.body.statements.length)) =
        [some (2, 0), some (1, 0), some (0, 1)] := by decide +kernel
  obtain ⟨fs, moment⟩ := betweenPrograms 1 makers ⟨[]⟩
  -- Of this session no more is needed than these two facts, and nothing should compute it again.
  generalize (Session.start 1).after [.evaluate makers] = s at shown moment ⊢
  have made {n : Nat} (among : some (n, 0) ∈ [some (2, 0), some (1, 0), some (0, 1)]) :
      ∃ f, (s.evaluating ⟨[]⟩).Holds (.function f) ∧ f.creation = n ∧ f.body.statements = [] := by
    rw [← shown] at among
    obtain ⟨⟨name, v⟩, bound, looks⟩ := List.mem_map.mp among
    obtain ⟨f, there, pair⟩ := Option.map_eq_some_iff.mp looks
    obtain rfl := Value.functionThere.mp there
    obtain ⟨number, empty⟩ := Prod.mk.inj pair
    exact ⟨f, .bound bound, number, List.eq_nil_of_length_eq_zero empty⟩
  obtain ⟨f, held, number, empty⟩ := made (n := 1) (by decide)
  obtain ⟨g, held', number', empty'⟩ := made (n := 2) (by decide)
  obtain ⟨among, _, equal, _⟩ := identityIsCreation 1 moment
  have one := among f held
  have two := among g held'
  have differ : f ≠ g := by
    rintro rfl
    exact absurd (number.symm.trans number') (by decide)
  exact ⟨_, _, f, g, moment, held, held', one, two, empty.trans empty'.symm,
    (equal f one f one).mpr rfl, mt (equal f one g two).mp differ⟩

end Scriptlet

import Scriptlet.Proofs.RulesExact

/-! What evaluation leaves as it is.
However it ends, it only adds to what there was: scopes to the store, and to the current scope names
bound by what it evaluates. Names bound inside a block, a branch or a body go to its own scope,
which is a new one. -/
namespace Scriptlet

mutual

def Expr.binds : Expr → List String
  | .integer .. | .boolean .. | .string .. | .name .. | .function none .. => []
  | .function (some own) .. => [own.text]
  | .unary _ operand _ => operand.binds
  | .binary _ left right _ => left.binds ++ right.binds
  | .conditional condition _ _ _ => condition.binds
  | .call callee arguments _ => callee.binds ++ argumentsBind arguments

def argumentsBind : List Expr → List String
  | [] => []
  | e :: es => e.binds ++ argumentsBind es

end

def Stmt.binds : Stmt → List String
  | .binding own value _ => value.binds ++ [own.text]
  | .returning none _ | .block .. => []
  | .returning (some value) _ | .expression value _ => value.binds

def Job.binds : {α : Type} → Job α → List String
  | _, expr e => e.binds
  | _, exprs es => argumentsBind es
  | _, stmt t => t.binds
  | _, stmts _ ts => ts.flatMap Stmt.binds
  | _, block _ | _, application .. => []

/- Of the scopes there were, only the current one may change, for the given names alone, and none
loses a name. -/
structure Keeps (scope : Scope) (names : List String) (s s₁ : Store) : Prop where
  grown : s.frames.size ≤ s₁.frames.size
  others : ∀ i < s.frames.size, i ≠ scope.own ∨ names = [] → s₁.frame i = s.frame i
  bindings : ∀ i < s.frames.size, ∀ name ∉ names,
    (s₁.frame i).lookup name = (s.frame i).lookup name
  bound : ∀ i < s.frames.size, ∀ name,
    ((s.frame i).lookup name).isSome → ((s₁.frame i).lookup name).isSome

structure Untouched (s s₁ : Store) : Prop where
  grown : s.frames.size ≤ s₁.frames.size
  frames : ∀ i < s.frames.size, s₁.frame i = s.frame i

section

variable {scope inner : Scope} {names further : List String} {s s₁ s₂ : Store}

theorem Store.sizeDefine (s : Store) (scope : Scope) (name : String) (v : Value) :
    (s.define scope name v).frames.size = s.frames.size := by
  simp [Store.define]

theorem Untouched.refl (s : Store) : Untouched s s := ⟨Nat.le_refl _, fun _ _ => rfl⟩

theorem Untouched.keeps (h : Untouched s s₁) : Keeps scope names s s₁ where
  grown := h.grown
  others i inside _ := h.frames i inside
  bindings i inside name _ := by rw [h.frames i inside]
  bound i inside name some := by rwa [h.frames i inside]

theorem Keeps.untouched (h : Keeps scope [] s s₁) : Untouched s s₁ :=
  ⟨h.grown, fun i inside => h.others i inside (.inr rfl)⟩

theorem Keeps.trans (first : Keeps scope names s s₁) (second : Keeps scope further s₁ s₂) :
    Keeps scope (names ++ further) s s₂ where
  grown := Nat.le_trans first.grown second.grown
  others i inside unbound := by
    simp only [List.append_eq_nil_iff] at unbound
    rw [second.others i (Nat.lt_of_lt_of_le inside first.grown) (unbound.imp_right And.right),
      first.others i inside (unbound.imp_right And.left)]
  bindings i inside name absent := by
    simp only [List.mem_append, not_or] at absent
    rw [second.bindings i (Nat.lt_of_lt_of_le inside first.grown) name absent.2,
      first.bindings i inside name absent.1]
  bound i inside name some :=
    second.bound i (Nat.lt_of_lt_of_le inside first.grown) name (first.bound i inside name some)

theorem Keeps.weaken (h : Keeps scope names s s₁) : Keeps scope (names ++ further) s s₁ :=
  h.trans (Untouched.refl s₁).keeps

theorem Keeps.after (h : Keeps scope names s₁ s₂) (before : Untouched s s₁) :
    Keeps scope names s s₂ := by
  have first : Keeps scope [] s s₁ := before.keeps
  exact first.trans h

theorem Keeps.before (h : Keeps scope names s s₁) (after : Untouched s₁ s₂) :
    Keeps scope names s s₂ := by
  have second : Keeps scope [] s₁ s₂ := after.keeps
  have both := h.trans second
  rwa [List.append_nil] at both

theorem Keeps.define (s : Store) (scope : Scope) (name : String) (v : Value) :
    Keeps scope [name] s (s.define scope name v) where
  grown := Nat.le_of_eq (s.sizeDefine scope name v).symm
  others i _ unbound := by
    rw [s.frameDefine scope name v]
    exact if_neg fun same => unbound.elim (fun other => other same.1.symm) (by simp)
  bindings i _ other absent := by
    have differ : (other == name) = false := by simpa using absent
    rw [s.frameDefine scope name v]
    split
    · rw [List.lookup_cons, differ]
    · rfl
  bound i _ other some := by
    rw [s.frameDefine scope name v]
    split
    · rw [List.lookup_cons]
      split
      · rfl
      · exact some
    · exact some

theorem Untouched.create (s : Store) : Untouched s s.create := ⟨Nat.le_refl _, fun _ _ => rfl⟩

theorem Untouched.openChild {outer : Scope} (opened : s.openChild outer = (inner, s₁)) :
    Untouched s s₁ := by
  cases opened
  constructor
  · simp
  · intro i inside
    exact (s.frameOpen outer.chain [] i).trans (if_neg (Nat.ne_of_lt inside))

theorem openedOwn {outer : Scope} (opened : s.openChild outer = (inner, s₁)) :
    inner.own = s.frames.size := by
  cases opened
  rfl

theorem openedSize {outer : Scope} (opened : s.openChild outer = (inner, s₁)) :
    s₁.frames.size = s.frames.size + 1 := by
  cases opened
  exact Array.size_push []

theorem openedFrame {outer : Scope} (opened : s.openChild outer = (inner, s₁)) (i : Nat) :
    s₁.frame i = if i = s.frames.size then [] else s.frame i := by
  cases opened
  exact s.frameOpen outer.chain [] i

theorem Keeps.inside (before : Untouched s s₁) (new : s.frames.size ≤ inner.own)
    (h : Keeps inner names s₁ s₂) : Untouched s s₂ where
  grown := Nat.le_trans before.grown h.grown
  frames i inside := by
    have other : i ≠ inner.own := Nat.ne_of_lt (Nat.lt_of_lt_of_le inside new)
    rw [h.others i (Nat.lt_of_lt_of_le inside before.grown) (.inl other), before.frames i inside]

theorem defineAllKeeps (ps : List Ident) (vs : List Value) (s : Store) :
    Keeps scope (ps.map Ident.text) s (s.defineAll scope ps vs) := by
  induction ps generalizing vs s with
  | nil => exact (Untouched.refl s).keeps
  | cons p ps ih =>
    cases vs with
    | nil => exact (Untouched.refl s).keeps
    | cons v vs => exact (Keeps.define s scope p.text v).trans (ih vs _)

end

theorem Runs.keeps {limit : Nat} {α : Type} {active scope s s₁} {job : Job α} {o : Outcome α}
    (h : Runs limit active scope s job o s₁) : Keeps scope job.binds s s₁ := by
  induction h with
  | integer | boolean | string | name | unbound | noExprs | noStatements | returning | wrongArity
  | tooDeep => exact (Untouched.refl _).keeps
  | anonymous => exact (Untouched.create _).keeps
  | named => exact (Keeps.define _ _ _ _).after (.create _)
  | unary _ _ ih | unaryOut _ _ ih | conditionOut _ _ ih | noAlternative _ _ ih
  | returningValue _ ih | returningOut _ _ ih | expression _ ih | blockStatement _ ih => exact ih
  | binary _ _ _ ih ih' | rightOut _ _ _ ih ih' | argumentsOut _ _ _ ih ih' | moreExprs _ _ ih ih'
  | tailOut _ _ _ ih ih' | moreStatements _ _ ih ih' => exact ih.trans ih'
  | leftOut _ _ ih | notCallable _ _ ih | calleeOut _ _ ih | headOut _ _ ih | bindingOut _ _ ih
  | statementOut _ _ ih => exact ih.weaken
  | consequence _ _ _ ih ih' | alternative _ _ _ ih ih' => exact ih.before ih'.untouched
  | call _ _ _ ih ih' ih'' => exact (ih.trans ih').before ih''.untouched
  | binding _ ih => exact ih.trans (.define _ _ _ _)
  | @entered _ _ _ _ s₁ _ f vs _ _ _ _ opened _ ih =>
    have new := Nat.le_of_eq (openedOwn opened).symm
    have parameters := Keeps.inside (.openChild opened) new (defineAllKeeps f.parameters vs s₁)
    exact (Keeps.inside parameters new ih).keeps
  | inside opened _ ih =>
    have new := Nat.le_of_eq (openedOwn opened).symm
    exact (Keeps.inside (.openChild opened) new ih).keeps

theorem Job.execKeeps {α : Type} (job : Job α) (n : Nat) (m : Machine) :
    Keeps m.current job.binds m.store (job.exec (applyWithin n) m).2.store := by
  obtain ⟨o, store, ran, ends⟩ := job.execEnds n m
  rw [ends]
  exact ran.keeps

/-- Of the scopes that there are, whatever function bodies run, statements and expressions change
at most the current one, by what they bind there themselves, and blocks and calls change none. -/
theorem scopesKept (n : Nat) (m : Machine) :
    (∀ t, Keeps m.current t.binds m.store (evalStmt (applyWithin n) t m).2.store) ∧
      (∀ e, Keeps m.current e.binds m.store (evalExpr (applyWithin n) e m).2.store) ∧
      (∀ b, Untouched m.store (evalBlock (applyWithin n) b m).2.store) ∧
      ∀ f vs span, Untouched m.store (applyWithin n f vs span m).2.store := by
  refine ⟨?_, ?_, ?_, ?_⟩
  · intro t
    exact (Job.stmt t).execKeeps n m
  · intro e
    exact (Job.expr e).execKeeps n m
  · intro b
    exact ((Job.block b).execKeeps n m).untouched
  · intro f vs span
    exact ((Job.application f vs span).execKeeps n m).untouched

end Scriptlet

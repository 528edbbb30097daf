import Mathlib.Control.Monad.Basic
import Scriptlet.Proofs.Provenance

/-! Bindings that nothing mentions.
Some bindings of one frame are forgotten. An evaluation in which no node mentions their names goes
the same way without them, so two stores that differ in nothing else have the same outcome. Bodies
that it may enter are those of functions that can be reached from its scope. -/
namespace Scriptlet

open Outcome Job

/- What the frames of a scope hold, and those of the scopes in which functions there were created. -/
inductive Store.Reachable (s : Store) : Scope → Value → Prop where
  | bound {scope i name v} (visible : i ∈ scope.chain)
      (found : (s.frame i).lookup name = some v) : Reachable s scope v
  | captured {scope f v} (function : Reachable s scope (.function f))
      (inner : Reachable s f.scope v) : Reachable s scope v

def Store.forget (own : Nat) (hidden : List String) (s : Store) : Store :=
  { s with frames := s.frames.modify own (·.filter fun b => b.1 ∉ hidden) }

section mentions

variable {name : String}

mutual

theorem exprMentions : (e : Expr) → name ∈ e.binds → (Node.expr e).Mentions name
  | .unary _ operand _, bound => (exprMentions operand bound).deeper (by simp [Node.children])
  | .binary _ left right _, bound => by
    rcases List.mem_append.mp bound with bound | bound
    · exact (exprMentions left bound).deeper (by simp [Node.children])
    · exact (exprMentions right bound).deeper (by simp [Node.children])
  | .conditional test _ _ _, bound => (exprMentions test bound).deeper (by simp [Node.children])
  | .function (some own) _ _ _, bound => by
    obtain rfl := List.mem_singleton.mp bound
    exact (Node.Mentions.self (n := .introduced own) rfl).deeper (by simp [Node.children])
  | .call callee arguments _, bound => by
    rcases List.mem_append.mp bound with bound | bound
    · exact (exprMentions callee bound).deeper (by simp [Node.children])
    · obtain ⟨e, argument, mentions⟩ := argumentsMention arguments bound
      exact mentions.deeper (by simp [Node.children, argument])

theorem argumentsMention : (es : List Expr) → name ∈ argumentsBind es →
    ∃ e ∈ es, (Node.expr e).Mentions name
  | e :: es, bound => by
    rcases List.mem_append.mp bound with bound | bound
    · exact ⟨e, .head _, exprMentions e bound⟩
    · obtain ⟨e, member, mentions⟩ := argumentsMention es bound
      exact ⟨e, .tail _ member, mentions⟩

end

theorem stmtMentions {t : Stmt} (bound : name ∈ t.binds) : (Node.stmt t).Mentions name := by
  cases t with
  | binding own value span =>
    rcases List.mem_append.mp bound with bound | bound
    · exact (exprMentions value bound).deeper (by simp [Node.children])
    · obtain rfl := List.mem_singleton.mp bound
      exact (Node.Mentions.self (n := .introduced own) rfl).deeper (by simp [Node.children])
  | returning value span =>
    cases value with
    | none => cases bound
    | some value => exact (exprMentions value bound).deeper (by simp [Node.children])
  | expression value span => exact (exprMentions value bound).deeper (by simp [Node.children])
  | block body span => cases bound

end mentions

section forgetting

variable {s s₁ : Store} {own : Nat} {hidden : List String} {name : String} {v : Value}
  {scope inner outer : Scope}

theorem Store.frameForget (s : Store) (own : Nat) (hidden : List String) (i : Nat) :
    (s.forget own hidden).frame i =
      if own = i then (s.frame i).filter fun b => b.1 ∉ hidden else s.frame i := by
  by_cases inside : i < s.frames.size
  · simp [Store.frame, Store.forget, Array.getElem_modify, inside]
  · simp [Store.frame, Store.forget, inside]

theorem lookupFilter (frame : Frame) (shown : name ∉ hidden) :
    (frame.filter fun b => b.1 ∉ hidden).lookup name = frame.lookup name := by
  induction frame with
  | nil => rfl
  | cons b frame ih =>
    rw [List.lookup_cons (a := name)]
    by_cases kept : b.1 ∈ hidden
    · have other : (name == b.1) = false := by
        rw [beq_eq_false_iff_ne]
        rintro rfl
        exact shown kept
      rw [List.filter_cons_of_neg (by simpa using kept), ih, other]
    · rw [List.filter_cons_of_pos (by simpa using kept), List.lookup_cons, ih]

theorem Store.lookupForget (s : Store) (own : Nat) (shown : name ∉ hidden) (i : Nat) :
    ((s.forget own hidden).frame i).lookup name = (s.frame i).lookup name := by
  rw [s.frameForget own hidden i]
  split
  · exact lookupFilter _ shown
  · rfl

theorem Bound.forget {chain : List Nat} (bound : Bound s name v chain) (shown : name ∉ hidden) :
    Bound (s.forget own hidden) name v chain := by
  simpa only [boundLookup, s.lookupForget own shown] using bound

theorem Unbound.forget {chain : List Nat} (absent : Unbound s name chain)
    (shown : name ∉ hidden) : Unbound (s.forget own hidden) name chain := by
  simpa only [Unbound, s.lookupForget own shown] using absent

theorem Store.sizeForget (s : Store) (own : Nat) (hidden : List String) :
    (s.forget own hidden).frames.size = s.frames.size := by
  simp [Store.forget]

theorem Store.forgetDefine (apart : scope.own = own → name ∉ hidden) :
    (s.define scope name v).forget own hidden = (s.forget own hidden).define scope name v := by
  refine Store.sameFrames (by simp only [sizeForget, sizeDefine]) (fun i => ?_) rfl
  simp only [frameForget, frameDefine, sizeForget]
  by_cases here : scope.own = i ∧ i < s.frames.size
  · by_cases kept : own = i
    · simp [here, kept, apart (here.1.trans kept.symm)]
    · simp only [if_neg kept]
  · simp only [if_neg here]

theorem Store.forgetHidden (s : Store) (scope : Scope) (v : Value) (secret : name ∈ hidden) :
    (s.define scope name v).forget scope.own hidden = s.forget scope.own hidden := by
  refine Store.sameFrames (by simp only [sizeForget, sizeDefine]) (fun i => ?_) rfl
  simp only [frameForget, frameDefine]
  split
  · split
    · simp [secret]
    · rfl
  · rename_i other
    simp [other]

theorem Store.forgetOpen (opened : s.openChild outer = (inner, s₁)) :
    (s.forget own hidden).openChild outer = (inner, s₁.forget own hidden) := by
  have created : s.created = s₁.created := congrArg (·.2.created) opened
  have place : inner = ⟨s.frames.size, outer.chain⟩ := congrArg Prod.fst opened.symm
  refine Prod.ext ?_ (Store.sameFrames ?_ (fun i => ?_) created)
  · rw [place, ← s.sizeForget own hidden]
    rfl
  · simp only [sizeForget, openedSize opened, openedSize (Prod.eta _).symm]
  · simp only [frameForget, openedFrame opened, openedFrame (Prod.eta _).symm, sizeForget]
    split <;> split <;> rfl

theorem Store.forgetDefineAll {ps : List Ident} {vs : List Value} (other : scope.own ≠ own) :
    (s.defineAll scope ps vs).forget own hidden = (s.forget own hidden).defineAll scope ps vs := by
  induction ps generalizing vs s with
  | nil => rfl
  | cons p ps ih =>
    cases vs with
    | nil => rfl
    | cons v vs =>
      rw [Store.defineAll, ih, Store.forgetDefine fun same => absurd same other]
      rfl

end forgetting

structure Within (R : Realm) (own : Nat) (scope : Scope) (s : Store) : Prop where
  visible : scope.In R
  store : s.In R
  there : own < s.frames.size

section runs

variable {R : Realm} {own limit active : Nat} {hidden : List String} {α : Type} {scope : Scope}
  {s s₁ : Store} {job : Job α} {o : Outcome α}

theorem Within.next (within : Within R own scope s) (ran : Runs limit active scope s job o s₁)
    (inside : job.In R) : Within R own scope s₁ ∧ o.In R (job.Yields R) := by
  obtain ⟨outcome, store⟩ := ran.stays within.visible within.store inside
  have there := Nat.lt_of_lt_of_le within.there ran.keeps.grown
  exact ⟨⟨within.visible, store, there⟩, outcome⟩

theorem Within.openChild {inner outer : Scope} (within : Within R own scope s)
    (around : outer.In R) (opened : s.openChild outer = (inner, s₁)) :
    Within R own inner s₁ ∧ inner.own ≠ own := by
  obtain ⟨visible, store⟩ := within.store.openChild around opened
  refine ⟨⟨visible, store, ?_⟩, ?_⟩
  · rw [openedSize opened]
    exact Nat.lt_succ_of_lt within.there
  · rw [openedOwn opened]
    exact Nat.ne_of_gt within.there

theorem Within.defineAll {vs : List Value} (within : Within R own scope s) (ps : List Ident)
    (values : ∀ v ∈ vs, v.In R) : Within R own scope (s.defineAll scope ps vs) := by
  have keeps : Keeps scope _ s (s.defineAll scope ps vs) := defineAllKeeps ps vs s
  have there := Nat.lt_of_lt_of_le within.there keeps.grown
  exact ⟨within.visible, within.store.defineAll ps values, there⟩

theorem Runs.forget (ran : Runs limit active scope s job o s₁)
    (shown : ∀ name, R.names name → name ∉ hidden) (within : Within R own scope s)
    (inside : job.In R) :
    Runs limit active scope (s.forget own hidden) job o (s₁.forget own hidden) := by
  -- The realm tells that no name looked up or bound where they are is a forgotten one.
  induction ran with
  | integer => exact .integer
  | boolean => exact .boolean
  | string => exact .string
  | name bound => exact .name (bound.forget (shown _ (R.named inside rfl)))
  | unbound absent => exact .unbound (absent.forget (shown _ (R.named inside rfl)))
  | unary _ computed ih => exact .unary (ih within (R.unary inside)) computed
  | unaryOut _ out ih => exact .unaryOut (ih within (R.unary inside)) out
  | binary first _ computed ih ih' =>
    obtain ⟨left, right⟩ := R.binary inside
    exact .binary (ih within left) (ih' (within.next first left).1 right) computed
  | leftOut _ out ih => exact .leftOut (ih within (R.binary inside).1) out
  | rightOut first _ out ih ih' =>
    obtain ⟨left, right⟩ := R.binary inside
    exact .rightOut (ih within left) (ih' (within.next first left).1 right) out
  | consequence condition holds _ ih ih' =>
    obtain ⟨test, branch, _⟩ := R.conditional inside
    exact .consequence (ih within test) holds (ih' (within.next condition test).1 branch)
  | alternative condition fails _ ih ih' =>
    obtain ⟨test, _, branch⟩ := R.conditional inside
    exact .alternative (ih within test) fails (ih' (within.next condition test).1 (branch _ rfl))
  | noAlternative _ fails ih => exact .noAlternative (ih within (R.conditional inside).1) fails
  | conditionOut _ out ih => exact .conditionOut (ih within (R.conditional inside).1) out
  | anonymous => exact .anonymous
  | named function =>
    have own := shown _ ((R.function inside).2 _ rfl)
    rw [Store.forgetDefine fun _ => own]
    exact .named function
  | call function values _ ih ih' ih'' =>
    obtain ⟨callee, arguments⟩ := R.call inside
    obtain ⟨within₁, closure⟩ := within.next function callee
    obtain ⟨within₂, values⟩ := within₁.next values arguments
    exact .call (ih within callee) (ih' within₁ arguments)
      (ih'' within₂ ⟨closure _ rfl, values, _, _, inside⟩)
  | notCallable _ kind ih => exact .notCallable (ih within (R.call inside).1) kind
  | calleeOut _ out ih => exact .calleeOut (ih within (R.call inside).1) out
  | argumentsOut function _ out ih ih' =>
    obtain ⟨callee, arguments⟩ := R.call inside
    exact .argumentsOut (ih within callee) (ih' (within.next function callee).1 arguments) out
  | noExprs => exact .noExprs
  | moreExprs head _ ih ih' =>
    obtain ⟨here, later⟩ := List.forall_mem_cons.mp inside
    exact .moreExprs (ih within here) (ih' (within.next head here).1 later)
  | headOut _ out ih => exact .headOut (ih within (inside _ (.head _))) out
  | tailOut head _ out ih ih' =>
    obtain ⟨here, later⟩ := List.forall_mem_cons.mp inside
    exact .tailOut (ih within here) (ih' (within.next head here).1 later) out
  | wrongArity differ => exact .wrongArity differ
  | tooDeep arity full => exact .tooDeep arity full
  | @entered _ _ _ _ _ _ f _ _ _ arity free opened _ ih =>
    obtain ⟨⟨body, around⟩, values, _⟩ := inside
    obtain ⟨within, new⟩ := within.openChild around opened
    have ran := ih (within.defineAll f.parameters values) ⟨.plain (by simp), R.statements body⟩
    rw [Store.forgetDefineAll new] at ran
    exact .entered arity free (Store.forgetOpen opened) ran
  | binding value ih =>
    obtain ⟨own, e⟩ := R.binding inside
    rw [Store.forgetDefine fun _ => shown _ own]
    exact .binding (ih within e)
  | bindingOut _ out ih => exact .bindingOut (ih within (R.binding inside).2) out
  | returning => exact .returning
  | returningValue _ ih => exact .returningValue (ih within (R.returning inside))
  | returningOut _ out ih => exact .returningOut (ih within (R.returning inside)) out
  | expression _ ih => exact .expression (ih within (R.expression inside))
  | blockStatement _ ih => exact .blockStatement (ih within (R.blockStatement inside))
  | noStatements => exact .noStatements
  | moreStatements head _ ih ih' =>
    obtain ⟨here, later⟩ := List.forall_mem_cons.mp inside.2
    obtain ⟨within₁, value⟩ := within.next head here
    exact .moreStatements (ih within here) (ih' within₁ ⟨value, later⟩)
  | statementOut _ out ih => exact .statementOut (ih within (inside.2 _ (.head _))) out
  | inside opened _ ih =>
    have within := (within.openChild within.visible opened).1
    have statements := R.statements inside
    exact .inside (Store.forgetOpen opened) (ih within ⟨.plain (by simp), statements⟩)

end runs

def Realm.unmentioning (s : Store) (globals : Scope) (hidden : List String) : Realm where
  nodes n := ∀ name ∈ hidden, ¬ n.Mentions name
  names name := name ∉ hidden
  frames i := i ∈ globals.chain ∨
    (∃ f, s.Reachable globals (.function f) ∧ i ∈ f.scope.chain) ∨ s.frames.size ≤ i
  below nodes child name secret mentions := nodes name secret (mentions.deeper child)
  named nodes naming secret := nodes _ secret (.self naming)

theorem Store.unmentioning {s : Store} {globals : Scope} {hidden : List String}
    (clear : ∀ f, s.Reachable globals (.function f) →
      ∀ name ∈ hidden, ¬ (Node.block f.body).Mentions name) :
    s.In (.unmentioning s globals hidden) where
  fresh i beyond := .inr (.inr beyond)
  values := by
    rintro i name v visible _ found f rfl
    have reachable : s.Reachable globals (.function f) := by
      rcases visible with visible | ⟨g, function, visible⟩ | beyond
      · exact .bound visible found
      · exact .captured function (.bound visible found)
      · simp [Store.frame, beyond] at found
    exact ⟨clear f reachable, fun i visible => .inr (.inl ⟨f, reachable, visible⟩)⟩

namespace Session

def Reachable (s : Session) (v : Value) : Prop := s.machine.store.Reachable s.globals v

def forget (hidden : List String) (s : Session) : Session :=
  s.withStore (s.machine.store.forget s.globals.own hidden)

section

variable {s : Session} {R : Realm} {p : Program} {hidden : List String} {source name : String}

theorem evaluateForget (within : Within R s.globals.own s.globals s.machine.store)
    (shown : ∀ name, R.names name → name ∉ hidden)
    (inside : ∀ t ∈ p.statements, R.nodes (.stmt t)) :
    (s.forget hidden).evaluate p = ((s.evaluate p).1, (s.evaluate p).2.forget hidden) := by
  obtain ⟨o, store, body⟩ :=
    settles (Nat.zero_le s.limit) s.globals s.machine.store (.stmts .unit p.statements)
  have forgot := body.forget shown within ⟨.plain (by simp), inside⟩
  rw [evaluateEnds body, evaluateEnds (s := s.forget hidden) forgot]
  rfl

theorem runForget (within : Within R s.globals.own s.globals s.machine.store)
    (shown : ∀ name, R.names name → name ∉ hidden)
    (inside : ∀ p, readProgram source = .ok p → ∀ t ∈ p.statements, R.nodes (.stmt t)) :
    (s.forget hidden).run source = ((s.run source).1, (s.run source).2.forget hidden) := by
  cases read : readProgram source with
  | error f => simp only [runRefused read]
  | ok p => simp only [runProgram read, evaluateForget within shown (inside p read)]

theorem getForget (s : Session) (shown : name ∉ hidden) :
    (s.forget hidden).get? name = s.get? name := by
  have same := s.machine.store.lookupForget s.globals.own shown
  exact congrArg (List.findSome? · s.globals.chain) (funext same)

theorem Rooted.define (rooted : s.Rooted) (name : String) (v : Value) :
    (s.define name v).Rooted ∧ (s.define name v).get? name = some v := by
  have there : s.globals.own < (s.define name v).machine.store.frames.size :=
    (s.machine.store.sizeDefine _ name v).symm ▸ rooted.there
  have rooted' : (s.define name v).Rooted := ⟨rooted.outermost, there⟩
  refine ⟨rooted', (rooted'.get name).trans ?_⟩
  change ((s.machine.store.define s.globals name v).frame s.globals.own).lookup name = some v
  rw [Store.frameDefine, if_pos ⟨rfl, rooted.there⟩]
  exact List.lookup_cons_self

theorem Rooted.getUnmentioned (rooted : s.Rooted)
    (absent : ∀ p, readProgram source = .ok p → ¬ p.Mentions name) :
    (s.run source).2.get? name = s.get? name := by
  cases read : readProgram source with
  | error f => rw [runRefused read]
  | ok p =>
    obtain ⟨globals, keeps⟩ := s.evaluateKeeps p
    have unbound : name ∉ p.statements.flatMap Stmt.binds := by
      intro bound
      obtain ⟨t, statement, binds⟩ := List.mem_flatMap.mp bound
      exact absent p read ⟨t, statement, stmtMentions binds⟩
    rw [runProgram read]
    exact rooted.getKept globals keeps name unbound

end

end Session

/-- Between two runs, a global whose name occurs neither in the next source nor in the body of a
function that can be reached can be bound to anything: the source has the same value or failure,
all scopes have the same bindings after it, but for that one, and that one is kept. -/
theorem unmentionedIrrelevant (limit : Nat) (actions : List Action) (x : String) (v : Value)
    (source : String) (absent : ∀ p, readProgram source = .ok p → ¬ p.Mentions x)
    (unreached : ∀ f, ((Session.start limit).after actions).Reachable (.function f) →
      ¬ (Node.block f.body).Mentions x) :
    let s := (Session.start limit).after actions
    let plain := s.run source
    let bound := (s.define x v).run source
    bound.1 = plain.1 ∧ (∀ name ≠ x, bound.2.get? name = plain.2.get? name) ∧
      bound.2.get? x = some v ∧ plain.2.get? x = s.get? x ∧
      bound.2.forget [x] = plain.2.forget [x] := by
  intro s plain bound
  have rooted : s.Rooted := Session.reachableRooted limit actions
  obtain ⟨rooted', given⟩ := rooted.define x v
  let R := Realm.unmentioning s.machine.store s.globals [x]
  have clear : ∀ f, s.Reachable (.function f) →
      ∀ name ∈ [x], ¬ (Node.block f.body).Mentions name := by
    rintro f reached name member
    obtain rfl := List.mem_singleton.mp member
    exact unreached f reached
  have visible : s.globals.In R := fun i visible => .inl visible
  have store : s.machine.store.In R := Store.unmentioning clear
  have within : Within R s.globals.own s.globals s.machine.store := ⟨visible, store, rooted.there⟩
  have within' : Within R s.globals.own s.globals (s.define x v).machine.store :=
    ⟨visible, store.define s.globals fun shown => absurd (.head _) shown, rooted'.there⟩
  have inside : ∀ p, readProgram source = .ok p → ∀ t ∈ p.statements, R.nodes (.stmt t) := by
    rintro p read t statement name member mentions
    obtain rfl := List.mem_singleton.mp member
    exact absent p read ⟨t, statement, mentions⟩
  have forgot : (s.define x v).forget [x] = s.forget [x] :=
    congrArg s.withStore (s.machine.store.forgetHidden s.globals v (.head _))
  have both := Session.runForget within (fun _ shown => shown) inside
  have both' := Session.runForget (s := s.define x v) within' (fun _ shown => shown) inside
  rw [forgot, both] at both'
  obtain ⟨answers, sessions⟩ := Prod.mk.inj both'
  refine ⟨answers.symm, ?_, ?_, ?_, sessions.symm⟩
  · intro name other
    have shown : name ∉ [x] := fun member => other (List.mem_singleton.mp member)
    rw [← bound.2.getForget shown, ← plain.2.getForget shown, sessions]
  · exact (rooted'.getUnmentioned absent).trans given
  · exact rooted.getUnmentioned absent

def echo : Closure :=
  let n : Ident := ⟨"n", .nowhere⟩
  ⟨0, none, [n], .mk [.expression (.name n) .nowhere] .nowhere, ⟨0, []⟩⟩

def echoBound : Program :=
  ⟨[.binding ⟨"f", .nowhere⟩ (.function none echo.parameters echo.body .nowhere) .nowhere]⟩

def echoed : Program :=
  let own : Ident := ⟨"f", ⟨⟨0, 1, 1⟩, ⟨1, 1, 2⟩⟩⟩
  let whole : Span := ⟨⟨0, 1, 1⟩, ⟨4, 1, 5⟩⟩
  ⟨[.expression (.call (.name own) [.integer 1 ⟨⟨2, 1, 3⟩, ⟨3, 1, 4⟩⟩] whole) whole]⟩

theorem echoIgnores : readProgram "f(1)" = .ok echoed ∧ ¬ echoed.Mentions "x" ∧
    let s := (Session.start 1).after [.evaluate echoBound]
    s.Reachable (.function echo) ∧
      (∀ f, s.Reachable (.function f) → ¬ (Node.block f.body).Mentions "x") ∧
      ((s.define "x" .unit).run "f(1)").1 = (s.run "f(1)").1 := by
  have tokens : tokenize "f(1)" = .ok
      [⟨⟨.identifier, "f"⟩, ⟨⟨0, 1, 1⟩, ⟨1, 1, 2⟩⟩⟩, ⟨⟨.leftParen, "("⟩, ⟨⟨1, 1, 2⟩, ⟨2, 1, 3⟩⟩⟩,
       ⟨⟨.integer, "1"⟩, ⟨⟨2, 1, 3⟩, ⟨3, 1, 4⟩⟩⟩, ⟨⟨.rightParen, ")"⟩, ⟨⟨3, 1, 4⟩, ⟨4, 1, 5⟩⟩⟩,
       .endAt ⟨4, 1, 5⟩] := by
    decide +kernel
  have read : readProgram "f(1)" = .ok echoed := readProgramTokens.mpr ⟨_, tokens, rfl⟩
  have absent : ¬ echoed.Mentions "x" := by
    rintro ⟨t, statement, mentions⟩
    obtain rfl := List.mem_singleton.mp statement
    revert mentions
    refine Node.unmentioned nofun (List.forall_mem_singleton.mpr ?_)
    refine Node.unmentioned nofun (List.forall_mem_cons.mpr ⟨?_, List.forall_mem_singleton.mpr ?_⟩)
    · exact Node.unmentioned (by rintro _ ⟨⟩; decide) nofun
    · exact Node.unmentioned nofun nofun
  let store := ((Session.start 1).after [.evaluate echoBound]).machine.store
  have bindings : ∀ i ∈ echo.scope.chain, store.frame i = [("f", .function echo)] := by
    rintro i visible
    obtain rfl := List.mem_singleton.mp visible
    rfl
  have only : ∀ {scope v}, store.Reachable scope v → scope = echo.scope → v = .function echo := by
    intro scope v reachable
    induction reachable with
    | bound visible found =>
      rintro rfl
      rw [bindings _ visible] at found
      simp only [List.lookup_cons] at found
      split at found
      · exact (Option.some.inj found).symm
      · cases found
    | captured _ _ ih ih' =>
      intro same
      cases ih same
      exact ih' rfl
  have found : (store.frame 0).lookup "f" = some (.function echo) := rfl
  have unreached : ∀ f, store.Reachable echo.scope (.function f) →
      ¬ (Node.block f.body).Mentions "x" := by
    intro f reachable
    cases only reachable rfl
    refine Node.unmentioned nofun (List.forall_mem_singleton.mpr ?_)
    refine Node.unmentioned nofun (List.forall_mem_singleton.mpr ?_)
    exact Node.unmentioned (by rintro _ ⟨⟩; decide) nofun
  have sources : ∀ p, readProgram "f(1)" = .ok p → ¬ p.Mentions "x" := by
    rintro p same
    cases read.symm.trans same
    exact absent
  exact ⟨read, absent, .bound (.head _) found, unreached,
    (unmentionedIrrelevant 1 [.evaluate echoBound] "x" .unit "f(1)" sources unreached).1⟩

end Scriptlet

import Mathlib.Data.List.Forall2
import Scriptlet.Proofs.CallTexts
import Scriptlet.Proofs.Histories
import Scriptlet.Proofs.Unmentioned

/-! Calls from outside are calls from a source.
To call a function with some values is to bind these to new names and to run a source that calls it
with the names. The function cannot see the names, for nothing that it may come to mentions them. -/
namespace Scriptlet

open Outcome Job

namespace Session

def defineAll (bs : List (String × Value)) (s : Session) : Session :=
  bs.foldl (fun s b => s.define b.1 b.2) s

def ReachableWith (s : Session) (vs : List Value) (v : Value) : Prop :=
  s.Reachable v ∨ v ∈ vs ∨ ∃ f, .function f ∈ vs ∧ s.machine.store.Reachable f.scope v

/- Another session with more bindings in the global scope, and with no other difference. -/
structure Extends (s : Session) (bs : List (String × Value)) (s' : Session) : Prop where
  session : s' = s.withStore s'.machine.store
  size : s'.machine.store.frames.size = s.machine.store.frames.size
  created : s'.machine.store.created = s.machine.store.created
  frames : ∀ i, s'.machine.store.frame i =
    if s.globals.own = i ∧ i < s.machine.store.frames.size then
      bs.reverse ++ s.machine.store.frame i
    else s.machine.store.frame i

end Session

section defining

variable {s s' : Session} {bs : List (String × Value)} {hidden : List String} {R : Realm}

theorem Session.defineAllExtends (bs : List (String × Value)) (s : Session) :
    s.Extends bs (s.defineAll bs) := by
  induction bs generalizing s with
  | nil => exact ⟨rfl, rfl, rfl, fun i => by split <;> rfl⟩
  | cons b bs ih =>
    obtain ⟨session, size, created, frames⟩ := ih (s.define b.1 b.2)
    have size' := s.machine.store.sizeDefine s.globals b.1 b.2
    refine ⟨session, size.trans size', created, fun i => (frames i).trans ?_⟩
    change (if s.globals.own = i ∧ i < (s.machine.store.define s.globals b.1 b.2).frames.size then
      bs.reverse ++ (s.machine.store.define s.globals b.1 b.2).frame i else
      (s.machine.store.define s.globals b.1 b.2).frame i) = _
    rw [size', Store.frameDefine]
    split
    · rw [List.reverse_cons, List.append_assoc]
      rfl
    · rfl

theorem Session.Extends.forget (more : s.Extends bs s') (secret : ∀ b ∈ bs, b.1 ∈ hidden) :
    s'.machine.store.forget s.globals.own hidden = s.machine.store.forget s.globals.own hidden := by
  refine Store.sameFrames (by simp only [Store.sizeForget, more.size]) (fun i => ?_) more.created
  rw [Store.frameForget, Store.frameForget, more.frames]
  split
  · split
    · have none : bs.reverse.filter (fun b => b.1 ∉ hidden) = [] := by
        simpa using fun a v member => secret (a, v) member
      rw [List.filter_append, none, List.nil_append]
    · rfl
  · rename_i other
    rw [if_neg fun here => other here.1]

theorem Session.Extends.forgetSession (more : s.Extends bs s') (secret : ∀ b ∈ bs, b.1 ∈ hidden) :
    s'.forget hidden = s.forget hidden := by
  have store := more.forget secret
  rw [more.session, Session.forget, Session.forget]
  exact congrArg s.withStore store

theorem Session.Extends.store (more : s.Extends bs s') (store : s.machine.store.In R)
    (shown : ∀ name, R.names name → name ∉ hidden) (secret : ∀ b ∈ bs, b.1 ∈ hidden) :
    s'.machine.store.In R where
  fresh i beyond := store.fresh i (more.size ▸ beyond)
  values i name v visible known found := by
    rw [← Store.lookupForget _ s.globals.own (shown name known), more.forget secret,
      Store.lookupForget _ s.globals.own (shown name known)] at found
    exact store.values i name v visible known found

theorem lookupBinding {frame : Frame} {a : String} {v : Value} (among : (a, v) ∈ bs)
    (distinct : (bs.map Prod.fst).Nodup) : (bs.reverse ++ frame).lookup a = some v := by
  obtain ⟨before, after, rfl⟩ := List.append_of_mem among
  refine List.lookup_eq_some_iff.mpr ⟨after.reverse, before.reverse ++ frame, by simp, ?_⟩
  intro b member
  rw [List.map_append, List.map_cons] at distinct
  have apart := (List.nodup_cons.mp (List.nodup_append.mp distinct).2.1).1
  have further : b.1 ∈ after.map Prod.fst := List.mem_map_of_mem (List.mem_reverse.mp member)
  exact bne_iff_ne.mpr fun same => apart (same ▸ further)

theorem Session.Extends.get (more : s.Extends bs s') (rooted : s.Rooted) : s'.Rooted ∧
    (∀ a v, (a, v) ∈ bs → (bs.map Prod.fst).Nodup → s'.get? a = some v) ∧
    ∀ name, name ∉ bs.map Prod.fst → s'.get? name = s.get? name := by
  obtain ⟨session, size, _, frames⟩ := more
  have globals : s'.globals = s.globals := (congrArg Session.globals session).trans rfl
  have there : s'.globals.own < s'.machine.store.frames.size := by
    rw [globals, size]
    exact rooted.there
  have rooted' : s'.Rooted := ⟨globals ▸ rooted.outermost, there⟩
  have frame : s'.machine.store.frame s'.globals.own =
      bs.reverse ++ s.machine.store.frame s.globals.own := by
    rw [globals, frames, if_pos ⟨rfl, rooted.there⟩]
  refine ⟨rooted', ?_, ?_⟩
  · intro a v among distinct
    rw [rooted'.get, frame, lookupBinding among distinct]
  · intro name other
    have absent : bs.reverse.lookup name = none := by
      refine List.lookup_eq_none_iff.mpr fun b member => bne_iff_ne.mpr fun same => other ?_
      rw [same]
      exact List.mem_map_of_mem (List.mem_reverse.mp member)
    rw [rooted'.get, frame, rooted.get, List.lookup_append, absent, Option.none_or]

end defining

section calling

variable {limit active : Nat} {scope : Scope} {s s₁ : Store} {f : Closure} {vs : List Value}
  {o : Outcome Value} {inner : Span}

/- Answers to a call, which may differ in its own span alone. -/
inductive Displaced (a b : Span) : Except EvalError Value → Except EvalError Value → Prop where
  | same (r : Except EvalError Value) : Displaced a b r r
  | own (fault : EvalFault) : Displaced a b (.error ⟨fault, a⟩) (.error ⟨fault, b⟩)

theorem Session.callDisplaced (s : Session) (f : Closure) (vs : List Value) (a b : Span) :
    Displaced a b (s.call f vs a).1 (s.call f vs b).1 ∧ (s.call f vs a).2 = (s.call f vs b).2 := by
  rw [Session.callOutcome, Session.callOutcome]
  by_cases arity : f.parameters.length = vs.length
  · cases s.limit - s.machine.active with
    | zero =>
      rw [applyTooDeep arity, applyTooDeep arity]
      exact ⟨.own _, rfl⟩
    | succ n =>
      rw [applyEntered arity, applyEntered arity]
      exact ⟨.same _, rfl⟩
  · rw [applyWrongArity arity, applyWrongArity arity]
    exact ⟨.own _, rfl⟩

theorem argumentsRun {owns : List Ident}
    (bound : List.Forall₂ (fun own v => Bound s own.text v scope.chain) owns vs) :
    Runs limit active scope s (exprs (owns.map .name)) (result vs) s := by
  induction bound with
  | nil => exact .noExprs
  | cons here _ ih => exact .moreExprs (.name here) ih

theorem callRuns {own : Ident} {owns : List Ident} (outer : Span)
    (function : Bound s own.text (.function f) scope.chain)
    (bound : List.Forall₂ (fun own v => Bound s own.text v scope.chain) owns vs)
    (applied : Runs limit active scope s (application f vs inner) o s₁) :
    Runs limit active scope s
      (stmts .unit [.expression (.call (.name own) (owns.map .name) inner) outer]) o s₁ := by
  have called : Runs limit active scope s
      (stmt (.expression (.call (.name own) (owns.map .name) inner) outer)) o s₁ :=
    .expression (.call (.name function) (argumentsRun bound) applied)
  cases o with
  | result v => exact .moreStatements called .noStatements
  | leaving v => exact .statementOut called (.leaving v)
  | failure e => exact .statementOut called (.failure e)

end calling

namespace Realm

/- What takes part in a call of a function that can be reached: the values given to it can be
reached too. -/
def ofCall (s : Session) (vs : List Value) (hidden : List String) : Realm :=
  { Realm.unmentioning s.machine.store s.globals hidden with
    frames i := i ∈ s.globals.chain ∨
      (∃ f, s.ReachableWith vs (.function f) ∧ i ∈ f.scope.chain) ∨
      s.machine.store.frames.size ≤ i }

variable {s : Session} {vs : List Value} {hidden : List String}
  (clear : ∀ f, s.ReachableWith vs (.function f) →
    ∀ name ∈ hidden, ¬ (Node.block f.body).Mentions name)
include clear

theorem ofCallStore : s.machine.store.In (.ofCall s vs hidden) where
  fresh i beyond := .inr (.inr beyond)
  values := by
    rintro i name v visible _ found f rfl
    have reachable : s.ReachableWith vs (.function f) := by
      rcases visible with visible | ⟨g, function, visible⟩ | beyond
      · exact .inl (.bound visible found)
      · rcases function with function | member | ⟨k, member, function⟩
        · exact .inl (.captured function (.bound visible found))
        · exact .inr (.inr ⟨g, member, .bound visible found⟩)
        · exact .inr (.inr ⟨k, member, .captured function (.bound visible found)⟩)
      · simp [Store.frame, beyond] at found
    exact ⟨clear f reachable, fun i visible => .inr (.inl ⟨f, reachable, visible⟩)⟩

theorem ofCallJob {g : Closure} (known : s.ReachableWith vs (.function g)) (place : Span) :
    (application g vs place).In (.ofCall s vs hidden) := by
  have inside {f} (known : s.ReachableWith vs (.function f)) : f.In (.ofCall s vs hidden) :=
    ⟨clear f known, fun i visible => .inr (.inl ⟨f, known, visible⟩)⟩
  refine ⟨inside known, ?_, .integer 0 .nowhere, [], ?_⟩
  · rintro v member f rfl
    exact inside (.inr (.inl member))
  · -- That an error of the call has its span is of no use here, so any node with it will do.
    intro name _
    refine Node.unmentioned nofun (List.forall_mem_singleton.mpr ?_)
    exact Node.unmentioned nofun nofun

end Realm

section stores

variable {s s' : Session} {bs : List (String × Value)} {hidden : List String} {store store' : Store}

theorem Session.Extends.after (more : s.Extends bs s') (rooted : s.Rooted)
    (kept : Untouched s.machine.store store) (kept' : Untouched s'.machine.store store')
    (same : store.forget s.globals.own hidden = store'.forget s.globals.own hidden) :
    s'.withStore store' = (s.withStore store).defineAll bs := by
  have later := (s.withStore store).defineAllExtends bs
  rw [more.session, later.session]
  refine congrArg s.withStore (Store.sameFrames ?_ (fun i => ?_) ?_)
  · rw [later.size]
    have sizes := congrArg (·.frames.size) same
    simp only [Store.sizeForget] at sizes
    exact sizes.symm
  · refine Eq.trans ?_ (later.frames i).symm
    change _ = if s.globals.own = i ∧ i < store.frames.size then bs.reverse ++ store.frame i
      else store.frame i
    by_cases here : s.globals.own = i
    · subst here
      have inside := rooted.there
      rw [if_pos ⟨rfl, Nat.lt_of_lt_of_le inside kept.grown⟩, kept.frames _ inside,
        kept'.frames _ (more.size.symm ▸ inside), more.frames, if_pos ⟨rfl, inside⟩]
    · rw [if_neg fun both => here both.1]
      have frames := congrArg (·.frame i) same
      simpa [Store.frameForget, here] using frames.symm
  · exact (congrArg Store.created same).symm.trans later.created.symm

theorem Session.Extends.applied {vs : List Value} {g : Closure} (more : s.Extends bs s')
    (rest : s.AtRest) (rooted : s.Rooted) (secret : ∀ b ∈ bs, b.1 ∈ hidden)
    (clear : ∀ f, s.ReachableWith vs (.function f) →
      ∀ name ∈ hidden, ¬ (Node.block f.body).Mentions name)
    (known : s.ReachableWith vs (.function g)) (span : Span) : ∃ o store store',
      s.call g vs span = (o.final, s.withStore store) ∧
      Runs s.limit 0 s.globals s'.machine.store (application g vs span) o store' ∧
      s'.withStore store' = (s.withStore store).defineAll bs := by
  -- Both applications do the same in the realm of the call with the names forgotten.
  have none : 0 ≤ s.limit := Nat.zero_le _
  let R := Realm.ofCall s vs hidden
  have store : s.machine.store.In R := Realm.ofCallStore clear
  have job : (application g vs span).In R := Realm.ofCallJob clear known span
  have visible : s.globals.In R := fun i visible => .inl visible
  have shown : ∀ name, R.names name → name ∉ hidden := fun _ shown => shown
  have within : Within R s.globals.own s.globals s.machine.store := ⟨visible, store, rooted.there⟩
  have within' : Within R s.globals.own s.globals s'.machine.store :=
    ⟨visible, more.store store shown secret, more.size.symm ▸ rooted.there⟩
  obtain ⟨o, store, applied⟩ := settles none s.globals s.machine.store (application g vs span)
  obtain ⟨o', store', applied'⟩ := settles none s.globals s'.machine.store (application g vs span)
  have forgot := applied.forget shown within job
  have forgot' := applied'.forget shown within' job
  rw [more.forget secret] at forgot'
  obtain ⟨rfl, same⟩ := forgot.unique forgot' none
  have kept : Untouched s.machine.store store := applied.keeps.untouched
  have kept' : Untouched s'.machine.store store' := applied'.keeps.untouched
  rw [← rest.idle, ← rest.outside] at applied
  exact ⟨o, store, store', callEnds applied (rest.idle ▸ none), applied',
    more.after rooted kept kept' same⟩

end stores

section sources

variable {s s' : Session} {bs : List (String × Value)} {store : Store} {g : Closure}
  {vs : List Value} {own : Ident} {owns : List Ident} {names : List String} {inner outer : Span}
  {o : Outcome Value} {text : String}

theorem argumentsGiven (texts : owns.map Ident.text = names) (each : names.length = vs.length)
    (given : ∀ a v, (a, v) ∈ names.zip vs → s.get? a = some v) :
    List.Forall₂ (fun own v => Bound s.machine.store own.text v s.globals.chain) owns vs := by
  subst texts
  have all : List.Forall₂ (fun a v => Bound s.machine.store a v s.globals.chain)
      (owns.map Ident.text) vs :=
    List.forall₂_iff_zip.mpr ⟨each, fun among => boundLookup.mpr (given _ _ among)⟩
  exact List.forall₂_map_left_iff.mp all

theorem Session.Extends.runs (more : s.Extends bs s') (rest : s.AtRest)
    (read : readProgram text =
      .ok ⟨[.expression (.call (.name own) (owns.map .name) inner) outer]⟩)
    (function : s'.get? own.text = some (.function g))
    (arguments : List.Forall₂ (fun own v => Bound s'.machine.store own.text v s'.globals.chain)
      owns vs)
    (applied : Runs s.limit 0 s.globals s'.machine.store (application g vs inner) o store) :
    s'.run text = (o.final.mapError .eval, s'.withStore store) := by
  have rest' : s'.AtRest := more.session ▸ rest.withStore _
  have limit : s'.limit = s.limit := (congrArg Session.limit more.session).trans rfl
  have globals : s'.globals = s.globals := (congrArg Session.globals more.session).trans rfl
  rw [← limit, ← globals] at applied
  have body := callRuns outer (boundLookup.mpr function) arguments applied
  rw [Session.runProgram read, evaluateEnds body]
  simp only [Session.withStore, rest'.idle, rest'.outside]

end sources

/-- Whatever was done with a session, a function that is bound to a global name can be called from
outside, or by a source, with new names for the values that are given. The answer is the same, up to
the span of the call itself, and so is the session, if the names are bound after the call from
outside. -/
theorem hostCallIsSourceCall {limit : Nat} {s : Session} {held : List Scope} {fs : List Closure}
    (history : History limit s held fs) {f : String} {g : Closure} (name : IsName f)
    (bound : s.get? f = some (.function g)) {names : List String} {vs : List Value}
    (legal : ∀ a ∈ names, IsName a) (distinct : names.Nodup) (other : f ∉ names)
    (each : names.length = vs.length) (clear : ∀ k, s.ReachableWith vs (.function k) →
      ∀ a ∈ names, ¬ (Node.block k.body).Mentions a) (place : Span) :
    let host := s.call g vs place
    let source := (s.defineAll (names.zip vs)).run (callText f names)
    (∃ p callee arguments span r, readProgram (callText f names) = .ok p ∧
      p.Has (.expr (.call callee arguments span)) ∧ source.1 = r.mapError .eval ∧
      Displaced place span host.1 r) ∧
    source.2 = host.2.defineAll (names.zip vs) ∧
    source.2.forget names = host.2.forget names ∧
    ∀ a v, (a, v) ∈ names.zip vs → source.2.get? a = some v := by
  intro host source
  have rest : s.AtRest := history.atRest
  have rooted : s.Rooted := history.rooted
  have keys : (names.zip vs).map Prod.fst = names := List.map_fst_zip (Nat.le_of_eq each)
  have more := s.defineAllExtends (names.zip vs)
  obtain ⟨rooted', values, others⟩ := more.get rooted
  obtain ⟨own, owns, inner, outer, rfl, texts, read⟩ := callTextProgram name legal
  have secret : ∀ b ∈ names.zip vs, b.1 ∈ names := fun b member => (List.of_mem_zip member).1
  have known : s.ReachableWith vs (.function g) :=
    .inl (.bound (.head _) ((rooted.get own.text).symm.trans bound))
  have given (a v) (among : (a, v) ∈ names.zip vs) : _ := values a v among (keys.symm ▸ distinct)
  obtain ⟨o, store, store', called, applied, session⟩ :=
    more.applied rest rooted secret clear known inner
  have function := (others own.text (keys.symm ▸ other)).trans bound
  have ran : source = (o.final.mapError .eval, _) :=
    more.runs rest read function (argumentsGiven texts each given) applied
  obtain ⟨displaced, machine⟩ := s.callDisplaced g vs place inner
  rw [called] at displaced machine
  have after : source.2 = host.2.defineAll (names.zip vs) := by
    rw [ran, session]
    exact congrArg (Session.defineAll _) machine.symm
  have call : Program.Has ⟨[.expression (.call (.name own) (owns.map .name) inner) outer]⟩
      (.expr (.call (.name own) (owns.map .name) inner)) :=
    ⟨_, .head _, .deeper (.head _) (.self _)⟩
  have later := host.2.defineAllExtends (names.zip vs)
  have rooted'' : host.2.Rooted := rooted.after [.call g vs place]
  refine ⟨⟨_, _, _, inner, o.final, read, call, congrArg Prod.fst ran, displaced⟩, after, ?_, ?_⟩
  · rw [after, later.forgetSession secret]
  · intro a v among
    rw [after]
    exact (later.get rooted'').2.1 a v among (keys.symm ▸ distinct)

theorem Store.reachesOnly {s : Store} {f : Closure} (alone : ∀ i ∈ f.scope.chain, ∀ name v,
    (s.frame i).lookup name = some v → v = .function f) {scope : Scope} {v : Value}
    (reachable : s.Reachable scope v) : scope = f.scope → v = .function f := by
  induction reachable with
  | @bound _ i name v visible found =>
    rintro rfl
    exact alone i visible name v found
  | captured _ _ ih ih' =>
    intro same
    cases ih same
    exact ih' rfl

def forgetful : Closure := ⟨0, none, [⟨"n", .nowhere⟩], .mk [] .nowhere, ⟨0, []⟩⟩

theorem forgetfulCalled :
    let begun := Session.start 1
    let s := (begun.withStore begun.machine.store.create).define "f" (.function forgetful)
    callText "f" ["a"] = "f(a)" ∧ callText "f" [] = "f()" ∧
    (∀ k, s.ReachableWith [.integer 7] (.function k) →
      ∀ a ∈ ["a"], ¬ (Node.block k.body).Mentions a) ∧
    ((s.defineAll [("a", .integer 7)]).run "f(a)").1 = .ok .unit ∧
    ∃ span, (s.run "f()").1 = .error (.eval ⟨.wrongArity none 1 0, span⟩) := by
  intro begun s
  have created : History 1 (begun.withStore begun.machine.store.create) [begun.globals]
      [forgetful] := .created none forgetful.parameters forgetful.body .start (.head _)
  have known : (Action.define "f" (.function forgetful)).From [forgetful] := by
    rintro _ ⟨⟩
    exact .head _
  have history : History 1 s [begun.globals] [forgetful] :=
    created.act known (.nothing fun _ _ starts => by cases starts)
  have own : IsName "f" := wordLexical (show "f".toList = 'f' :: [] by decide) rfl nofun
  have given : IsName "a" := wordLexical (show "a".toList = 'a' :: [] by decide) rfl nofun
  have alone : ∀ i ∈ forgetful.scope.chain, ∀ name v,
      (s.machine.store.frame i).lookup name = some v → v = .function forgetful := by
    rintro i visible name v found
    obtain rfl := List.mem_singleton.mp visible
    change List.lookup name [("f", .function forgetful)] = some v at found
    rw [List.lookup_cons] at found
    split at found
    · exact (Option.some.inj found).symm
    · cases found
  have clear : ∀ k, s.ReachableWith [.integer 7] (.function k) →
      ∀ a ∈ ["a"], ¬ (Node.block k.body).Mentions a := by
    rintro k (reachable | member | ⟨f, member, _⟩) a _
    · cases Store.reachesOnly alone reachable rfl
      exact Node.unmentioned nofun nofun
    · simp at member
    · simp at member
  have legal : ∀ a ∈ ["a"], IsName a := List.forall_mem_singleton.mpr given
  have text : callText "f" ["a"] = "f(a)" := by decide
  have text' : callText "f" [] = "f()" := by decide
  refine ⟨text, text', clear, ?_, ?_⟩
  · obtain ⟨⟨p, callee, arguments, span, r, _, _, same, displaced⟩, _⟩ :=
      hostCallIsSourceCall history own rfl legal (by decide) (by decide) rfl clear .nowhere
    have answer : (s.call forgetful [.integer 7] .nowhere).1 = .ok .unit := rfl
    rw [answer] at displaced
    rw [text] at same
    cases displaced
    exact same
  · have lengths : ([] : List String).length = ([] : List Value).length := rfl
    have legal : ∀ a ∈ ([] : List String), IsName a := nofun
    obtain ⟨⟨p, callee, arguments, span, r, _, _, same, displaced⟩, _⟩ :=
      hostCallIsSourceCall history own rfl legal .nil nofun lengths (fun _ _ => nofun) .nowhere
    have answer : (s.call forgetful [] .nowhere).1 =
        .error ⟨.wrongArity none 1 0, .nowhere⟩ := rfl
    rw [answer] at displaced
    rw [text'] at same
    cases displaced
    · exact ⟨_, same⟩
    · exact ⟨_, same⟩

end Scriptlet

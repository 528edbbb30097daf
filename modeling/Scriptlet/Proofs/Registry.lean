import Mathlib.Data.List.Nodup
import Scriptlet.Proofs.Histories

/-! What a history has brought about.
A registry lists all scopes, by the number of their own frame, and all functions, by the number of
their creation. A scope is opened around nothing or inside one that was there before, so the frames
of a chain get older outward. Nothing that a history comes to holds a scope or a function that is
not listed; this is shown step by step, for what is done as well as for what is pending. -/
namespace Scriptlet

open Outcome Job

theorem numberAt {α : Type} {number : α → Nat} {xs : List α} {x : α} {i : Nat}
    (numbered : xs.map number = List.range xs.length) (place : xs[i]? = some x) :
    number x = i := by
  have own := congrArg (·[i]?) numbered
  simp only [List.getElem?_map, place, Option.map_some] at own
  obtain ⟨_, same⟩ := List.getElem?_eq_some_iff.mp own.symm
  rw [← same, List.getElem_range]

structure Registry where
  scopes : List Scope
  functions : List Closure
  numbered : scopes.map Scope.own = List.range scopes.length
  enclosed : ∀ scope ∈ scopes, scope.outer = [] ∨
    ∃ outer ∈ scopes, outer.own < scope.own ∧ scope.outer = outer.chain
  counted : functions.map Closure.creation = List.range functions.length
  captured : ∀ f ∈ functions, f.scope ∈ scopes

namespace Registry

def empty : Registry := ⟨[], [], rfl, nofun, rfl, nofun⟩

variable (G : Registry)

theorem below {scope : Scope} (member : scope ∈ G.scopes) : scope.own < G.scopes.length := by
  have own := List.mem_map_of_mem (f := Scope.own) member
  rwa [G.numbered, List.mem_range] at own

theorem ownAt {scope : Scope} {i : Nat} (place : G.scopes[i]? = some scope) : scope.own = i :=
  numberAt G.numbered place

theorem functionOnce {f g : Closure} (member : f ∈ G.functions) (member' : g ∈ G.functions)
    (same : f.creation = g.creation) : f = g :=
  List.inj_on_of_nodup_map (G.counted ▸ List.nodup_range) member member' same

theorem creationAt {f : Closure} {k : Nat} (place : G.functions[k]? = some f) : f.creation = k :=
  numberAt G.counted place

def openScope (outer : List Nat)
    (around : outer = [] ∨ ∃ scope ∈ G.scopes, outer = scope.chain) : Registry where
  scopes := G.scopes ++ [⟨G.scopes.length, outer⟩]
  functions := G.functions
  numbered := by simp [G.numbered, List.range_succ]
  enclosed := by
    intro scope member
    rcases List.mem_append.mp member with member | new
    · refine (G.enclosed scope member).imp_right ?_
      rintro ⟨outer, among, older, chain⟩
      exact ⟨outer, List.mem_append_left _ among, older, chain⟩
    · obtain rfl := List.mem_singleton.mp new
      refine around.imp_right ?_
      rintro ⟨scope, among, chain⟩
      exact ⟨scope, List.mem_append_left _ among, G.below among, chain⟩
  counted := G.counted
  captured f member := List.mem_append_left _ (G.captured f member)

def create (name : Option Ident) (parameters : List Ident) (body : Block) (scope : Scope)
    (known : scope ∈ G.scopes) : Registry where
  scopes := G.scopes
  functions := G.functions ++ [⟨G.functions.length, name, parameters, body, scope⟩]
  numbered := G.numbered
  enclosed := G.enclosed
  counted := by simp [G.counted, List.range_succ]
  captured := by
    intro f member
    rcases List.mem_append.mp member with member | new
    · exact G.captured f member
    · obtain rfl := List.mem_singleton.mp new
      exact known

structure Grows (fs : List Closure) (G' : Registry) : Prop where
  scopes : ∀ scope ∈ G.scopes, scope ∈ G'.scopes
  functions : G'.functions = G.functions ++ fs

theorem Grows.refl : G.Grows [] G := ⟨fun _ => id, (List.append_nil _).symm⟩

theorem Grows.trans {G G' G'' : Registry} {fs gs : List Closure} (first : G.Grows fs G')
    (second : G'.Grows gs G'') : G.Grows (fs ++ gs) G'' where
  scopes scope member := second.scopes scope (first.scopes scope member)
  functions := by rw [second.functions, first.functions, List.append_assoc]

theorem Grows.opened {outer : List Nat}
    (around : outer = [] ∨ ∃ scope ∈ G.scopes, outer = scope.chain) :
    G.Grows [] (G.openScope outer around) :=
  ⟨fun _ => List.mem_append_left _, (List.append_nil _).symm⟩

end Registry

section fitting

variable (G : Registry)

structure Store.Fits (s : Store) : Prop where
  scopes : G.scopes.length = s.frames.size
  functions : G.functions.length = s.created
  bindings : ∀ i, ∀ b ∈ s.frame i, b.2.From G.functions

structure Machine.Fits (m : Machine) : Prop where
  store : m.store.Fits G
  current : m.current ∈ G.scopes

def Job.parts : {α : Type} → Job α → α → List Value
  | _, exprs _, vs => vs
  | _, expr _, v | _, stmt _, v | _, stmts .., v | _, block _, v | _, application .., v => [v]

/- Work that waits for a value takes a result for that value, and likewise for a list of values. -/
def Pending.Sorted : {α : Type} → Pending α → Prop
  | _, done => True
  | _, operand _ _ k | _, left _ _ _ k | _, right _ _ _ k | _, condition _ _ k | _, callee _ _ _ k
  | _, arguments _ _ k | _, binding _ k | _, returning k | _, statements _ k | _, scope _ k
  | _, body k => (∀ v, k.parts v = [v]) ∧ k.Sorted
  | _, head _ k | _, tail _ k => (∀ vs, k.parts vs = vs) ∧ k.Sorted

structure Pending.Fits {α : Type} (k : Pending α) : Prop where
  values : ∀ v ∈ k.values, v.From G.functions
  scopes : ∀ scope ∈ k.scopes, scope ∈ G.scopes
  sorted : k.Sorted

structure Config.Fits (c : Config) : Prop where
  machine : c.machine.Fits G
  pending : c.pending.Fits G
  focus : ∀ v ∈ c.focus.values c.pending, v.From G.functions
  sort : ∀ job, c.focus = .todo job → ∀ a, c.pending.parts a = job.parts a

end fitting

section values

variable {fs gs : List Closure} {v w : Value} {α : Type}

theorem Value.From.plain (other : ∀ f, v ≠ .function f) : v.From fs :=
  fun f same => absurd same (other f)

theorem Value.From.listed {f : Closure} (listed : f ∈ fs) : (Value.function f).From fs := by
  rintro _ ⟨⟩
  exact listed

theorem Value.From.more (known : v.From fs) : v.From (fs ++ gs) :=
  fun f same => List.mem_append_left _ (known f same)

theorem UnaryRule.from {op : UnaryOp} {r : Except EvalFault Value} {span : Span}
    (rule : UnaryRule op v r) (known : v.From fs) :
    ∀ w ∈ (ofExcept span r).values ([·]), w.From fs := by
  cases rule with
  | not | negate => exact List.forall_mem_singleton.mpr (.plain (by simp))
  | overflow => exact nofun
  | illegal => exact List.forall_mem_singleton.mpr known

theorem BinaryRule.from {op : BinaryOp} {r : Except EvalFault Value} {span : Span}
    (rule : BinaryRule op v w r) (left : v.From fs) (right : w.From fs) :
    ∀ u ∈ (ofExcept span r).values ([·]), u.From fs := by
  cases rule with
  | exact | ordered | equal | notEqual | and | or =>
    exact List.forall_mem_singleton.mpr (.plain (by simp))
  | overflow | byZero => exact nofun
  | illegal => exact List.forall_mem_cons.mpr ⟨left, List.forall_mem_singleton.mpr right⟩

theorem Outcome.valuesCall (o : Outcome Value) : o.ofCall.values ([·]) = o.values ([·]) := by
  cases o <;> rfl

end values

section stores

variable {G : Registry} {s s₁ : Store} {scope : Scope} {v : Value}

theorem Store.Fits.lookup (fits : s.Fits G) {name : String}
    (found : s.lookup? scope name = some v) : v.From G.functions := by
  obtain ⟨i, _, found⟩ := List.exists_of_findSome?_eq_some found
  obtain ⟨before, after, frame, _⟩ := List.lookup_eq_some_iff.mp found
  exact fits.bindings i (name, v) (frame ▸ List.mem_append_right _ (.head _))

theorem Store.Fits.define (fits : s.Fits G) (scope : Scope) (name : String)
    (known : v.From G.functions) : (s.define scope name v).Fits G where
  scopes := fits.scopes.trans (s.sizeDefine scope name v).symm
  functions := fits.functions
  bindings i b member := by
    rw [Store.frameDefine] at member
    split at member
    · rcases List.mem_cons.mp member with rfl | earlier
      · exact known
      · exact fits.bindings i b earlier
    · exact fits.bindings i b member

theorem Store.Fits.defineAll {vs : List Value} (ps : List Ident) (fits : s.Fits G)
    (known : ∀ v ∈ vs, v.From G.functions) : (s.defineAll scope ps vs).Fits G := by
  induction ps generalizing vs s with
  | nil => exact fits
  | cons p ps ih =>
    cases vs with
    | nil => exact fits
    | cons v vs =>
      obtain ⟨here, others⟩ := List.forall_mem_cons.mp known
      exact ih (fits.define scope p.text here) others

theorem Store.Fits.openScope (fits : s.Fits G) {chain : List Nat}
    (around : chain = [] ∨ ∃ scope ∈ G.scopes, chain = scope.chain) :
    (s.openScope chain []).2.Fits (G.openScope chain around) ∧
      (s.openScope chain []).1 ∈ (G.openScope chain around).scopes := by
  refine ⟨⟨?_, fits.functions, ?_⟩, ?_⟩
  · simp [Registry.openScope, Store.openScope, fits.scopes]
  · intro i b member
    rw [Store.frameOpen] at member
    split at member
    · cases member
    · exact fits.bindings i b member
  · simp [Registry.openScope, Store.openScope, fits.scopes]

theorem Store.Fits.create (fits : s.Fits G) (name : Option Ident) (parameters : List Ident)
    (body : Block) (known : scope ∈ G.scopes) :
    s.create.Fits (G.create name parameters body scope known) where
  scopes := fits.scopes
  functions := by simp [Registry.create, Store.create, fits.functions]
  bindings i b member := (fits.bindings i b member).more

end stores

section steps

variable {G : Registry} {limit : Nat} {c d : Config} {α : Type}

theorem todoFits {job : Job α} {k : Pending α} {m : Machine} (machine : m.Fits G)
    (pending : k.Fits G) (sort : ∀ a, k.parts a = job.parts a)
    (known : ∀ v ∈ job.values, v.From G.functions) : Config.Fits G ⟨.todo job, k, m⟩ := by
  refine ⟨machine, pending, known, ?_⟩
  rintro _ ⟨⟩
  exact sort

theorem endedFits {k : Pending Value} {o : Outcome Value} {m : Machine} (machine : m.Fits G)
    (pending : k.Fits G) (single : ∀ v, k.parts v = [v])
    (known : ∀ v ∈ o.values ([·]), v.From G.functions) : Config.Fits G ⟨.ended o, k, m⟩ := by
  refine ⟨machine, pending, ?_, nofun⟩
  change ∀ v ∈ o.values k.parts, _
  rwa [funext single]

theorem allFits {k : Pending (List Value)} {vs : List Value} {m : Machine} (machine : m.Fits G)
    (pending : k.Fits G) (all : ∀ vs, k.parts vs = vs) (known : ∀ v ∈ vs, v.From G.functions) :
    Config.Fits G ⟨.ended (.result vs), k, m⟩ := by
  refine ⟨machine, pending, ?_, nofun⟩
  change ∀ v ∈ k.parts vs, _
  rwa [all]

theorem lookupFits {k : Pending Value} {m : Machine} (ident : Ident) (machine : m.Fits G)
    (pending : k.Fits G) (single : ∀ v, k.parts v = [v]) :
    (k.perform (Exec.lookup ident) m).Fits G := by
  simp only [Pending.perform, Exec.lookup]
  split
  · rename_i v found
    have known := List.forall_mem_singleton.mpr (machine.store.lookup found)
    exact endedFits machine pending single known
  · exact endedFits machine pending single (List.forall_mem_nil _)

theorem liftFits {k : Pending Value} {m : Machine} {r : Except EvalFault Value} {span : Span}
    (machine : m.Fits G) (pending : k.Fits G) (single : ∀ v, k.parts v = [v])
    (known : ∀ v ∈ (ofExcept span r).values ([·]), v.From G.functions) :
    (k.perform (Exec.lift r span) m).Fits G := by
  rw [performEnds (Exec.liftExcept r span)]
  exact endedFits machine pending single known

theorem Config.Fits.listed (fits : c.Fits G) {f : Closure} (held : c.Holds (.function f)) :
    f ∈ G.functions := by
  cases held with
  | focus member => exact fits.focus _ member f rfl
  | pending member => exact fits.pending.values _ member f rfl
  | bound member => exact fits.machine.store.bindings _ _ member f rfl

theorem enterFits {k : Pending Value} {m : Machine} {around : Scope} (pending : k.Fits G)
    (single : ∀ v, k.parts v = [v]) (current : m.current ∈ G.scopes) (known : around ∈ G.scopes)
    (store : m.store.Fits G) (ps : List Ident) {vs : List Value}
    (values : ∀ v ∈ vs, v.From G.functions) (ts : List Stmt) (active : Nat) :
    ∃ G', G.Grows [] G' ∧
      (k.enter m.current (m.store.openChild around).1 ts
        ⟨(m.store.openChild around).2.defineAll (m.store.openChild around).1 ps vs, m.current,
          active⟩).Fits G' := by
  obtain ⟨opened, inner⟩ := store.openScope (.inr ⟨around, known, rfl⟩)
  refine ⟨G.openScope around.chain (.inr ⟨around, known, rfl⟩), .opened G _, ?_, ?_, ?_, ?_⟩
  · exact ⟨opened.defineAll ps values, inner⟩
  · refine ⟨pending.values, ?_, single, pending.sorted⟩
    exact List.forall_mem_cons.mpr ⟨List.mem_append_left _ current,
      fun scope member => List.mem_append_left _ (pending.scopes scope member)⟩
  · exact List.forall_mem_singleton.mpr (.plain (by simp))
  · rintro job ⟨⟩
    exact fun v => rfl

theorem beginFits {job : Job α} {k : Pending α} {m : Machine}
    (fits : Config.Fits G ⟨.todo job, k, m⟩)
    (other : ∀ name parameters body, ¬ Config.Literal name parameters body ⟨.todo job, k, m⟩) :
    ∃ G', G.Grows [] G' ∧ (job.begin limit k m).Fits G' := by
  obtain ⟨machine, pending, focus, sort⟩ := fits
  replace sort := sort job rfl
  have plain : ∀ {v : Value}, (∀ f, v ≠ .function f) → ∀ w ∈ [v], w.From G.functions :=
    fun kind => List.forall_mem_singleton.mpr (.plain kind)
  cases job with
  | expr e =>
    have pushed {k' : Pending Value} (same : k'.values = k.values ∧ k'.scopes = k.scopes)
        (sorted : k'.Sorted) : k'.Fits G :=
      ⟨same.1 ▸ pending.values, same.2 ▸ pending.scopes, sorted⟩
    cases e with
    | integer | boolean | string =>
      exact ⟨G, .refl G, endedFits machine pending sort (plain (by simp))⟩
    | name ident => exact ⟨G, .refl G, lookupFits ident machine pending sort⟩
    | function name parameters body => exact absurd .mk (other name parameters body)
    | unary | binary | call | conditional =>
      refine ⟨G, .refl G, todoFits machine ?_ (fun _ => rfl) (List.forall_mem_nil _)⟩
      exact pushed ⟨rfl, rfl⟩ ⟨sort, pending.sorted⟩
  | exprs es =>
    cases es with
    | nil => exact ⟨G, .refl G, allFits machine pending sort (List.forall_mem_nil _)⟩
    | cons e es =>
      have rest : (Pending.head es k).Fits G :=
        ⟨pending.values, pending.scopes, sort, pending.sorted⟩
      exact ⟨G, .refl G, todoFits machine rest (fun _ => rfl) (List.forall_mem_nil _)⟩
  | stmt t =>
    cases t with
    | binding own e =>
      have rest : (Pending.binding own k).Fits G :=
        ⟨pending.values, pending.scopes, sort, pending.sorted⟩
      exact ⟨G, .refl G, todoFits machine rest (fun _ => rfl) (List.forall_mem_nil _)⟩
    | returning value =>
      cases value with
      | none => exact ⟨G, .refl G, endedFits machine pending sort (plain (by simp))⟩
      | some e =>
        have rest : (Pending.returning k).Fits G :=
          ⟨pending.values, pending.scopes, sort, pending.sorted⟩
        exact ⟨G, .refl G, todoFits machine rest (fun _ => rfl) (List.forall_mem_nil _)⟩
    | expression | block =>
      exact ⟨G, .refl G, todoFits machine pending sort (List.forall_mem_nil _)⟩
  | stmts last ts =>
    cases ts with
    | nil => exact ⟨G, .refl G, endedFits machine pending sort focus⟩
    | cons t ts =>
      have rest : (Pending.statements ts k).Fits G :=
        ⟨pending.values, pending.scopes, sort, pending.sorted⟩
      exact ⟨G, .refl G, todoFits machine rest (fun _ => rfl) (List.forall_mem_nil _)⟩
  | block b =>
    obtain ⟨ts, span⟩ := b
    exact enterFits pending sort machine.current machine.current machine.store []
      (List.forall_mem_nil _) ts m.active
  | application f vs span =>
    obtain ⟨function, values⟩ := List.forall_mem_cons.mp focus
    simp only [Job.begin]
    split
    · exact ⟨G, .refl G, endedFits machine pending sort (List.forall_mem_nil _)⟩
    · split
      · exact ⟨G, .refl G, endedFits machine pending sort (List.forall_mem_nil _)⟩
      · have body : (Pending.body k).Fits G :=
          ⟨pending.values, pending.scopes, sort, pending.sorted⟩
        exact enterFits body (fun _ => rfl) machine.current (G.captured f (function f rfl))
          machine.store f.parameters values f.body.statements (m.active + 1)

theorem resumeFits {a : α} {k : Pending α} {m : Machine}
    (fits : Config.Fits G ⟨.ended (.result a), k, m⟩) (step : k.resume a m = some d) :
    d.Fits G := by
  obtain ⟨machine, ⟨values, scopes, sorted⟩, focus, _⟩ := fits
  cases k with
  | done => cases step
  | operand op span k =>
    cases step
    have known : a.From G.functions := List.forall_mem_singleton.mp focus
    exact liftFits machine ⟨values, scopes, sorted.2⟩ sorted.1 ((applyUnary op a).from known)
  | left op right span k =>
    cases step
    refine todoFits machine ⟨?_, scopes, sorted⟩ (fun _ => rfl) (List.forall_mem_nil _)
    exact List.forall_mem_cons.mpr ⟨List.forall_mem_singleton.mp focus, values⟩
  | right op left span k =>
    cases step
    obtain ⟨first, values⟩ := List.forall_mem_cons.mp values
    have second : a.From G.functions := List.forall_mem_singleton.mp focus
    exact liftFits machine ⟨values, scopes, sorted.2⟩ sorted.1
      ((applyBinary op left a).from first second)
  | condition first second k =>
    simp only [Pending.resume] at step
    split at step
    · cases step
      exact todoFits machine ⟨values, scopes, sorted.2⟩ sorted.1 (List.forall_mem_nil _)
    · cases second with
      | none =>
        cases step
        exact endedFits machine ⟨values, scopes, sorted.2⟩ sorted.1
          (List.forall_mem_singleton.mpr (.plain (by simp)))
      | some second =>
        cases step
        exact todoFits machine ⟨values, scopes, sorted.2⟩ sorted.1 (List.forall_mem_nil _)
  | callee place es span k =>
    cases a with
    | function f =>
      cases step
      refine todoFits machine ⟨?_, scopes, sorted⟩ (fun _ => rfl) (List.forall_mem_nil _)
      exact List.forall_mem_cons.mpr ⟨List.forall_mem_singleton.mp focus, values⟩
    | _ =>
      cases step
      exact endedFits machine ⟨values, scopes, sorted.2⟩ sorted.1 focus
  | arguments f span k =>
    cases step
    obtain ⟨function, values⟩ := List.forall_mem_cons.mp values
    exact todoFits machine ⟨values, scopes, sorted.2⟩ sorted.1
      (List.forall_mem_cons.mpr ⟨function, focus⟩)
  | head es k =>
    cases step
    refine todoFits machine ⟨?_, scopes, sorted⟩ (fun _ => rfl) (List.forall_mem_nil _)
    exact List.forall_mem_cons.mpr ⟨List.forall_mem_singleton.mp focus, values⟩
  | tail v k =>
    cases step
    obtain ⟨first, values⟩ := List.forall_mem_cons.mp values
    exact allFits machine ⟨values, scopes, sorted.2⟩ sorted.1
      (List.forall_mem_cons.mpr ⟨first, focus⟩)
  | binding own k =>
    cases step
    have known : a.From G.functions := List.forall_mem_singleton.mp focus
    exact endedFits ⟨machine.store.define m.current own.text known, machine.current⟩
      ⟨values, scopes, sorted.2⟩ sorted.1 (List.forall_mem_singleton.mpr (.plain (by simp)))
  | returning k =>
    cases step
    exact endedFits machine ⟨values, scopes, sorted.2⟩ sorted.1 focus
  | statements ts k =>
    cases step
    exact todoFits machine ⟨values, scopes, sorted.2⟩ sorted.1 focus
  | scope around k =>
    cases step
    obtain ⟨current, scopes⟩ := List.forall_mem_cons.mp scopes
    exact endedFits ⟨machine.store, current⟩ ⟨values, scopes, sorted.2⟩ sorted.1 focus
  | body k =>
    cases step
    exact endedFits ⟨machine.store, machine.current⟩ ⟨values, scopes, sorted.2⟩ sorted.1 focus

theorem unwindFits {o : {β : Type} → Outcome β} {k : Pending α} {m : Machine} (vs : List Value)
    (same : ∀ {β : Type} (parts : β → List Value), o.values parts = vs)
    (fits : Config.Fits G ⟨.ended o, k, m⟩) (step : k.unwind o m = some d) : d.Fits G := by
  obtain ⟨machine, ⟨values, scopes, sorted⟩, focus, _⟩ := fits
  change ∀ v ∈ o.values k.parts, _ at focus
  rw [same] at focus
  have known {β : Type} (parts : β → List Value) : ∀ v ∈ o.values parts, v.From G.functions := by
    rwa [same]
  cases k with
  | done => cases step
  | right _ _ _ k | arguments _ _ k | tail _ k =>
    cases step
    exact ⟨machine, ⟨(List.forall_mem_cons.mp values).2, scopes, sorted.2⟩, known _, nofun⟩
  | scope around k =>
    cases step
    obtain ⟨current, scopes⟩ := List.forall_mem_cons.mp scopes
    exact ⟨⟨machine.store, current⟩, ⟨values, scopes, sorted.2⟩, known _, nofun⟩
  | body k =>
    cases step
    have call := (valuesCall o).symm ▸ known ([·])
    exact endedFits ⟨machine.store, machine.current⟩ ⟨values, scopes, sorted.2⟩ sorted.1 call
  | _ =>
    cases step
    exact ⟨machine, ⟨values, scopes, sorted.2⟩, known _, nofun⟩

theorem stepFits (fits : c.Fits G)
    (other : ∀ name parameters body, ¬ c.Literal name parameters body)
    (step : c.step limit = some d) :
    ∃ G', G.Grows [] G' ∧ d.Fits G' := by
  obtain ⟨focus, k, m⟩ := c
  cases focus with
  | todo job =>
    cases step
    exact beginFits fits other
  | ended o =>
    cases o with
    | result a => exact ⟨G, .refl G, resumeFits fits step⟩
    | leaving v => exact ⟨G, .refl G, unwindFits (o := .leaving v) [v] (fun _ => rfl) fits step⟩
    | failure e =>
      exact ⟨G, .refl G,
        unwindFits (o := .failure e) e.fault.operands (fun _ => rfl) fits step⟩

theorem literalFits {name : Option Ident} {parameters : List Ident} {body : Block}
    (fits : c.Fits G) (literal : c.Literal name parameters body) (step : c.step limit = some d) :
    ∃ G', d.Fits G' ∧ ∃ f, d.Yields f ∧ G.Grows [f] G' ∧
      f.name = name ∧ f.parameters = parameters ∧ f.body = body ∧ f.scope = c.machine.current := by
  cases literal with
  | @mk span k m =>
    obtain ⟨⟨store, current⟩, pending, _, sort⟩ := fits
    let f : Closure := ⟨m.store.created, name, parameters, body, m.current⟩
    let G' := G.create name parameters body m.current current
    have functions : G'.functions = G.functions ++ [f] := by
      simp [f, G', Registry.create, store.functions]
    have listed : f ∈ G'.functions := functions ▸ List.mem_append_right _ (.head _)
    have created := store.create name parameters body current
    have pending' : k.Fits G' :=
      ⟨fun v member => (pending.values v member).more, pending.scopes, pending.sorted⟩
    have result : ∀ v ∈ (Outcome.result (.function f)).values ([·]), v.From G'.functions :=
      List.forall_mem_singleton.mpr (.listed listed)
    refine ⟨G', ?_, f, ?_, ⟨fun _ => id, functions⟩, rfl, rfl, rfl, rfl⟩
    · cases name with
      | none =>
        cases step
        exact endedFits ⟨created, current⟩ pending' (sort _ rfl) result
      | some own =>
        cases step
        exact endedFits ⟨created.define m.current own.text (.listed listed), current⟩ pending'
          (sort _ rfl) result
    · cases name <;> cases step <;> exact .mk

theorem createsFits {fs : List Closure} (creates : Creates limit c fs d) (fits : c.Fits G) :
    ∃ G', G.Grows fs G' ∧ d.Fits G' := by
  induction creates generalizing G with
  | here => exact ⟨G, .refl G, fits⟩
  | literal literal step function _ ih =>
    obtain ⟨G', fits', f, function', grows, _⟩ := literalFits fits literal step
    obtain rfl := yieldsOnce function function'
    obtain ⟨G'', further, ends⟩ := ih fits'
    exact ⟨G'', grows.trans further, ends⟩
  | other other step _ ih =>
    obtain ⟨G', grows, fits'⟩ := stepFits fits other step
    obtain ⟨G'', further, ends⟩ := ih fits'
    exact ⟨G'', grows.trans further, ends⟩

end steps

namespace Session

structure Fits (G : Registry) (s : Session) : Prop where
  store : s.machine.store.Fits G
  globals : s.globals ∈ G.scopes

section histories

variable {G : Registry} {limit bound : Nat} {s : Session} {a : Action} {c : Config}
  {fs : List Closure}

theorem Fits.evaluating (fits : s.Fits G) (p : Program) : (s.evaluating p).Fits G :=
  todoFits ⟨fits.store, fits.globals⟩ ⟨nofun, nofun, trivial⟩ (fun _ => rfl)
    (List.forall_mem_singleton.mpr (.plain (by simp)))

theorem Fits.apart (fits : s.Fits G) : ∃ G', G.Grows [] G' ∧ s.apart.Fits G' := by
  obtain ⟨store, globals⟩ := fits.store.openScope (.inl rfl)
  exact ⟨_, .opened G (.inl rfl), store, globals⟩

theorem Starts.fits (starts : s.Starts a bound c) (fits : s.Fits G) (rest : s.AtRest)
    (known : a.From G.functions) : ∃ G', G.Grows [] G' ∧ c.Fits G' := by
  cases starts with
  | evaluate p | run => exact ⟨G, .refl G, fits.evaluating _⟩
  | runApart =>
    obtain ⟨G', grows, fits'⟩ := fits.apart
    exact ⟨G', grows, fits'.evaluating _⟩
  | call f vs span =>
    have values : ∀ v ∈ Value.function f :: vs, v.From G.functions :=
      List.forall_mem_cons.mpr ⟨.listed known.1, known.2⟩
    have current : s.machine.current ∈ G.scopes := rest.outside ▸ fits.globals
    exact ⟨G, .refl G,
      todoFits ⟨fits.store, current⟩ ⟨nofun, nofun, trivial⟩ (fun _ => rfl) values⟩

theorem Gives.fits (gives : s.Gives a fs) (fits : s.Fits G) (rest : s.AtRest)
    (known : a.From G.functions) : ∃ G', G.Grows fs G' ∧ (s.act a).Fits G' := by
  cases gives with
  | evaluated starts creates =>
    obtain ⟨o, m, run, acted⟩ := starts.halts rest
    obtain ⟨G', grows, fits'⟩ := starts.fits fits rest known
    obtain ⟨G'', further, ends⟩ := createsFits creates fits'
    cases endsOnce creates.reaches run (stepEnded _ _ _) (stepEnded _ _ _)
    refine ⟨G'', grows.trans further, ?_⟩
    rw [acted]
    exact ⟨ends.machine.store, further.scopes _ (grows.scopes _ fits.globals)⟩
  | nothing idle =>
    cases a with
    | evaluate p => exact absurd (.evaluate p) (idle _ _)
    | call f vs span => exact absurd (.call f vs span) (idle _ _)
    | define name v => exact ⟨G, .refl G, fits.store.define s.globals name known, fits.globals⟩
    | run source =>
      cases read : readProgram source with
      | ok p => exact absurd (.run read) (idle _ _)
      | error e =>
        simp only [act, runRefused read]
        exact ⟨G, .refl G, fits⟩
    | runApart source =>
      cases read : readProgram source with
      | ok p => exact absurd (.runApart read) (idle _ _)
      | error e =>
        have acted : s.act (.runApart source) =
            s.withStore (s.apart.run source).2.machine.store := rfl
        obtain ⟨G', grows, apart⟩ := fits.apart
        rw [acted, runRefused read]
        exact ⟨G', grows, apart.store, grows.scopes _ fits.globals⟩

end histories

end Session

section moments

variable {limit : Nat} {s : Session} {c : Config} {fs : List Closure} {held : List Scope}

theorem History.fits (history : History limit s held fs) :
    ∃ G : Registry, G.functions = fs ∧ s.Fits G ∧ ∀ scope ∈ held, scope ∈ G.scopes := by
  induction history with
  | start =>
    have empty : Store.empty.Fits .empty := ⟨rfl, rfl, nofun⟩
    obtain ⟨store, globals⟩ := empty.openScope (.inl rfl)
    exact ⟨_, rfl, ⟨store, globals⟩, List.forall_mem_singleton.mpr globals⟩
  | act history known gives ih =>
    obtain ⟨G, rfl, fits, among⟩ := ih
    obtain ⟨G', grows, fits'⟩ := gives.fits fits history.atRest known
    exact ⟨G', grows.functions, fits', fun scope member => grows.scopes scope (among scope member)⟩
  | @opened _ _ _ outer _ around ih =>
    obtain ⟨G, rfl, fits, among⟩ := ih
    replace around : outer = [] ∨ ∃ scope ∈ G.scopes, outer = scope.chain :=
      around.imp_right fun ⟨scope, member, chain⟩ => ⟨scope, among scope member, chain⟩
    obtain ⟨store, new⟩ := fits.store.openScope around
    have grows := Registry.Grows.opened G around
    refine ⟨G.openScope outer around, rfl, ⟨store, grows.scopes _ fits.globals⟩, ?_⟩
    exact List.forall_mem_append.mpr ⟨fun scope member => grows.scopes scope (among scope member),
      List.forall_mem_singleton.mpr new⟩
  | @bound _ _ _ scope name _ _ _ known ih =>
    obtain ⟨G, rfl, fits, among⟩ := ih
    exact ⟨G, rfl, ⟨fits.store.define scope name known, fits.globals⟩, among⟩
  | @created _ _ _ scope name parameters body _ member ih =>
    obtain ⟨G, rfl, fits, among⟩ := ih
    have store := fits.store.create name parameters body (among scope member)
    exact ⟨_, by rw [← fits.store.functions]; rfl, ⟨store, fits.globals⟩, among⟩

theorem Moment.fits (moment : Moment limit held fs c) :
    ∃ G : Registry, G.functions = fs ∧ c.Fits G ∧ ∀ scope ∈ held, scope ∈ G.scopes := by
  cases moment with
  | mk history known starts creates =>
    obtain ⟨G, rfl, fits, among⟩ := history.fits
    obtain ⟨G', grows, begun⟩ := starts.fits fits history.atRest known
    obtain ⟨G'', further, fits'⟩ := createsFits creates begun
    have all := grows.trans further
    exact ⟨G'', all.functions, fits', fun scope member => all.scopes scope (among scope member)⟩

end moments

end Scriptlet

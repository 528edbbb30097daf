import Mathlib.Data.List.Forall2
import Mathlib.Data.List.Induction
import Scriptlet.Proofs.Enclosing

/-! What a name means in a scope.
Actions on scopes may come in any order. What a name is bound to is read off the actions alone: a
scope goes by the number of the action that made it, and a handle is the number of any action that
gave the scope. The value of a name is the latest one bound to it in the nearest scope that has
one. -/
namespace Scriptlet

inductive ScopeAction where
  | root
  | child (outer : Nat)
  | clone (scope : Nat)
  | define (scope : Nat) (name : String) (v : Value)

structure Scopes where
  store : Store
  given : List (Option Scope)

namespace Scopes

def scope? (h : Scopes) (n : Nat) : Option Scope := h.given[n]?.join

def gives (x : Option Scope) (store : Store) (h : Scopes) : Scopes := ⟨store, h.given ++ [x]⟩

def act (h : Scopes) : ScopeAction → Scopes
  | .root => h.gives (some h.store.openRoot.1) h.store.openRoot.2
  | .child outer =>
      match h.scope? outer with
      | some outer => h.gives (some (h.store.openChild outer).1) (h.store.openChild outer).2
      | none => h.gives none h.store
  | .clone scope => h.gives (h.scope? scope) h.store
  | .define scope name v =>
      match h.scope? scope with
      | some scope => h.gives none (h.store.define scope name v)
      | none => h.gives none h.store

def after (acts : List ScopeAction) : Scopes := acts.foldl act ⟨.empty, []⟩

def get? (h : Scopes) (n : Nat) (name : String) : Option Value :=
  (h.scope? n).bind fun scope => h.store.lookup? scope name

def localNames? (h : Scopes) (n : Nat) : Option (List String) :=
  (h.scope? n).map h.store.localNames

end Scopes

section histories

variable (acts : List ScopeAction)

inductive Handle : Nat → Nat → Prop where
  | root {n} (made : acts[n]? = some .root) : Handle n n
  | child {n u c} (made : acts[n]? = some (.child u)) (earlier : u < n) (outer : Handle u c) :
      Handle n n
  | clone {n u c} (cloned : acts[n]? = some (.clone u)) (earlier : u < n) (same : Handle u c) :
      Handle n c

inductive Chain : Nat → List Nat → Prop where
  | root {c} (made : acts[c]? = some .root) : Chain c [c]
  | child {c u p cs} (made : acts[c]? = some (.child u)) (earlier : u < c) (outer : Handle acts u p)
      (rest : Chain p cs) : Chain c (c :: cs)

def Binds (i c : Nat) (name : String) (v : Value) : Prop :=
  ∃ n < i, acts[i]? = some (.define n name v) ∧ Handle acts n c

def Unnamed (c : Nat) (name : String) : Prop := ∀ i v, ¬ Binds acts i c name v

def Latest (c : Nat) (name : String) (v : Value) : Prop :=
  ∃ i, Binds acts i c name v ∧ ∀ j > i, ∀ w, ¬ Binds acts j c name w

/- The latest value bound in the first scope that has one. -/
def Nearest (cs : List Nat) (name : String) (v : Value) : Prop :=
  ∃ nearer c further, cs = nearer ++ c :: further ∧ (∀ d ∈ nearer, Unnamed acts d name) ∧
    Latest acts c name v

end histories

section reading

variable {acts : List ScopeAction} {a x : ScopeAction} {n c d p i : Nat} {cs : List Nat}
  {name : String} {v w : Value}

theorem nothingBeyond {α : Type} {xs : List α} {x : α} (beyond : xs.length < i) :
    (xs ++ [x])[i]? = none :=
  List.getElem?_eq_none (by rw [List.length_append]; exact beyond)

theorem actionAt : (acts ++ [a])[i]? = some x ↔
    acts[i]? = some x ∨ i = acts.length ∧ a = x := by
  rcases Nat.lt_trichotomy i acts.length with before | rfl | beyond
  · simp [List.getElem?_append_left before, Nat.ne_of_lt before]
  · simp
  · simp [nothingBeyond beyond, Nat.ne_of_gt beyond, Nat.le_of_lt beyond]

theorem actionMore (place : acts[i]? = some x) : (acts ++ [a])[i]? = some x :=
  actionAt.mpr (.inl place)

theorem actionBefore (place : (acts ++ [a])[i]? = some x) (before : i < acts.length) :
    acts[i]? = some x :=
  (actionAt.mp place).resolve_right fun last => Nat.ne_of_lt before last.1

theorem Handle.made (handle : Handle acts n c) : c ≤ n ∧ n < acts.length := by
  have inside {i x} (place : acts[i]? = some x) : i < acts.length :=
    (List.getElem?_eq_some_iff.mp place).1
  induction handle with
  | root made | child made => exact ⟨Nat.le_refl _, inside made⟩
  | clone cloned earlier _ ih => exact ⟨Nat.le_trans ih.1 (Nat.le_of_lt earlier), inside cloned⟩

theorem Handle.more (handle : Handle acts n c) : Handle (acts ++ [a]) n c := by
  induction handle with
  | root made => exact .root (actionMore made)
  | child made earlier _ ih => exact .child (actionMore made) earlier ih
  | clone cloned earlier _ ih => exact .clone (actionMore cloned) earlier ih

theorem Handle.before (handle : Handle (acts ++ [a]) n c) (before : n < acts.length) :
    Handle acts n c := by
  induction handle with
  | root made => exact .root (actionBefore made before)
  | child made earlier _ ih =>
    exact .child (actionBefore made before) earlier (ih (Nat.lt_trans earlier before))
  | clone cloned earlier _ ih =>
    exact .clone (actionBefore cloned before) earlier (ih (Nat.lt_trans earlier before))

theorem Handle.once (one : Handle acts n c) (other : Handle acts n d) : c = d := by
  induction one with
  | root made =>
    cases other with
    | root | child => rfl
    | clone cloned => cases made.symm.trans cloned
  | child made =>
    cases other with
    | root | child => rfl
    | clone cloned => cases made.symm.trans cloned
  | clone cloned _ _ ih =>
    cases other with
    | root made | child made => cases made.symm.trans cloned
    | clone cloned' _ same =>
      cases cloned.symm.trans cloned'
      exact ih same

theorem Chain.more (chain : Chain acts c cs) : Chain (acts ++ [a]) c cs := by
  induction chain with
  | root made => exact .root (actionMore made)
  | child made earlier outer _ ih => exact .child (actionMore made) earlier outer.more ih

theorem Chain.once {ds : List Nat} (one : Chain acts c cs) (other : Chain acts c ds) :
    cs = ds := by
  induction one generalizing ds with
  | root made =>
    cases other with
    | root => rfl
    | child made' => cases made.symm.trans made'
  | child made _ outer _ ih =>
    cases other with
    | root made' => cases made.symm.trans made'
    | child made' _ outer' rest' =>
      cases made.symm.trans made'
      obtain rfl := outer.once outer'
      rw [ih rest']

theorem Chain.decreasing (chain : Chain acts c cs) :
    (∀ d ∈ cs, d ≤ c) ∧ cs.Pairwise (· > ·) := by
  induction chain with
  | root => simp
  | @child c u p cs _ earlier outer _ ih =>
    have older : p < c := Nat.lt_of_le_of_lt outer.made.1 earlier
    have all : ∀ d ∈ cs, d < c := fun d member => Nat.lt_of_le_of_lt (ih.1 d member) older
    exact ⟨List.forall_mem_cons.mpr ⟨Nat.le_refl _, fun d member => Nat.le_of_lt (all d member)⟩,
      List.pairwise_cons.mpr ⟨all, ih.2⟩⟩

theorem Binds.early (binds : Binds acts i c name v) : i < acts.length := by
  obtain ⟨_, _, place, _⟩ := binds
  exact (List.getElem?_eq_some_iff.mp place).1

theorem bindsBefore (before : i < acts.length) :
    Binds (acts ++ [a]) i c name v ↔ Binds acts i c name v := by
  constructor
  · rintro ⟨n, earlier, place, handle⟩
    exact ⟨n, earlier, actionBefore place before, handle.before (Nat.lt_trans earlier before)⟩
  · rintro ⟨n, earlier, place, handle⟩
    exact ⟨n, earlier, actionMore place, handle.more⟩

theorem bindsLast : Binds (acts ++ [a]) acts.length c name v ↔
    ∃ n, a = .define n name v ∧ Handle acts n c := by
  constructor
  · rintro ⟨n, earlier, place, handle⟩
    rw [List.getElem?_concat_length] at place
    exact ⟨n, Option.some.inj place, handle.before earlier⟩
  · rintro ⟨n, rfl, handle⟩
    exact ⟨n, handle.made.2, List.getElem?_concat_length, handle.more⟩

theorem Binds.beforeOrLast (binds : Binds (acts ++ [a]) i c name v) :
    Binds acts i c name v ∨ i = acts.length := by
  have early := binds.early
  rw [List.length_append, List.length_singleton, Nat.lt_succ_iff] at early
  rcases Nat.lt_or_eq_of_le early with before | last
  · exact .inl ((bindsBefore before).mp binds)
  · exact .inr last

theorem latestKept (quiet : ∀ w, ¬ Binds (acts ++ [a]) acts.length c name w) :
    Latest (acts ++ [a]) c name v ↔ Latest acts c name v := by
  constructor
  · rintro ⟨i, binds, last⟩
    rcases binds.beforeOrLast with before | rfl
    · exact ⟨i, before, fun j later w binds =>
        last j later w ((bindsBefore binds.early).mpr binds)⟩
    · exact absurd binds (quiet v)
  · rintro ⟨i, binds, last⟩
    refine ⟨i, (bindsBefore binds.early).mpr binds, fun j later w binds => ?_⟩
    rcases binds.beforeOrLast with before | rfl
    · exact last j later w before
    · exact quiet w binds

theorem latestLast (binds : Binds (acts ++ [a]) acts.length c name w) :
    Latest (acts ++ [a]) c name v ↔ v = w := by
  obtain ⟨n, rfl, handle⟩ := bindsLast.mp binds
  constructor
  · rintro ⟨i, binds', last⟩
    rcases binds'.beforeOrLast with before | rfl
    · exact absurd binds (last _ before.early w)
    · obtain ⟨m, same, _⟩ := bindsLast.mp binds'
      cases same
      rfl
  · rintro rfl
    refine ⟨acts.length, binds, fun j later w binds => ?_⟩
    have early := binds.early
    rw [List.length_append, List.length_singleton] at early
    omega

theorem latestOf {i : Nat} {v : Value} (binds : Binds acts i c name v) :
    ∃ w, Latest acts c name w := by
  by_cases later : ∃ j > i, ∃ w, Binds acts j c name w
  · obtain ⟨j, after, w, binds'⟩ := later
    have early := binds'.early
    exact latestOf binds'
  · exact ⟨v, i, binds, fun j after w binds' => later ⟨j, after, w, binds'⟩⟩
termination_by acts.length - i

theorem unnamedLatest : Unnamed acts c name ↔ ∀ v, ¬ Latest acts c name v := by
  constructor
  · rintro none v ⟨i, binds, _⟩
    exact none i v binds
  · intro none i v binds
    obtain ⟨w, latest⟩ := latestOf binds
    exact none w latest

theorem unnamedKept (quiet : ∀ w, ¬ Binds (acts ++ [a]) acts.length c name w) :
    Unnamed (acts ++ [a]) c name ↔ Unnamed acts c name := by
  rw [unnamedLatest, unnamedLatest]
  exact forall_congr' fun v => not_congr (latestKept quiet)

theorem nearestCons : Nearest acts (c :: cs) name v ↔
    Latest acts c name v ∨ Unnamed acts c name ∧ Nearest acts cs name v := by
  constructor
  · rintro ⟨nearer, d, further, same, none, latest⟩
    cases nearer with
    | nil =>
      obtain ⟨rfl, _⟩ := List.cons.inj same
      exact .inl latest
    | cons e nearer =>
      obtain ⟨rfl, rest⟩ := List.cons.inj same
      obtain ⟨here, none⟩ := List.forall_mem_cons.mp none
      exact .inr ⟨here, nearer, d, further, rest, none, latest⟩
  · rintro (latest | ⟨here, nearer, d, further, rfl, none, latest⟩)
    · exact ⟨[], c, cs, rfl, nofun, latest⟩
    · exact ⟨c :: nearer, d, further, rfl, List.forall_mem_cons.mpr ⟨here, none⟩, latest⟩

theorem nearestNone : (∀ v, ¬ Nearest acts cs name v) ↔ ∀ c ∈ cs, Unnamed acts c name := by
  induction cs with
  | nil => exact ⟨fun _ => nofun, fun _ v ⟨nearer, c, further, same, _⟩ => by simp at same⟩
  | cons c cs ih =>
    rw [List.forall_mem_cons, ← ih, unnamedLatest]
    simp only [nearestCons, not_or, not_and, unnamedLatest]
    exact ⟨fun none => ⟨fun v => (none v).1, fun v => (none v).2 fun w => (none w).1⟩,
      fun none v => ⟨none.1 v, fun _ => none.2 v⟩⟩

theorem nearestKept (quiet : ∀ c ∈ cs, ∀ w, ¬ Binds (acts ++ [a]) acts.length c name w) :
    Nearest (acts ++ [a]) cs name v ↔ Nearest acts cs name v := by
  simp only [Nearest]
  refine exists_congr fun nearer => exists_congr fun c => exists_congr fun further =>
    and_congr_right ?_
  rintro rfl
  obtain ⟨before, here, _⟩ := List.forall_mem_append.mp quiet |>.imp_right List.forall_mem_cons.mp
  exact and_congr (forall₂_congr fun d member => unnamedKept (before d member)) (latestKept here)

end reading

/- The handles and the frames that there are after some actions. `made` tells for each frame which
action made its scope. -/
structure Mirrors (acts : List ScopeAction) (h : Scopes) (made : List Nat) : Prop where
  given : h.given.length = acts.length
  frames : made.length = h.store.frames.size
  distinct : made.Nodup
  early : ∀ c ∈ made, c < acts.length
  handles : ∀ n c, Handle acts n c → ∃ scope, h.scope? n = some scope
  scopes : ∀ n scope, h.scope? n = some scope → ∃ c cs, Handle acts n c ∧ Chain acts c cs ∧
    List.Forall₂ (fun own d => made[own]? = some d) scope.chain cs
  bindings : ∀ own c, made[own]? = some c → ∀ name v,
    (h.store.frame own).lookup name = some v ↔ Latest acts c name v

section mirroring

variable {acts : List ScopeAction} {a : ScopeAction} {h : Scopes} {made made' : List Nat}
  {n c u : Nat} {cs : List Nat} {name : String} {v : Value} {scope : Scope}

theorem scopeGiven (h : Scopes) (x : Option Scope) (store : Store) (n : Nat) :
    (h.gives x store).scope? n = if n = h.given.length then x else h.scope? n := by
  simp only [Scopes.gives, Scopes.scope?]
  rcases Nat.lt_trichotomy n h.given.length with before | rfl | beyond
  · simp [List.getElem?_append_left before, Nat.ne_of_lt before]
  · simp
  · rw [nothingBeyond beyond, if_neg (Nat.ne_of_gt beyond),
      List.getElem?_eq_none (Nat.le_of_lt beyond)]

theorem Mirrors.goesOn (mirrors : Mirrors acts h made) {x : Option Scope} {store : Store}
    (kept : ∀ own d : Nat, made[own]? = some d → made'[own]? = some d)
    (frames : made'.length = store.frames.size) (distinct : made'.Nodup)
    (early : ∀ d ∈ made', d < (acts ++ [a]).length)
    (handle : ∀ d, Handle (acts ++ [a]) acts.length d → ∃ scope, x = some scope)
    (scope : ∀ scope, x = some scope → ∃ d ds, Handle (acts ++ [a]) acts.length d ∧
      Chain (acts ++ [a]) d ds ∧ List.Forall₂ (fun own d => made'[own]? = some d) scope.chain ds)
    (bindings : ∀ own d, made'[own]? = some d → ∀ name v,
      (store.frame own).lookup name = some v ↔ Latest (acts ++ [a]) d name v) :
    Mirrors (acts ++ [a]) (h.gives x store) made' where
  given := by simp [Scopes.gives, mirrors.given]
  frames := frames
  distinct := distinct
  early := early
  handles n d is := by
    rw [scopeGiven, mirrors.given]
    split
    · rename_i last
      exact handle d (last ▸ is)
    · have inside := is.made.2
      rw [List.length_append, List.length_singleton] at inside
      exact mirrors.handles n d (is.before (by omega))
  scopes n scope' there := by
    rw [scopeGiven, mirrors.given] at there
    split at there
    · rename_i last
      rw [last]
      exact scope scope' there
    · obtain ⟨d, ds, is, chain, around⟩ := mirrors.scopes n scope' there
      exact ⟨d, ds, is.more, chain.more, around.imp kept⟩
  bindings := bindings

theorem Mirrors.passed (mirrors : Mirrors acts h made) {x : Option Scope}
    (quiet : ∀ n name v, a ≠ .define n name v ∨ ∀ d, ¬ Handle acts n d)
    (handle : ∀ d, Handle (acts ++ [a]) acts.length d → ∃ scope, x = some scope)
    (same : ∀ scope, x = some scope → ∃ n, h.scope? n = some scope ∧
      ∀ d, Handle acts n d → Handle (acts ++ [a]) acts.length d) :
    Mirrors (acts ++ [a]) (h.gives x h.store) made := by
  have silent (d name v) : ¬ Binds (acts ++ [a]) acts.length d name v := by
    rw [bindsLast]
    rintro ⟨n, rfl, is⟩
    exact (quiet n name v).elim (fun other => other rfl) (fun none => none d is)
  refine mirrors.goesOn (fun _ _ => id) mirrors.frames mirrors.distinct ?_ handle ?_ ?_
  · intro d member
    rw [List.length_append]
    exact Nat.lt_add_right _ (mirrors.early d member)
  · intro scope there
    obtain ⟨n, given, handle⟩ := same scope there
    obtain ⟨d, ds, is, chain, around⟩ := mirrors.scopes n scope given
    exact ⟨d, ds, handle d is, chain.more, around⟩
  · intro own d place name v
    rw [mirrors.bindings own d place, latestKept (silent d name)]

theorem Mirrors.opened (mirrors : Mirrors acts h made) {outer : List Nat}
    (quiet : ∀ n name v, a ≠ .define n name v)
    (handle : Handle (acts ++ [a]) acts.length acts.length)
    (chain : Chain (acts ++ [a]) acts.length (acts.length :: cs))
    (around : List.Forall₂ (fun own d => made[own]? = some d) outer cs) :
    Mirrors (acts ++ [a]) (h.gives (some (h.store.openScope outer []).1)
      (h.store.openScope outer []).2) (made ++ [acts.length]) := by
  have silent (d name v) : ¬ Binds (acts ++ [a]) acts.length d name v := by
    rw [bindsLast]
    rintro ⟨n, rfl, _⟩
    exact quiet n name v rfl
  have new : acts.length ∉ made := fun member => Nat.lt_irrefl _ (mirrors.early _ member)
  have kept (own d : Nat) (place : made[own]? = some d) :
      (made ++ [acts.length])[own]? = some d := by
    rw [List.getElem?_append_left (List.getElem?_eq_some_iff.mp place).1, place]
  refine mirrors.goesOn kept ?_ ?_ ?_ (fun _ _ => ⟨_, rfl⟩) ?_ ?_
  · simp [Store.openScope, mirrors.frames]
  · refine List.nodup_append.mpr ⟨mirrors.distinct, List.nodup_singleton _, ?_⟩
    intro d member e last same
    exact new (List.mem_singleton.mp last ▸ same ▸ member)
  · intro d member
    rw [List.length_append, List.length_singleton]
    rcases List.mem_append.mp member with old | last
    · exact Nat.lt_succ_of_lt (mirrors.early d old)
    · exact List.mem_singleton.mp last ▸ Nat.lt_succ_self _
  · rintro scope ⟨⟩
    refine ⟨_, _, handle, chain, .cons ?_ (around.imp kept)⟩
    change (made ++ [acts.length])[h.store.frames.size]? = _
    rw [← mirrors.frames, List.getElem?_concat_length]
  · intro own d place name v
    rw [Store.frameOpen, ← mirrors.frames, latestKept (silent d name)]
    rcases Nat.lt_trichotomy own made.length with before | rfl | beyond
    · rw [List.getElem?_append_left before] at place
      rw [if_neg (Nat.ne_of_lt before), mirrors.bindings own d place]
    · rw [List.getElem?_concat_length] at place
      cases place
      rw [if_pos rfl]
      constructor
      · intro found
        cases found
      · rintro ⟨i, ⟨n, _, _, is⟩, _⟩
        exact absurd (Nat.lt_of_le_of_lt is.made.1 is.made.2) (Nat.lt_irrefl _)
    · rw [nothingBeyond beyond] at place
      cases place

theorem ownPlace (chain : Chain acts c cs)
    (around : List.Forall₂ (fun own d => made[own]? = some d) scope.chain cs) :
    made[scope.own]? = some c := by
  cases chain with
  | root | child => cases around with | cons place _ => exact place

theorem unhandled : ¬ Handle (acts ++ [.define n name v]) acts.length c := by
  intro is
  cases is with
  | root made | child made | clone made =>
    rw [List.getElem?_concat_length] at made
    cases made

theorem Mirrors.defined (mirrors : Mirrors acts h made) (there : h.scope? n = some scope) :
    Mirrors (acts ++ [.define n name v]) (h.gives none (h.store.define scope name v)) made := by
  -- Each frame was opened by an action of its own, so no other one gets the binding.
  obtain ⟨c, cs, is, chain, around⟩ := mirrors.scopes n scope there
  have own := ownPlace chain around
  refine mirrors.goesOn (fun _ _ => id) ?_ mirrors.distinct ?_ ?_ nofun ?_
  · rw [Store.sizeDefine, mirrors.frames]
  · intro d member
    rw [List.length_append]
    exact Nat.lt_add_right _ (mirrors.early d member)
  · exact fun d is => absurd is unhandled
  · intro i d place other w
    have inside : i < h.store.frames.size :=
      mirrors.frames ▸ (List.getElem?_eq_some_iff.mp place).1
    rw [Store.frameDefine]
    by_cases bound : scope.own = i ∧ name = other
    · obtain ⟨rfl, rfl⟩ := bound
      obtain rfl := Option.some.inj (own.symm.trans place)
      have binds : Binds (acts ++ [.define n name v]) acts.length c name v :=
        bindsLast.mpr ⟨n, rfl, is⟩
      rw [if_pos ⟨rfl, inside⟩, List.lookup_cons_self, latestLast binds, Option.some.injEq,
        eq_comm]
    · have silent (w) : ¬ Binds (acts ++ [.define n name v]) acts.length d other w := by
        rw [bindsLast]
        rintro ⟨_, ⟨⟩, is'⟩
        obtain rfl := is.once is'
        obtain ⟨here, first⟩ := List.getElem?_eq_some_iff.mp own
        obtain ⟨here', second⟩ := List.getElem?_eq_some_iff.mp place
        exact bound ⟨mirrors.distinct.getElem_inj_iff.mp (first.trans second.symm), rfl⟩
      rw [latestKept silent, ← mirrors.bindings i d place]
      split
      · rename_i same
        have differ : (other == name) = false :=
          beq_eq_false_iff_ne.mpr fun equal => bound ⟨same.1, equal.symm⟩
        rw [List.lookup_cons, differ]
      · rfl

theorem Mirrors.acted (mirrors : Mirrors acts h made) (a : ScopeAction) :
    ∃ made', Mirrors (acts ++ [a]) (h.act a) made' := by
  have last : (acts ++ [a])[acts.length]? = some a := List.getElem?_concat_length
  have missing {u d} (none : h.scope? u = none) : ¬ Handle acts u d := by
    intro is
    obtain ⟨scope, there⟩ := mirrors.handles u d is
    cases none.symm.trans there
  cases a with
  | root => exact ⟨_, mirrors.opened nofun (.root last) (.root last) .nil⟩
  | child u =>
    simp only [Scopes.act]
    cases there : h.scope? u with
    | none =>
      refine ⟨_, mirrors.passed (fun _ _ _ => .inl nofun) ?_ nofun⟩
      intro d is
      cases is with
      | root made | clone made => cases last.symm.trans made
      | child made earlier outer =>
        cases last.symm.trans made
        exact absurd (outer.before earlier) (missing there)
    | some outer =>
      obtain ⟨c, cs, is, chain, around⟩ := mirrors.scopes u outer there
      have inside := is.made.2
      exact ⟨_, mirrors.opened nofun (.child last inside is.more)
        (.child last inside is.more chain.more) around⟩
  | clone u =>
    refine ⟨_, mirrors.passed (fun _ _ _ => .inl nofun) ?_ ?_⟩
    · intro d is
      cases is with
      | root made | child made => cases last.symm.trans made
      | clone cloned earlier same =>
        cases last.symm.trans cloned
        exact mirrors.handles u d (same.before earlier)
    · exact fun scope there => ⟨u, there, fun d is => .clone last is.made.2 is.more⟩
  | define u name v =>
    simp only [Scopes.act]
    cases there : h.scope? u with
    | none =>
      refine ⟨_, mirrors.passed ?_ (fun d is => absurd is unhandled) nofun⟩
      intro n other w
      by_cases same : n = u
      · exact .inr fun d => same ▸ missing there
      · exact .inl fun equal => same (by cases equal; rfl)
    | some scope => exact ⟨_, mirrors.defined there⟩

theorem mirrored (acts : List ScopeAction) :
    ∃ made, Mirrors acts (Scopes.after acts) made := by
  induction acts using List.reverseRecOn with
  | nil =>
    refine ⟨[], rfl, rfl, .nil, nofun, ?_, nofun, nofun⟩
    exact fun n c is => absurd is.made.2 (Nat.not_lt_zero n)
  | append_singleton acts a ih =>
    obtain ⟨made, mirrors⟩ := ih
    rw [Scopes.after, List.foldl_append]
    exact mirrors.acted a

variable {owns : List Nat}

theorem Mirrors.seen (mirrors : Mirrors acts h made) (handle : Handle acts n c) :
    ∃ scope cs, h.scope? n = some scope ∧ Chain acts c cs ∧
      List.Forall₂ (fun own d => made[own]? = some d) scope.chain cs := by
  obtain ⟨scope, there⟩ := mirrors.handles n c handle
  obtain ⟨d, cs, is, chain, around⟩ := mirrors.scopes n scope there
  obtain rfl := handle.once is
  exact ⟨scope, cs, there, chain, around⟩

theorem Mirrors.nearest (mirrors : Mirrors acts h made)
    (around : List.Forall₂ (fun own d => made[own]? = some d) owns cs) :
    (owns.findSome? fun own => (h.store.frame own).lookup name) = some v ↔
      Nearest acts cs name v := by
  induction around with
  | nil => exact ⟨nofun, fun ⟨nearer, c, further, same, _⟩ => by simp at same⟩
  | @cons own c owns cs place _ ih =>
    have here := mirrors.bindings own c place name
    rw [nearestCons, unnamedLatest, ← ih, List.findSome?_cons]
    simp only [← here]
    cases (h.store.frame own).lookup name <;> simp

theorem Mirrors.same (mirrors : Mirrors acts h made) {m d : Nat} (one : Handle acts n c)
    (other : Handle acts m d) : h.scope? m = h.scope? n ↔ d = c := by
  have left : Relator.LeftUnique fun own d : Nat => made[own]? = some d := by
    intro i j d first second
    obtain ⟨here, first⟩ := List.getElem?_eq_some_iff.mp first
    obtain ⟨here', second⟩ := List.getElem?_eq_some_iff.mp second
    exact mirrors.distinct.getElem_inj_iff.mp (first.trans second.symm)
  obtain ⟨scope, cs, there, chain, around⟩ := mirrors.seen one
  obtain ⟨scope', cs', there', chain', around'⟩ := mirrors.seen other
  rw [there, there', Option.some.injEq]
  constructor
  · rintro rfl
    exact Option.some.inj ((ownPlace chain' around').symm.trans (ownPlace chain around))
  · rintro rfl
    obtain rfl := chain.once chain'
    cases scope
    cases scope'
    cases List.left_unique_forall₂' left around' around
    rfl

end mirroring

theorem eraseDupsNodup : ∀ texts : List String, texts.eraseDups.Nodup
  | [] => .nil
  | text :: texts => by
    have fewer := Nat.lt_succ_of_le (texts.length_filter_le fun other => !other == text)
    rw [List.eraseDups_cons]
    refine List.nodup_cons.mpr ⟨?_, eraseDupsNodup _⟩
    simp
termination_by texts => texts.length

theorem Store.namesSorted (s : Store) (scope : Scope) :
    (s.localNames scope).Pairwise (· < ·) := by
  have sorted : (s.localNames scope).Pairwise fun a b => decide (a ≤ b) :=
    List.pairwise_mergeSort (by simpa using fun a b c => String.le_trans)
      (by simpa using String.le_total) _
  have distinct : (s.localNames scope).Nodup :=
    (List.mergeSort_perm _ _).nodup_iff.mpr (eraseDupsNodup _)
  refine (sorted.and distinct).imp ?_
  intro a b ⟨before, differ⟩
  refine Classical.byContradiction fun late => differ ?_
  exact String.le_antisymm (of_decide_eq_true before) (String.not_lt.mp late)

theorem Store.memNames {s : Store} {scope : Scope} {name : String} :
    name ∈ s.localNames scope ↔ ∃ v, (s.frame scope.own).lookup name = some v := by
  simp only [localNames, List.mem_mergeSort, List.mem_eraseDups, List.mem_map,
    ← Option.isSome_iff_exists, List.lookup_isSome_iff, beq_iff_eq, eq_comm (a := name)]

section handles

variable {acts : List ScopeAction} {n c u d : Nat} {cs nearer further : List Nat} {name : String}
  {v : Value}

theorem getNearest (handle : Handle acts n c) (chain : Chain acts c cs) :
    (Scopes.after acts).get? n name = some v ↔ Nearest acts cs name v := by
  obtain ⟨made, mirrors⟩ := mirrored acts
  obtain ⟨scope, cs', there, chain', around⟩ := mirrors.seen handle
  obtain rfl := chain.once chain'
  rw [Scopes.get?, there]
  exact mirrors.nearest around

theorem getNone (handle : Handle acts n c) (chain : Chain acts c cs) :
    (Scopes.after acts).get? n name = none ↔ ∀ d ∈ cs, Unnamed acts d name := by
  rw [← nearestNone, Option.eq_none_iff_forall_ne_some]
  exact forall_congr' fun v => not_congr (getNearest handle chain)

theorem namesBound (handle : Handle acts n c) :
    ∃ names, (Scopes.after acts).localNames? n = some names ∧ names.Pairwise (· < ·) ∧
      ∀ name, name ∈ names ↔ ∃ i v, Binds acts i c name v := by
  obtain ⟨made, mirrors⟩ := mirrored acts
  obtain ⟨scope, cs, there, chain, around⟩ := mirrors.seen handle
  refine ⟨_, by rw [Scopes.localNames?, there, Option.map_some], Store.namesSorted _ _, ?_⟩
  intro name
  simp only [Store.memNames, mirrors.bindings _ c (ownPlace chain around)]
  constructor
  · rintro ⟨v, i, binds, _⟩
    exact ⟨i, v, binds⟩
  · rintro ⟨i, v, binds⟩
    exact latestOf binds

theorem seenInside (handle : Handle acts n c) (chain : Chain acts c (nearer ++ d :: further))
    (unnamed : ∀ e ∈ nearer, Unnamed acts e name) (outer : Handle acts u d) :
    (Scopes.after (acts ++ [.define u name v])).get? n name = some v := by
  refine (getNearest handle.more chain.more).mpr ⟨nearer, d, further, rfl, ?_, ?_⟩
  · intro e member
    have differ := (List.pairwise_append.mp chain.decreasing.2).2.2 e member d (.head _)
    refine (unnamedKept fun w binds => ?_).mpr (unnamed e member)
    obtain ⟨_, ⟨⟩, outer'⟩ := bindsLast.mp binds
    exact absurd (outer.once outer') (Nat.ne_of_lt differ)
  · exact (latestLast (bindsLast.mpr ⟨u, rfl, outer⟩)).mpr rfl

theorem unseenOutside (handle : Handle acts n c) (chain : Chain acts c cs)
    (outer : Handle acts u d) (outside : d ∉ cs) (other : String) :
    (Scopes.after (acts ++ [.define u name v])).get? n other =
      (Scopes.after acts).get? n other := by
  refine Option.ext fun w => ?_
  rw [getNearest handle.more chain.more, getNearest handle chain]
  refine nearestKept fun e member w binds => ?_
  obtain ⟨_, ⟨⟩, outer'⟩ := bindsLast.mp binds
  exact outside (outer.once outer' ▸ member)

end handles

/-- What scopes give after any actions on them. A handle gives the latest value bound in the nearest
scope that has one, nothing if none has, and as names, in order, those bound in its own scope. Two
handles are one scope if and only if one action opened it, which cloning does not. What is bound in
a scope is seen at once from all scopes inside that do not bind the name further in, whenever these
were opened, and is not seen from any scope that is not inside.
And at every moment of a history, with scopes opened and functions created from outside as well, all
scopes there are stand in an order of frames that leads from younger to older ones, so every search
for a name comes to its end. -/
theorem nearestLatest :
    (∀ acts n c, Handle acts n c → ∃ cs, Chain acts c cs ∧ cs.Pairwise (· > ·) ∧
      (∀ ds, Chain acts c ds → ds = cs) ∧
      (∀ name v, (Scopes.after acts).get? n name = some v ↔ Nearest acts cs name v) ∧
      (∀ name, (Scopes.after acts).get? n name = none ↔ ∀ d ∈ cs, Unnamed acts d name) ∧
      (∃ names, (Scopes.after acts).localNames? n = some names ∧ names.Pairwise (· < ·) ∧
        ∀ name, name ∈ names ↔ ∃ i v, Binds acts i c name v) ∧
      (∀ m d, Handle acts m d →
        ((Scopes.after acts).scope? m = (Scopes.after acts).scope? n ↔ d = c)) ∧
      ∀ u d name v, Handle acts u d →
        (∀ nearer further, cs = nearer ++ d :: further → (∀ e ∈ nearer, Unnamed acts e name) →
          (Scopes.after (acts ++ [.define u name v])).get? n name = some v) ∧
        (d ∉ cs → ∀ other, (Scopes.after (acts ++ [.define u name v])).get? n other =
          (Scopes.after acts).get? n other)) ∧
    ∀ limit held fs c, Moment limit held fs c → ∃ parent : Nat → Option Nat,
      (∀ i p, parent i = some p → p < i) ∧ ∀ scope, scope ∈ held ∨ c.HasScope scope →
        scope.own < c.machine.store.frames.size ∧ Outward parent scope.chain ∧
        scope.chain.Pairwise (· > ·) ∧ ∀ name, Search parent c.machine.store name scope.own
          (c.machine.store.lookup? scope name) := by
  refine ⟨?_, fun limit held fs c => Moment.searches⟩
  intro acts n c handle
  obtain ⟨made, mirrors⟩ := mirrored acts
  obtain ⟨scope, cs, there, chain, around⟩ := mirrors.seen handle
  refine ⟨cs, chain, chain.decreasing.2, fun ds other => other.once chain,
    fun name v => getNearest handle chain, fun name => getNone handle chain, namesBound handle,
    fun m d other => mirrors.same handle other, fun u d name v outer => ⟨?_, ?_⟩⟩
  · rintro nearer further rfl unnamed
    exact seenInside handle chain unnamed outer
  · exact fun outside other => unseenOutside handle chain outer outside other

def reopened : List ScopeAction :=
  [.root, .define 0 "x" (.integer 1), .child 0, .clone 2, .define 3 "y" .unit]

def knot : Program :=
  ⟨[.expression (.function (some ⟨"knot", .nowhere⟩) [] (.mk [] .nowhere) .nowhere) .nowhere]⟩

theorem seenThroughClone :
    (Scopes.after (reopened ++ [.define 0 "x" (.integer 2)])).get? 3 "x" = some (.integer 2) ∧
    (Scopes.after reopened).get? 2 "y" = some .unit ∧
    (Scopes.after reopened).get? 0 "y" = none ∧
    ∃ held fs c f name, Moment 1 held fs c ∧ c.Holds (.function f) ∧
      (name, .function f) ∈ c.machine.store.frame f.scope.own ∧
      f.scope.chain.Pairwise (· > ·) := by
  have root : Handle reopened 0 0 := .root rfl
  have child : Handle reopened 2 2 := .child rfl (by decide) root
  have clone : Handle reopened 3 2 := .clone rfl (by decide) child
  have way : Chain reopened 2 [2, 0] := .child rfl (by decide) root (.root rfl)
  have placed {i n name v} (place : reopened[i]? = some (.define n name v)) :
      i ≤ 4 ∧ (n = 0 ∧ name = "x" ∨ n = 3 ∧ name = "y") := by
    rcases i with _ | _ | _ | _ | _ | i <;> simp [reopened] at place ⊢ <;> simp [place]
  refine ⟨?_, ?_, ?_, ?_⟩
  · obtain ⟨cs, chain, _, _, _, _, _, _, seen⟩ := nearestLatest.1 reopened 3 2 clone
    obtain rfl := chain.once way
    refine (seen 0 0 "x" (.integer 2) root).1 [2] [] rfl ?_
    refine List.forall_mem_singleton.mpr ?_
    rintro i v ⟨n, _, place, handle⟩
    rcases (placed place).2 with ⟨rfl, _⟩ | ⟨_, other⟩
    · cases handle.once root
    · exact absurd other (by decide)
  · obtain ⟨cs, chain, _, _, value, _⟩ := nearestLatest.1 reopened 2 2 child
    obtain rfl := chain.once way
    refine (value "y" .unit).mpr ⟨[], 2, [0], rfl, List.forall_mem_nil _, 4,
      ⟨3, by decide, rfl, clone⟩, ?_⟩
    rintro j later w ⟨n, _, place, _⟩
    exact absurd (placed place).1 (Nat.not_le_of_gt later)
  · obtain ⟨cs, chain, _, _, _, none, _⟩ := nearestLatest.1 reopened 0 0 root
    obtain rfl := chain.once (.root rfl)
    refine (none "y").mpr (List.forall_mem_singleton.mpr ?_)
    rintro i v ⟨n, _, place, handle⟩
    rcases (placed place).2 with ⟨_, other⟩ | ⟨rfl, _⟩
    · exact absurd other (by decide)
    · cases handle.once clone
  · have shown : (((Session.start 1).after [.evaluate knot]).machine.store.frame 0).map
        (·.2.function?.map (·.scope.own)) = [some 0] := by decide +kernel
    obtain ⟨fs, moment⟩ := betweenPrograms 1 knot ⟨[]⟩
    -- Of this session no more is needed than these two facts, and nothing should compute it again.
    generalize (Session.start 1).after [.evaluate knot] = s at shown moment ⊢
    obtain ⟨⟨name, v⟩, frame, looks⟩ := List.map_eq_singleton_iff.mp shown
    obtain ⟨f, there, own⟩ := Option.map_eq_some_iff.mp looks
    obtain rfl := Value.functionThere.mp there
    have bound : (name, .function f) ∈ s.machine.store.frame 0 := frame ▸ .head _
    have held : (s.evaluating ⟨[]⟩).Holds (.function f) := .bound bound
    obtain ⟨parent, _, scopes⟩ := nearestLatest.2 1 _ _ _ moment
    have chain := (scopes f.scope (.inr (.captured held))).2.2.1
    exact ⟨_, _, _, f, name, moment, held, own ▸ bound, chain⟩

end Scriptlet

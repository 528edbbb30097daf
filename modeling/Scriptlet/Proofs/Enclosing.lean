import Scriptlet.Proofs.Registry

/-! Scopes around scopes.
Each frame is opened in at most one other, which was there before it; so frames have no circle, also
where a function is bound in the very scope that it captured. A name is searched for from frame to
frame on the way out, and every such search ends. -/
namespace Scriptlet

inductive Outward (parent : Nat → Option Nat) : List Nat → Prop where
  | outermost {i} (last : parent i = none) : Outward parent [i]
  | inside {i p chain} (around : parent i = some p) (rest : Outward parent (p :: chain)) :
      Outward parent (i :: p :: chain)

inductive Search (parent : Nat → Option Nat) (s : Store) (name : String) :
    Nat → Option Value → Prop where
  | found {i v} (here : (s.frame i).lookup name = some v) : Search parent s name i (some v)
  | ended {i} (absent : (s.frame i).lookup name = none) (last : parent i = none) :
      Search parent s name i none
  | goesOn {i p r} (absent : (s.frame i).lookup name = none) (around : parent i = some p)
      (rest : Search parent s name p r) : Search parent s name i r

section chains

variable {parent : Nat → Option Nat} {chain : List Nat}

theorem Outward.decreasing (older : ∀ i p, parent i = some p → p < i)
    (way : Outward parent chain) : chain.Pairwise (· > ·) := by
  induction way with
  | outermost => exact List.pairwise_singleton _ _
  | @inside i p chain around _ ih =>
    have next := older i p around
    refine List.pairwise_cons.mpr ⟨?_, ih⟩
    intro j member
    rcases List.mem_cons.mp member with rfl | beyond
    · exact next
    · exact Nat.lt_trans (List.rel_of_pairwise_cons ih beyond) next

theorem Outward.search {i : Nat} (way : Outward parent (i :: chain)) (s : Store) (name : String) :
    Search parent s name i ((i :: chain).findSome? fun own => (s.frame own).lookup name) := by
  induction chain generalizing i with
  | nil =>
    cases way with
    | outermost last =>
      cases here : (s.frame i).lookup name with
      | none => simpa [here] using .ended here last
      | some v => simpa [here] using .found here
  | cons p chain ih =>
    cases way with
    | inside around rest =>
      cases here : (s.frame i).lookup name with
      | none => simpa [here] using .goesOn here around (ih rest)
      | some v => simpa [here] using .found here

end chains

namespace Registry

variable {G : Registry} {scope : Scope}

def parent (G : Registry) (i : Nat) : Option Nat := G.scopes[i]?.bind (·.outer.head?)

theorem parentOf (member : scope ∈ G.scopes) : G.parent scope.own = scope.outer.head? := by
  obtain ⟨i, place⟩ := List.mem_iff_getElem?.mp member
  simp only [parent, G.ownAt place, place, Option.bind_some]

theorem parentOlder (G : Registry) (i p : Nat) (around : G.parent i = some p) : p < i := by
  obtain ⟨scope, place, head⟩ := Option.bind_eq_some_iff.mp around
  rcases G.enclosed scope (List.mem_of_getElem? place) with alone | ⟨outer, _, older, chain⟩
  · rw [alone] at head
    cases head
  · rw [chain] at head
    cases head
    rwa [G.ownAt place] at older

theorem outward {scope : Scope} (member : scope ∈ G.scopes) : Outward G.parent scope.chain := by
  rcases G.enclosed scope member with alone | ⟨outer, among, older, chain⟩
  · have last : G.parent scope.own = none := by rw [parentOf member, alone, List.head?_nil]
    rw [Scope.chain, alone]
    exact .outermost last
  · have around : G.parent scope.own = some outer.own := by
      rw [parentOf member, chain, Scope.chain, List.head?_cons]
    rw [Scope.chain, chain]
    exact .inside around (outward among)
termination_by scope.own

end Registry

theorem Config.Fits.scopes {G : Registry} {c : Config} (fits : c.Fits G) {scope : Scope}
    (has : c.HasScope scope) : scope ∈ G.scopes := by
  cases has with
  | current => exact fits.machine.current
  | pending member => exact fits.pending.scopes scope member
  | captured held => exact G.captured _ (fits.listed held)

theorem Moment.searches {limit : Nat} {held : List Scope} {fs : List Closure} {c : Config}
    (moment : Moment limit held fs c) : ∃ parent : Nat → Option Nat,
      (∀ i p, parent i = some p → p < i) ∧ ∀ scope, scope ∈ held ∨ c.HasScope scope →
        scope.own < c.machine.store.frames.size ∧ Outward parent scope.chain ∧
        scope.chain.Pairwise (· > ·) ∧ ∀ name, Search parent c.machine.store name scope.own
          (c.machine.store.lookup? scope name) := by
  obtain ⟨G, _, fits, among⟩ := moment.fits
  refine ⟨G.parent, G.parentOlder, fun scope there => ?_⟩
  have member := there.elim (among scope) fits.scopes
  have way := G.outward member
  have opened : scope.own < c.machine.store.frames.size :=
    fits.machine.store.scopes ▸ G.below member
  exact ⟨opened, way, way.decreasing G.parentOlder, way.search c.machine.store⟩

end Scriptlet

import Scriptlet.Syntax

/-! The nodes of a tree, and the names that they mention. -/
namespace Scriptlet

inductive Node.Has : Node → Node → Prop where
  | self (n : Node) : Has n n
  | deeper {n c d} (child : c ∈ n.children) (inner : Has c d) : Has n d

def Program.Has (p : Program) (n : Node) : Prop := ∃ t ∈ p.statements, (Node.stmt t).Has n

def Node.naming? : Node → Option Ident
  | expr (.name ident) | introduced ident | parameter ident => some ident
  | _ => none

def Node.Mentions (name : String) (n : Node) : Prop :=
  ∃ d ident, n.Has d ∧ d.naming? = some ident ∧ ident.text = name

def Program.Mentions (name : String) (p : Program) : Prop :=
  ∃ t ∈ p.statements, (Node.stmt t).Mentions name

namespace Node

variable {n m c : Node} {name : String} {ident : Ident}

theorem Has.child (inner : n.Has m) (child : c ∈ m.children) : n.Has c := by
  induction inner with
  | self => exact .deeper child (.self c)
  | deeper first _ ih => exact .deeper first (ih child)

theorem Has.trans (first : n.Has m) (second : m.Has c) : n.Has c := by
  induction first with
  | self => exact second
  | deeper child _ ih => exact .deeper child (ih second)

theorem Mentions.self (naming : n.naming? = some ident) : n.Mentions ident.text :=
  ⟨n, ident, .self n, naming, rfl⟩

theorem Mentions.deeper (child : c ∈ n.children) (mentions : c.Mentions name) :
    n.Mentions name := by
  obtain ⟨d, ident, inner, naming⟩ := mentions
  exact ⟨d, ident, .deeper child inner, naming⟩

theorem unmentioned (own : ∀ ident ∈ n.naming?, ident.text ≠ name)
    (below : ∀ c ∈ n.children, ¬ c.Mentions name) : ¬ n.Mentions name := by
  rintro ⟨d, ident, inner, naming, same⟩
  cases inner with
  | self => exact own ident naming same
  | deeper child inner => exact below _ child ⟨d, ident, inner, naming, same⟩

end Node

end Scriptlet

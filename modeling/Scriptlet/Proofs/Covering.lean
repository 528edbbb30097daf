import Scriptlet.Proofs.Nodes
import Scriptlet.Proofs.Tiling

/-! Nodes over the tokens of a text.
Tokens lie in a text one behind the other, so spans are told by numbers of tokens. A node covers
the tokens from `i` up to `j` if its span reaches from the first to the last one of them, its
children cover parts of them in their order, and so it goes on below. -/
namespace Scriptlet

def Position.UpTo (p q : Position) : Prop := p = q ∨ p.byte < q.byte

namespace Position.UpTo

variable {p q r : Position}

theorem trans (first : p.UpTo q) (second : q.UpTo r) : p.UpTo r := by
  rcases first with rfl | first
  · exact second
  · rcases second with rfl | second
    · exact .inr first
    · exact .inr (Nat.lt_trans first second)

theorem byte (order : p.UpTo q) : p.byte ≤ q.byte := by
  rcases order with rfl | order
  · exact Nat.le_refl _
  · exact Nat.le_of_lt order

theorem earlier (order : p.UpTo q) : p.earlier q = p := by
  rcases order with rfl | order
  · exact ite_self _
  · have behind : q.order p = .gt := by
      simp [Position.order, Nat.compare_eq_gt.mpr order]
    rw [Position.earlier, behind]
    rfl

theorem later (order : p.UpTo q) : p.later q = q := by
  rcases order with rfl | order
  · exact ite_self _
  · have before : p.order q = .lt := by
      simp [Position.order, Nat.compare_eq_lt.mpr order]
    rw [Position.later, before]
    rfl

theorem afterAll (p : Position) (cs : List Char) : p.UpTo (p.afterAll cs) := by
  cases cs with
  | nil => exact .inl rfl
  | cons c cs =>
    obtain ⟨n, size, _⟩ := bytesCons c cs
    rw [UpTo, afterAllByte, size]
    exact .inr (Nat.lt_add_of_pos_right (Nat.succ_pos n))

end Position.UpTo

structure Orderly (spans : List Span) : Prop where
  filled : ∀ s ∈ spans, s.start.byte < s.stop.byte
  apart : spans.Pairwise fun a b => a.stop.UpTo b.start

theorem Lexes.orderly {p : Position} {cs : List Char} {ts : List Token}
    (lexes : Lexes p cs (.ok ts)) : ∃ inner last, ts = inner ++ [.endAt last] ∧
      Orderly (inner.map Token.span) ∧
      ∀ t ∈ inner, t.kind ≠ .endOfInput ∧ p.UpTo t.span.start := by
  -- No lexeme is empty, and a gap takes a reader no place back.
  generalize result : Except.ok ts = r at lexes
  induction lexes generalizing ts with
  | ended =>
    cases result
    exact ⟨[], _, rfl, ⟨nofun, .nil⟩, nofun⟩
  | @token p skipped start found stop _ r _ begins _ longest ends _ ih =>
    cases r with
    | error => cases result
    | ok later =>
      cases result
      obtain ⟨inner, last, rfl, ordered, behind⟩ := ih rfl
      obtain ⟨c, cs, text, _⟩ := lexicalShape longest.lexical
      have filled : start.byte < stop.byte := by
        obtain ⟨n, size, _⟩ := bytesCons c cs
        rw [ends, afterAllByte, text, size]
        exact Nat.lt_add_of_pos_right (Nat.succ_pos n)
      have here : p.UpTo start := begins ▸ .afterAll p skipped
      have forward : p.UpTo stop := here.trans (.inr filled)
      refine ⟨⟨found, start, stop⟩ :: inner, last, rfl, ⟨?_, ?_⟩, ?_⟩
      · exact List.forall_mem_cons.mpr ⟨filled, ordered.filled⟩
      · exact .cons (List.forall_mem_map.mpr fun t member => (behind t member).2) ordered.apart
      · refine List.forall_mem_cons.mpr ⟨⟨longest.lexical.inside, here⟩, fun t member => ?_⟩
        exact (behind t member).imp_right forward.trans
  | unterminated => cases result
  | unrecognized => cases result

section covering

variable (spans : List Span)

def spanAt (i : Nat) : Span := spans[i]?.getD .nowhere

/- From the start of token `i` to the stop of the last token before `j`. -/
def stretch (i j : Nat) : Span := ⟨(spanAt spans i).start, (spanAt spans (j - 1)).stop⟩

/- Nodes over tokens from `a` up to `b`, none empty, each one behind the one before. -/
inductive Row (lies : Node → Nat → Nat → Prop) : Nat → List Node → Nat → Prop where
  | none {a b} (order : a ≤ b) : Row lies a [] b
  | more {a i j b n ns} (behind : a ≤ i) (some : i < j) (here : lies n i j)
      (later : Row lies j ns b) : Row lies a (n :: ns) b

def Node.Over (n : Node) (i j : Nat) : Prop := n.span = stretch spans i j

structure Node.Nested (n : Node) (i j : Nat) : Prop where
  some : i < j
  within : j ≤ spans.length
  span : n.Over spans i j
  children : Row (Node.Over spans) i n.children j

structure Covers (n : Node) (i j : Nat) : Prop where
  self : n.Nested spans i j
  below : ∀ d, n.Has d → ∃ i j, d.Nested spans i j

end covering

section rows

variable {lies other : Node → Nat → Nat → Prop} {a b c i j : Nat} {n : Node} {ns ms : List Node}

theorem Row.order (row : Row lies a ns b) : a ≤ b := by
  induction row with
  | none order => exact order
  | more behind some _ _ ih => omega

theorem Row.filled (row : Row lies a ns b) (some : ns ≠ []) : a < b := by
  cases row with
  | none => exact absurd rfl some
  | more behind some _ later =>
    have := later.order
    omega

theorem Row.imp (row : Row lies a ns b) (map : ∀ n i j, lies n i j → other n i j) :
    Row other a ns b := by
  induction row with
  | none order => exact .none order
  | more behind some here _ ih => exact .more behind some (map _ _ _ here) ih

theorem Row.widen (row : Row lies b ns i) (before : a ≤ b) (behind : i ≤ j) : Row lies a ns j := by
  induction row generalizing a with
  | none order => exact .none (by omega)
  | more first some here _ ih => exact .more (by omega) some here (ih (Nat.le_refl _) behind)

theorem Row.append (first : Row lies a ns b) (second : Row lies b ms c) :
    Row lies a (ns ++ ms) c := by
  induction first with
  | none order => exact second.widen order (Nat.le_refl _)
  | more behind some here _ ih => exact .more behind some here (ih second)

theorem Row.member (row : Row lies a ns b) (member : n ∈ ns) :
    ∃ i j, a ≤ i ∧ i < j ∧ j ≤ b ∧ lies n i j := by
  induction row with
  | none => cases member
  | @more _ i j _ _ _ behind some here later ih =>
    cases member with
    | head => exact ⟨i, j, behind, some, later.order, here⟩
    | tail _ member =>
      obtain ⟨k, l, inside⟩ := ih member
      exact ⟨k, l, by omega, inside.2⟩

end rows

section spans

variable {spans : List Span} {a b i j k : Nat} {n : Node}

theorem spanInside (inside : i < spans.length) : spanAt spans i = spans[i] := by
  rw [spanAt, List.getElem?_eq_getElem inside, Option.getD_some]

theorem Orderly.filledAt (order : Orderly spans) (inside : i < spans.length) :
    (spanAt spans i).start.UpTo (spanAt spans i).stop := by
  rw [spanInside inside]
  exact .inr (order.filled _ (List.getElem_mem inside))

theorem Orderly.apartAt (order : Orderly spans) (before : i < j) (inside : j < spans.length) :
    (spanAt spans i).stop.UpTo (spanAt spans j).start := by
  have outside := Nat.lt_trans before inside
  rw [spanInside inside, spanInside outside]
  exact List.pairwise_iff_getElem.mp order.apart i j outside inside before

theorem Orderly.starts (order : Orderly spans) (behind : i ≤ j) (inside : j < spans.length) :
    (spanAt spans i).start.UpTo (spanAt spans j).start := by
  rcases Nat.eq_or_lt_of_le behind with rfl | before
  · exact .inl rfl
  · exact (order.filledAt (Nat.lt_trans before inside)).trans (order.apartAt before inside)

theorem Orderly.stops (order : Orderly spans) (behind : i ≤ j) (inside : j < spans.length) :
    (spanAt spans i).stop.UpTo (spanAt spans j).stop := by
  rcases Nat.eq_or_lt_of_le behind with rfl | before
  · exact .inl rfl
  · exact (order.apartAt before inside).trans (order.filledAt inside)

theorem Orderly.extend (order : Orderly spans) (some : i < j) (behind : j ≤ k)
    (inside : k ≤ spans.length) :
    (stretch spans i j).extend (spanAt spans (k - 1)) = stretch spans i k := by
  have start := order.starts (i := i) (j := k - 1) (by omega) (by omega)
  have stop := order.stops (i := j - 1) (j := k - 1) (by omega) (by omega)
  simp only [stretch, Span.extend, start.earlier, stop.later]

theorem Covers.node (some : i < j) (within : j ≤ spans.length) (span : n.Over spans i j)
    (children : Row (Covers spans) i n.children j) : Covers spans n i j := by
  have self : n.Nested spans i j :=
    ⟨some, within, span, children.imp fun _ _ _ covers => covers.self.span⟩
  refine ⟨self, fun d inner => ?_⟩
  cases inner with
  | self => exact ⟨i, j, self⟩
  | deeper child inner =>
    obtain ⟨_, _, _, _, _, covers⟩ := children.member child
    exact covers.below d inner

theorem Covers.token (within : i < spans.length) (span : n.span = spanAt spans i)
    (leaf : n.children = []) : Covers spans n i (i + 1) := by
  refine .node (Nat.lt_succ_self i) within span ?_
  rw [leaf]
  exact .none (Nat.le_succ i)

theorem Covers.alone (covers : Covers spans n i j) (before : a ≤ i) (behind : j ≤ b) :
    Row (Covers spans) a [n] b :=
  .more before covers.self.some covers (.none behind)

end spans

section placed

structure Node.Placed (ts : List Token) (n : Node) : Prop where
  starts : ∃ t ∈ ts, t.kind ≠ .endOfInput ∧ n.span.start = t.span.start
  stops : ∃ t ∈ ts, t.kind ≠ .endOfInput ∧ n.span.stop = t.span.stop
  filled : n.span.start.byte < n.span.stop.byte
  around : ∀ c ∈ n.children,
    n.span.start.UpTo c.span.start ∧ c.span.stop.UpTo n.span.stop
  apart : n.children.Pairwise fun c d => c.span.stop.UpTo d.span.start

variable {spans : List Span} {a b i j : Nat} {n : Node} {ns : List Node} {ts inner : List Token}

theorem Row.apart (order : Orderly spans) (row : Row (Node.Over spans) a ns b)
    (within : b ≤ spans.length) : ns.Pairwise fun c d => c.span.stop.UpTo d.span.start := by
  induction row with
  | none => exact .nil
  | @more _ i j _ _ _ behind some here later ih =>
    refine .cons (fun d member => ?_) (ih within)
    obtain ⟨k, l, before, filled, inside, span⟩ := later.member member
    rw [show _ = stretch spans i j from here, show _ = stretch spans k l from span]
    exact order.apartAt (by omega) (by omega)

theorem spanToken (inside : i < (inner.map Token.span).length) :
    ∃ t ∈ inner, spanAt (inner.map Token.span) i = t.span := by
  rw [spanInside inside, List.getElem_map]
  exact ⟨_, List.getElem_mem _, rfl⟩

theorem Node.Nested.placed (nested : n.Nested (inner.map Token.span) i j)
    (order : Orderly (inner.map Token.span))
    (real : ∀ t ∈ inner, t ∈ ts ∧ t.kind ≠ .endOfInput) : n.Placed ts := by
  obtain ⟨some, within, span, children⟩ := nested
  have ends : n.span = stretch (inner.map Token.span) i j := span
  obtain ⟨first, member, start⟩ := spanToken (Nat.lt_of_lt_of_le some within)
  obtain ⟨last, member', stop⟩ := @spanToken (j - 1) inner (by omega)
  refine ⟨⟨first, (real _ member).1, (real _ member).2, ?_⟩,
    ⟨last, (real _ member').1, (real _ member').2, ?_⟩, ?_, ?_, children.apart order within⟩
  · rw [ends, stretch, start]
  · rw [ends, stretch, stop]
  · have filled := order.filled first.span (List.mem_map_of_mem member)
    have further := (order.stops (i := i) (j := j - 1) (by omega) (by omega)).byte
    rw [← start] at filled
    rw [ends]
    exact Nat.lt_of_lt_of_le filled further
  · intro c member
    obtain ⟨k, l, before, filled, inside, lies⟩ := children.member member
    rw [ends, show c.span = stretch _ k l from lies]
    exact ⟨order.starts before (by omega), order.stops (by omega) (by omega)⟩

end placed

end Scriptlet

import Scriptlet.Proofs.GrammarComplete

/-! What is read is derived by the grammar.
Every open tree stands for the tokens read so far. The relations below say for which: the first
list holds the tokens up to where the tree is open, the second one those that are known to come
next. What comes next matters only to statements, which must not be extended by it. -/
namespace Scriptlet
open Phrase

/- Statements so far, the last one first, can go on with any list that begins as announced. -/
def Built (ts ahead : List Token) (earlier : List Stmt) : Prop :=
  ∀ us rest, us = [] ∨ ahead <+: us → Derives us (statements rest) →
    Derives (ts ++ us) (statements (earlier.reverse ++ rest))

inductive WaitingAfter : List Token → List Waiting → Prop where
  | nil : WaitingAfter [] []
  | unary {ts t op start waiting} (below : WaitingAfter ts waiting)
      (sign : (t.kind, op) ∈ unarySigns) : WaitingAfter (ts ++ [t]) (.unary op start :: waiting)
  | binary {ts us t p op left waiting} (below : WaitingAfter ts waiting)
      (looser : ∀ w ∈ waiting.head?, w.precedence.rank < p.rank)
      (first : Derives us (expression p left)) (sign : (t.kind, op) ∈ p.signs) :
      WaitingAfter (ts ++ us ++ [t]) (.binary op left :: waiting)

inductive ArgumentsAfter : List Token → List Expr → Prop where
  | none : ArgumentsAfter [] []
  | some {ts comma es} (all : Derives ts (sequence es.reverse)) (separator : comma.kind = .comma) :
      ArgumentsAfter (ts ++ [comma]) es

inductive NamesAfter : List Token → List Ident → Prop where
  | none : NamesAfter [] []
  | some {ts comma names} (all : Names ts names.reverse) (separator : comma.kind = .comma) :
      NamesAfter (ts ++ [comma]) names

mutual

inductive SlotAfter : List Token → List Token → Slot → Prop where
  | mk {us ts ahead waiting goal} (outside : GoalAfter us (ts ++ ahead) goal)
      (operators : WaitingAfter ts waiting) : SlotAfter (us ++ ts) ahead ⟨waiting, goal⟩

inductive GoalAfter : List Token → List Token → Goal → Prop where
  | statement {ts ahead start body} (around : BodyAfter ts ahead body) :
      GoalAfter ts ahead (.statement start body)
  | binding {ts w n s ahead start own body} (around : BodyAfter ts [w] body)
      (word : w.kind = .letWord) (name : n.kind = .identifier) (sign : s.kind = .equal) :
      GoalAfter (ts ++ [w, n, s]) ahead (.binding start ⟨n.text, own⟩ body)
  | returning {ts w ahead start body} (around : BodyAfter ts [w] body)
      (word : w.kind = .returnWord) : GoalAfter (ts ++ [w]) ahead (.returning start body)
  | grouped {ts l ahead outer} (around : SlotAfter ts [l] outer) (opening : l.kind = .leftParen) :
      GoalAfter (ts ++ [l]) ahead (.grouped outer)
  | argument {ts us l vs ahead callee earlier outer} (around : SlotAfter ts us outer)
      (function : Derives us (expression .call callee)) (opening : l.kind = .leftParen)
      (values : ArgumentsAfter vs earlier) :
      GoalAfter (ts ++ (us ++ l :: vs)) ahead (.argument callee earlier outer)
  | condition {ts i l ahead start outer} (around : SlotAfter ts [i] outer)
      (word : i.kind = .ifWord) (opening : l.kind = .leftParen) :
      GoalAfter (ts ++ [i, l]) ahead (.condition start outer)

inductive BodyAfter : List Token → List Token → Body → Prop where
  | program {ts ahead earlier} (built : Built ts ahead earlier) :
      BodyAfter ts ahead (.program earlier)
  | block {ts l us ahead start earlier owner} (around : OwnerAfter ts [l] owner)
      (opening : l.kind = .leftBrace) (built : Built us ahead earlier) :
      BodyAfter (ts ++ l :: us) ahead (.block start earlier owner)

inductive OwnerAfter : List Token → List Token → Owner → Prop where
  | statement {ts ahead start body} (around : BodyAfter ts ahead body) :
      OwnerAfter ts ahead (.statement start body)
  | consequence {ts i l us r ahead start test outer} (around : SlotAfter ts [i] outer)
      (word : i.kind = .ifWord) (opening : l.kind = .leftParen)
      (condition : Derives us (expression .lowest test)) (closing : r.kind = .rightParen) :
      OwnerAfter (ts ++ i :: l :: (us ++ [r])) ahead (.consequence start test outer)
  | alternative {ts i l us r vs w ahead start test first outer} (around : SlotAfter ts [i] outer)
      (word : i.kind = .ifWord) (opening : l.kind = .leftParen)
      (condition : Derives us (expression .lowest test)) (closing : r.kind = .rightParen)
      (consequence : Derives vs (block first)) (otherwise : w.kind = .elseWord) :
      OwnerAfter (ts ++ i :: l :: (us ++ r :: (vs ++ [w]))) ahead
        (.alternative start test first outer)
  | function {ts f hs l us r ahead start own names outer} (around : SlotAfter ts [f] outer)
      (heading : Heading (f :: hs) own) (opening : l.kind = .leftParen)
      (parameters : Parameters us names) (closing : r.kind = .rightParen) :
      OwnerAfter (ts ++ f :: (hs ++ l :: (us ++ [r]))) ahead (.function start own names outer)

end

inductive PhaseAfter : List Token → Phase → Prop where
  | statement {ts body} (around : BodyAfter ts [] body) : PhaseAfter ts (.statement body)
  | bindingName {ts w start body} (around : BodyAfter ts [w] body) (word : w.kind = .letWord) :
      PhaseAfter (ts ++ [w]) (.bindingName start body)
  | bindingSign {ts w n start own body} (around : BodyAfter ts [w] body) (word : w.kind = .letWord)
      (name : n.kind = .identifier) :
      PhaseAfter (ts ++ [w, n]) (.bindingSign start ⟨n.text, own⟩ body)
  | returnValue {ts w start body} (around : BodyAfter ts [w] body) (word : w.kind = .returnWord) :
      PhaseAfter (ts ++ [w]) (.returnValue start body)
  | operand {ts slot} (around : SlotAfter ts [] slot) : PhaseAfter ts (.operand slot)
  | connective {ts us e slot} (around : SlotAfter ts us slot)
      (whole : Derives us (expression .call e)) : PhaseAfter (ts ++ us) (.connective e slot)
  | argument {ts us l vs callee earlier outer} (around : SlotAfter ts us outer)
      (function : Derives us (expression .call callee)) (opening : l.kind = .leftParen)
      (values : ArgumentsAfter vs earlier) :
      PhaseAfter (ts ++ (us ++ l :: vs)) (.argument callee earlier outer)
  | condition {ts i start outer} (around : SlotAfter ts [i] outer) (word : i.kind = .ifWord) :
      PhaseAfter (ts ++ [i]) (.condition start outer)
  | blockOpening {ts owner} (around : OwnerAfter ts [] owner) : PhaseAfter ts (.blockOpening owner)
  | alternative {ts i l us r vs start test first outer} (around : SlotAfter ts [i] outer)
      (word : i.kind = .ifWord) (opening : l.kind = .leftParen)
      (condition : Derives us (expression .lowest test)) (closing : r.kind = .rightParen)
      (consequence : Derives vs (block first)) :
      PhaseAfter (ts ++ i :: l :: (us ++ r :: vs)) (.alternative start test first outer)
  | functionName {ts f start outer} (around : SlotAfter ts [f] outer)
      (word : f.kind = .functionWord) : PhaseAfter (ts ++ [f]) (.functionName start outer)
  | parametersOpening {ts f n start own outer} (around : SlotAfter ts [f] outer)
      (word : f.kind = .functionWord) (name : n.kind = .identifier) :
      PhaseAfter (ts ++ [f, n]) (.parametersOpening start ⟨n.text, own⟩ outer)
  | parameter {ts f hs l us start own earlier outer} (around : SlotAfter ts [f] outer)
      (heading : Heading (f :: hs) own) (opening : l.kind = .leftParen)
      (names : NamesAfter us earlier) :
      PhaseAfter (ts ++ f :: (hs ++ l :: us)) (.parameter start own earlier outer)
  | parameterEnd {ts f hs l us start own earlier outer} (around : SlotAfter ts [f] outer)
      (heading : Heading (f :: hs) own) (opening : l.kind = .leftParen)
      (names : Names us earlier.reverse) :
      PhaseAfter (ts ++ f :: (hs ++ l :: us)) (.parameterEnd start own earlier outer)
  | program {ts t rest ss} (all : Derives ts (statements ss)) (stop : t.kind = .endOfInput) :
      PhaseAfter (ts ++ t :: rest) (.program ss)

theorem Built.none (ahead : List Token) : Built [] ahead [] :=
  fun _ _ _ derives => derives

theorem Built.finish {ts ahead earlier} (built : Built ts ahead earlier) :
    Derives ts (statements earlier.reverse) := by
  simpa using built [] [] (.inl rfl) .noStatements

theorem Built.semicolon {ts t earlier} (built : Built ts [t] earlier) (sign : t.kind = .semicolon)
    (ahead : List Token) : Built (ts ++ [t]) ahead earlier := by
  intro us rest _ derives
  have all := built (t :: us) rest (.inr (List.prefix_append [t] us)) (.semicolon sign derives)
  simpa using all

theorem Built.add {ts us ahead next earlier s} (built : Built ts ahead earlier)
    (begins : ahead <+: us) (derives : Derives us (statement s))
    (whole : ∀ vs rest, next <+: vs → Derives vs (statements rest) → s.mayPrecede vs) :
    Built (ts ++ us) next (s :: earlier) := by
  intro vs rest follows later
  have longest : s.mayPrecede vs := by
    rcases follows with rfl | announced
    · cases s with
      | returning value => cases value <;> simp [Stmt.mayPrecede]
      | _ => simp [Stmt.mayPrecede]
    · exact whole vs rest announced later
  have all := built (us ++ vs) (s :: rest) (.inr (begins.trans (List.prefix_append us vs)))
    (.followed derives later longest)
  simpa using all

theorem Built.mono {ts ahead further earlier} (built : Built ts ahead earlier)
    (more : ahead <+: further) : Built ts further earlier :=
  fun us rest follows => built us rest (follows.imp_right more.trans)

theorem BodyAfter.mono {ts ahead further body} (after : BodyAfter ts ahead body)
    (more : ahead <+: further) : BodyAfter ts further body := by
  cases after with
  | program built => exact .program (built.mono more)
  | block around opening built => exact .block around opening (built.mono more)

theorem GoalAfter.mono {ts ahead further goal} (after : GoalAfter ts ahead goal)
    (more : ahead <+: further) : GoalAfter ts further goal := by
  cases after with
  | statement around => exact .statement (around.mono more)
  | binding around word name sign => exact .binding around word name sign
  | returning around word => exact .returning around word
  | grouped around opening => exact .grouped around opening
  | argument around function opening values => exact .argument around function opening values
  | condition around word opening => exact .condition around word opening

theorem OwnerAfter.mono {ts ahead further owner} (after : OwnerAfter ts ahead owner)
    (more : ahead <+: further) : OwnerAfter ts further owner := by
  cases after with
  | statement around => exact .statement (around.mono more)
  | consequence around word opening condition closing =>
    exact .consequence around word opening condition closing
  | alternative around word opening condition closing consequence otherwise =>
    exact .alternative around word opening condition closing consequence otherwise
  | function around heading opening parameters closing =>
    exact .function around heading opening parameters closing

theorem SlotAfter.mono {ts ahead further slot} (after : SlotAfter ts ahead slot)
    (more : ahead <+: further) : SlotAfter ts further slot := by
  cases after with
  | @mk us ts _ _ _ outside operators =>
    exact .mk (outside.mono ((List.prefix_append_right_inj ts).mpr more)) operators

theorem SlotAfter.connect {ts us ahead slot e} (after : SlotAfter ts ahead slot)
    (begins : ahead <+: us) (whole : Derives us (expression .call e)) :
    PhaseAfter (ts ++ us) (.connective e slot) :=
  .connective (after.mono begins) whole

theorem GoalAfter.slot {ts ahead goal} (after : GoalAfter ts ahead goal) :
    SlotAfter ts ahead goal.slot := by
  have inside : GoalAfter ts ([] ++ ahead) goal := after
  simpa [Goal.slot] using SlotAfter.mk inside .nil

theorem SlotAfter.push {ts t slot op start} (after : SlotAfter ts [t] slot)
    (sign : (t.kind, op) ∈ unarySigns) :
    SlotAfter (ts ++ [t]) [] (slot.push (.unary op start)) := by
  cases after with
  | @mk us vs _ waiting _ outside operators =>
    have pushed : WaitingAfter (vs ++ [t]) (.unary op start :: waiting) := .unary operators sign
    simpa [Slot.push] using SlotAfter.mk (outside.mono (List.prefix_append _ [])) pushed

theorem startSound {ts t slot phase} (after : SlotAfter ts [t] slot)
    (ok : slot.start t = .ok phase) : PhaseAfter (ts ++ [t]) phase := by
  unfold Slot.start at ok
  split at ok
  · rename_i kind
    cases ok
    exact .operand (after.push (by simp [unarySigns, kind]))
  · rename_i kind
    cases ok
    exact .operand (after.push (by simp [unarySigns, kind]))
  · rename_i kind
    split at ok
    · rename_i n value
      cases ok
      exact .connective after (.integer kind value)
    · cases ok
  · rename_i kind
    cases ok
    exact .connective after (.string kind)
  · rename_i kind
    cases ok
    exact .connective after (.trueWord kind)
  · rename_i kind
    cases ok
    exact .connective after (.falseWord kind)
  · rename_i kind
    cases ok
    exact .connective after (.name kind)
  · rename_i kind
    cases ok
    exact .operand (GoalAfter.grouped after kind).slot
  · rename_i kind
    cases ok
    exact .condition after kind
  · rename_i kind
    cases ok
    exact .functionName after kind
  · cases ok

theorem BodyAfter.add {ts us ahead next body s} (after : BodyAfter ts ahead body)
    (begins : ahead <+: us) (derives : Derives us (statement s))
    (whole : ∀ vs rest, next <+: vs → Derives vs (statements rest) → s.mayPrecede vs) :
    BodyAfter (ts ++ us) next (body.add s) := by
  cases after with
  | program built => exact .program (built.add begins derives whole)
  | block around opening built =>
    simpa [Body.add] using BodyAfter.block around opening (built.add begins derives whole)

theorem receiveBlock {ts us ahead last owner b} (after : OwnerAfter ts ahead owner)
    (begins : ahead <+: us) (derives : Derives us (block b)) :
    PhaseAfter (ts ++ us) (owner.receive last b) := by
  cases after with
  | statement around =>
    exact .statement (around.add begins (.blockStatement derives) fun _ _ _ _ => trivial)
  | consequence around word opening condition closing =>
    simpa [Owner.receive] using
      PhaseAfter.alternative around word opening condition closing derives
  | @alternative _ _ _ _ _ _ _ _ start test first _ around word opening condition closing
      consequence otherwise =>
    have whole : Derives _ (expression .call (.conditional test first (some b) (start.extend last))) :=
      .alternative word opening condition closing consequence otherwise derives
    simpa [Owner.receive] using around.connect (List.prefix_append [_] _) whole
  | @function _ _ _ _ _ _ _ start own names _ around heading opening parameters closing =>
    have whole : Derives _ (expression .call (.function own names b (start.extend last))) :=
      .function heading opening parameters closing derives
    simpa [Owner.receive] using around.connect (List.prefix_append [_] _) whole

theorem readBody {ts t body phase} (after : BodyAfter ts [t] body)
    (ok : body.read t = .ok phase) : PhaseAfter (ts ++ [t]) phase := by
  unfold Body.read at ok
  split at ok
  · rename_i kind
    cases ok
    refine .statement ?_
    cases after with
    | program built => exact .program (built.semicolon kind [])
    | block around opening built =>
      simpa using BodyAfter.block around opening (built.semicolon kind [])
  · rename_i kind
    cases ok
    exact .bindingName after kind
  · rename_i kind
    cases ok
    exact .returnValue after kind
  · rename_i kind
    cases ok
    exact .statement (.block (.statement after) kind (.none []))
  · rename_i kind
    cases after with
    | program built => cases ok
    | @block _ _ _ _ start earlier _ around opening built =>
      cases ok
      have whole : Derives _ (block ⟨earlier.reverse, start.extend t.span⟩) :=
        .braces opening built.finish kind
      simpa using receiveBlock around (List.prefix_append [_] _) whole
  · rename_i kind
    cases after with
    | program built => cases ok; exact .program built.finish kind
    | block around opening built => cases ok
  · exact startSound (GoalAfter.statement after).slot ok

def Waiting.operandLevel : Waiting → Precedence
  | unary .. => .unary
  | binary op _ => op.precedence.next

theorem operandLevelUnary (w : Waiting) : w.operandLevel.rank ≤ Precedence.unary.rank := by
  cases w with
  | unary => exact Nat.le_refl _
  | binary op =>
    have lower := binaryBelowUnary op
    exact Nat.le_trans (Nat.le_of_eq (rankNext lower)) lower

theorem reduceSound {ts us waiting q p last e} (operators : WaitingAfter ts waiting)
    (derives : Derives us (expression q e)) (tight : p.rank ≤ q.rank)
    (accepts : ∀ w ∈ waiting.head?, w.operandLevel.rank ≤ q.rank) :
    ∃ vs ws, ts ++ us = vs ++ ws ∧ WaitingAfter vs (reduce p last e waiting).2 ∧
      Derives ws (expression p (reduce p last e waiting).1) ∧
      ∀ w ∈ (reduce p last e waiting).2.head?, w.precedence.rank < p.rank := by
  -- Each operator that is finished moves the seam between what waits and what was read to the left.
  induction operators generalizing us q e with
  | nil => exact ⟨[], us, rfl, .nil, loosen tight derives, by simp [reduce]⟩
  | @unary ts t op start waiting below sign ih =>
    rw [reduce]
    split
    · rename_i stop
      exact ⟨_, us, rfl, .unary below sign, loosen tight derives, by simpa using stop⟩
    · rename_i more
      have operand := loosen (accepts _ rfl) derives
      have whole : Derives (t :: us) (expression .unary (.unary op e (start.extend last))) :=
        .unary sign operand
      obtain ⟨vs, ws, split, rest⟩ := ih whole (Nat.not_lt.mp more) fun w _ => operandLevelUnary w
      exact ⟨vs, ws, by simpa using split, rest⟩
  | @binary ts vs t r op left waiting below looser first sign ih =>
    obtain ⟨_, level, _⟩ := signConnective sign
    rw [reduce]
    split
    · rename_i stop
      exact ⟨_, us, rfl, .binary below looser first sign, loosen tight derives, by simpa using stop⟩
    · rename_i more
      have operand : Derives us (expression r.next e) :=
        loosen (level ▸ accepts _ rfl) derives
      have whole : Derives (vs ++ t :: us)
          (expression r (.binary op left e (left.span.extend last))) := .binary sign first operand
      have fits : ∀ w ∈ waiting.head?, w.operandLevel.rank ≤ r.rank := by
        rintro (_ | ⟨op', _⟩) member
        · exact Nat.le_of_lt (looser _ member)
        · have := looser _ member
          have := binaryBelowUnary op'
          have := rankNext this
          simp only [Waiting.operandLevel, Waiting.precedence] at *
          omega
      obtain ⟨ws, xs, split, rest⟩ := ih whole (level ▸ Nat.not_lt.mp more) fits
      exact ⟨ws, xs, by simpa using split, rest⟩

theorem reduceAllReduce (last : Span) (e : Expr) (waiting : List Waiting) :
    reduce .lowest last e waiting = (reduceAll last e waiting, []) := by
  induction waiting generalizing e with
  | nil => rfl
  | cons w ws ih =>
    have binds : ¬ w.precedence.rank < Precedence.lowest.rank := Nat.not_lt_zero _
    rw [reduce, if_neg binds, ih]
    rfl

theorem reduceAllSound {ts us waiting last e} (operators : WaitingAfter ts waiting)
    (whole : Derives us (expression .call e)) :
    Derives (ts ++ us) (expression .lowest (reduceAll last e waiting)) := by
  obtain ⟨vs, ws, split, below, all, _⟩ := @reduceSound ts us waiting .call .lowest last e operators
    whole (by decide) fun w _ => Nat.le_succ_of_le (operandLevelUnary w)
  simp only [reduceAllReduce] at below all
  cases below
  rw [List.nil_append] at split
  rwa [split]

theorem connectiveSign {k : TokenKind} {op : BinaryOp}
    (connective : Connective.ofKind? k = some (.binary op)) : (k, op) ∈ op.precedence.signs := by
  cases k <;> cases connective <;> decide

theorem connectiveCall {k : TokenKind} (connective : Connective.ofKind? k = some .call) :
    k = .leftParen := by
  cases k <;> first | contradiction | rfl

theorem endsWhole {s : Stmt} {t : Token} (plain : Connective.ofKind? t.kind = none)
    (longest : ∀ vs, (∀ v ∈ vs.head?, Connective.ofKind? v.kind = none) → s.mayPrecede vs) :
    ∀ vs rest, [t] <+: vs → Derives vs (statements rest) → s.mayPrecede vs := by
  rintro _ rest ⟨vs, rfl⟩ _
  exact longest _ (by simpa using plain)

theorem receiveSound {ts us t goal last e phase} (after : GoalAfter ts us goal)
    (whole : Derives us (expression .lowest e)) (plain : Connective.ofKind? t.kind = none)
    (ok : goal.receive last e t = .ok phase) : PhaseAfter (ts ++ us ++ [t]) phase := by
  cases after with
  | statement around =>
    refine readBody (around.add (List.prefix_refl us) (.expressionStatement whole) ?_) ok
    exact endsWhole plain fun _ longest => longest
  | @binding _ _ n _ _ start own _ around word name sign =>
    have derives : Derives _ (.statement (.binding ⟨n.text, own⟩ e (start.extend last))) :=
      .binding word name sign whole
    refine readBody ?_ ok
    simpa using around.add (List.prefix_append [_] _) derives
      (endsWhole plain fun _ longest => longest)
  | @returning _ _ _ start _ around word =>
    have derives : Derives _ (.statement (.returning (some e) (start.extend last))) :=
      .returningValue word whole
    refine readBody ?_ ok
    simpa using around.add (List.prefix_append [_] us) derives
      (endsWhole plain fun _ longest => longest)
  | grouped around opening =>
    simp only [Goal.receive] at ok
    split at ok
    · rename_i closing
      cases ok
      have grouped := Derives.grouped opening whole closing
      simpa using around.connect (List.prefix_append [_] _) grouped
    · cases ok
  | @argument _ _ _ vs _ callee earlier _ around function opening values =>
    have all : Derives (vs ++ us) (sequence (e :: earlier).reverse) := by
      cases values with
      | none => exact .one whole
      | some all separator => simpa using Derives.more all separator whole
    simp only [Goal.receive] at ok
    split at ok
    · rename_i separator
      cases ok
      simpa using PhaseAfter.argument around function opening (.some all separator)
    · rename_i closing
      cases ok
      have derives : Derives _ (expression .call
          (.call callee (e :: earlier).reverse (callee.span.extend t.span))) :=
        .call function opening (.plain all) closing
      simpa [finishCall] using around.connect (List.prefix_append _ _) derives
    · cases ok
  | condition around word opening =>
    simp only [Goal.receive] at ok
    split at ok
    · rename_i closing
      cases ok
      simpa using PhaseAfter.blockOpening (.consequence around word opening whole closing)
    · cases ok

theorem extendSound {ts us t slot last e phase} (after : SlotAfter ts us slot)
    (whole : Derives us (expression .call e)) (ok : slot.extend last e t = .ok phase) :
    PhaseAfter (ts ++ us ++ [t]) phase := by
  cases after with
  | @mk as bs _ waiting goal outside operators =>
    have seam (p : Precedence) := @reduceSound bs us waiting .call p last e operators whole
      (by cases p <;> decide) fun w _ => Nat.le_succ_of_le (operandLevelUnary w)
    simp only [Slot.extend] at ok
    split at ok
    · rename_i op connective
      cases ok
      obtain ⟨vs, ws, split, below, left, looser⟩ := seam op.precedence
      have pushed := WaitingAfter.binary below looser left (connectiveSign connective)
      have further : bs ++ us <+: vs ++ ws ++ [t] ++ [] := by simp [split]
      have inside := PhaseAfter.operand (.mk (outside.mono further) pushed)
      rw [← split] at inside
      simpa using inside
    · rename_i connective
      cases ok
      obtain ⟨vs, ws, split, below, callee, _⟩ := seam .call
      rw [split] at outside
      have inside := PhaseAfter.argument (.mk outside below) callee (connectiveCall connective) .none
      rw [List.append_assoc as, split]
      simpa using inside
    · rename_i plain
      simpa using receiveSound outside (reduceAllSound operators whole) plain ok

theorem returnWhole {t : Token} {span : Span}
    (ends : t.kind = .semicolon ∨ t.kind = .rightBrace ∨ t.kind = .endOfInput) :
    ∀ vs rest, [t] <+: vs → Derives vs (statements rest) →
      (Stmt.returning none span).mayPrecede vs := by
  rintro _ rest ⟨vs, rfl⟩ derives v member
  cases Option.some.inj member
  obtain ⟨_, brace, stop⟩ := opensInside (derives.opens t rfl)
  rcases ends with kind | kind | kind
  · exact kind
  · exact absurd kind brace
  · exact absurd kind stop

theorem ArgumentsAfter.finish {ts es} (after : ArgumentsAfter ts es) :
    Derives ts (arguments es.reverse) := by
  cases after with
  | none => exact .noArguments
  | some all separator => exact .trailing all separator

theorem parameterStart {ts f hs l start own outer} (around : SlotAfter ts [f] outer)
    (heading : Heading (f :: hs) own) (opening : l.kind = .leftParen) :
    PhaseAfter (ts ++ f :: (hs ++ [l])) (.parameter start own [] outer) :=
  .parameter around heading opening .none

theorem NamesAfter.finish {ts names} (after : NamesAfter ts names) :
    Parameters ts names.reverse := by
  cases after with
  | none => exact .none
  | some all separator => exact .trailing all separator

theorem NamesAfter.add {ts names t span} (after : NamesAfter ts names)
    (name : t.kind = .identifier) : Names (ts ++ [t]) (⟨t.text, span⟩ :: names).reverse := by
  cases after with
  | none => exact .one name
  | some all separator => simpa using Names.more all separator name

theorem readSound {ts t last phase next} (after : PhaseAfter ts phase)
    (ok : phase.read last t = .ok next) : PhaseAfter (ts ++ [t]) next := by
  cases after with
  | statement around => exact readBody (around.mono (List.nil_prefix)) ok
  | operand around => exact startSound (around.mono (List.nil_prefix)) ok
  | connective around whole => exact extendSound around whole ok
  | program all stop =>
    cases ok
    simpa using PhaseAfter.program all stop
  | bindingName around word =>
    simp only [Phase.read] at ok
    split at ok <;> cases ok
    rename_i name
    simpa using PhaseAfter.bindingSign around word name
  | bindingSign around word name =>
    simp only [Phase.read] at ok
    split at ok <;> cases ok
    rename_i sign
    simpa using PhaseAfter.operand (GoalAfter.binding around word name sign).slot
  | @returnValue _ _ start body around word =>
    have bare : Derives _ (.statement (.returning none (start.extend last))) := .returning word
    have ended (kind : t.kind = .semicolon ∨ t.kind = .rightBrace ∨ t.kind = .endOfInput)
        (ok : (body.add (.returning none (start.extend last))).read t = .ok next) :=
      readBody (around.add (List.prefix_refl _) bare (returnWhole kind)) ok
    simp only [Phase.read] at ok
    split at ok
    · exact ended (.inl ‹_›) ok
    · exact ended (.inr (.inl ‹_›)) ok
    · exact ended (.inr (.inr ‹_›)) ok
    · simpa using startSound (GoalAfter.returning around word).slot ok
  | @argument _ _ _ _ callee earlier _ around function opening values =>
    simp only [Phase.read] at ok
    split at ok
    · rename_i closing
      cases ok
      have call : Derives _ (expression .call
          (.call callee earlier.reverse (callee.span.extend t.span))) :=
        .call function opening values.finish closing
      simpa [finishCall] using around.connect (List.prefix_append _ _) call
    · simpa using startSound (GoalAfter.argument around function opening values).slot ok
  | condition around word =>
    simp only [Phase.read] at ok
    split at ok <;> cases ok
    rename_i opening
    simpa using PhaseAfter.operand (GoalAfter.condition around word opening).slot
  | blockOpening around =>
    simp only [Phase.read] at ok
    split at ok <;> cases ok
    rename_i opening
    exact .statement (.block (around.mono List.nil_prefix) opening (.none []))
  | @alternative _ _ _ _ _ _ start test first _ around word opening condition closing consequence =>
    have whole : Derives _ (expression .call (.conditional test first none (start.extend last))) :=
      .conditional word opening condition closing consequence
    simp only [Phase.read] at ok
    split at ok
    · rename_i otherwise
      cases ok
      simpa using PhaseAfter.blockOpening
        (.alternative around word opening condition closing consequence otherwise)
    · exact extendSound (around.mono (List.prefix_append [_] _)) whole ok
  | functionName around word =>
    simp only [Phase.read] at ok
    split at ok <;> cases ok
    · rename_i name
      simpa using PhaseAfter.parametersOpening around word name
    · rename_i opening
      simpa using parameterStart around (.anonymous word) opening
  | parametersOpening around word name =>
    simp only [Phase.read] at ok
    split at ok <;> cases ok
    rename_i opening
    simpa using parameterStart around (.named word name) opening
  | parameter around heading opening names =>
    simp only [Phase.read] at ok
    split at ok <;> cases ok
    · rename_i closing
      simpa using PhaseAfter.blockOpening
        (.function around heading opening names.finish closing)
    · rename_i name
      simpa using PhaseAfter.parameterEnd around heading opening (names.add name)
  | parameterEnd around heading opening names =>
    simp only [Phase.read] at ok
    split at ok <;> cases ok
    · rename_i closing
      simpa using PhaseAfter.blockOpening
        (.function around heading opening (.plain names) closing)
    · rename_i separator
      simpa using PhaseAfter.parameter around heading opening (.some names separator)

end Scriptlet

import Scriptlet.Proofs.Grammar

/-! What the grammar derives is read, and as the tree it is derived with.
All tokens are read bare. `ReadsAs` says of each kind of phrase where reading its tokens leads,
whatever stands around it: for an expression the tree is still spread over the operators that wait,
so it is told apart from its context only by how tightly these bind. -/
namespace Scriptlet

def feed (phase : Phase) (ts : List Token) : Except ParseError Phase :=
  ts.foldlM (fun phase t => phase.read .nowhere t.bare) phase

theorem feedStep {phase next : Phase} {t : Token} (ok : phase.read .nowhere t.bare = .ok next)
    (us : List Token) : feed phase (t :: us) = feed next us := by
  simp only [feed, List.foldlM_cons, ok]
  rfl

theorem feedThrough {phase next : Phase} {ts : List Token} (ok : feed phase ts = .ok next)
    (us : List Token) : feed phase (ts ++ us) = feed next us := by
  simp only [feed] at ok
  simp only [feed, List.foldlM_append, ok]
  rfl

theorem feedOne {phase next : Phase} {t : Token} (ok : phase.read .nowhere t.bare = .ok next) :
    feed phase [t] = .ok next := feedStep ok []

theorem feedAlike {a b : Phase} {t : Token}
    (same : a.read .nowhere t.bare = b.read .nowhere t.bare) (us : List Token) :
    feed a (t :: us) = feed b (t :: us) := by
  simp only [feed, List.foldlM_cons, same]

def Fits (p : Precedence) (waiting : List Waiting) : Prop :=
  ∀ w ∈ waiting.head?, w.precedence.rank < p.rank ∨ Precedence.unary.rank ≤ p.rank

def Ends (phase : Phase) (e : Expr) (slot : Slot) : Prop :=
  ∀ t : Token, t.kind ≠ .elseWord →
    phase.read .nowhere t.bare = (Phase.connective e slot).read .nowhere t.bare

def Stmt.endsBefore (s : Stmt) (t : Token) : Prop :=
  t.kind = .rightBrace ∨ t.kind = .endOfInput ∨ (t.kind ≠ .elseWord ∧ s.mayPrecede [t])

def Body.addAll (ss : List Stmt) (body : Body) : Body := ss.foldl (fun body s => body.add s) body

def ReadsAs : Phrase → List Token → Prop
  | .expression p e, ts => ∀ waiting goal, Fits p waiting → ∃ phase inner ended,
      feed (.operand ⟨waiting, goal⟩) ts = .ok phase ∧ Ends phase inner ⟨ended ++ waiting, goal⟩ ∧
      reduceAll .nowhere inner ended = e.bare ∧ ∀ w ∈ ended, p.rank ≤ w.precedence.rank
  | .sequence es, ts => ∀ callee outer, ∃ phase, feed (.argument callee [] outer) ts = .ok phase ∧
      (∀ t : Token, t.kind = .comma → phase.read .nowhere t.bare =
        .ok (.argument callee (es.map Expr.bare).reverse outer)) ∧
      (∀ t : Token, t.kind = .rightParen → phase.read .nowhere t.bare =
        .ok (finishCall callee (es.map Expr.bare).reverse .nowhere outer))
  | .arguments es, ts => ∀ callee outer (r : Token), r.kind = .rightParen →
      feed (.argument callee [] outer) (ts ++ [r]) =
        .ok (finishCall callee (es.map Expr.bare).reverse .nowhere outer)
  | .block b, ts => ∀ owner,
      feed (.blockOpening owner) ts = .ok (owner.receive .nowhere b.bare)
  | .statement s, ts => ∀ body, ∃ phase, feed (.statement body) ts = .ok phase ∧
      ∀ t, s.endsBefore t → phase.read .nowhere t.bare = (body.add s.bare).read t.bare
  | .statements ss, ts => ∀ body, ∃ phase, feed (.statement body) ts = .ok phase ∧
      ∀ t : Token, t.kind = .rightBrace ∨ t.kind = .endOfInput →
        phase.read .nowhere t.bare = (body.addAll (ss.map Stmt.bare)).read t.bare

section expressions

variable {ts us : List Token} {p : Precedence} {e : Expr}

theorem signConnective {k : TokenKind} {op : BinaryOp} (sign : (k, op) ∈ p.signs) :
    Connective.ofKind? k = some (.binary op) ∧ op.precedence = p ∧ p.rank < p.next.rank := by
  cases p <;> simp only [Precedence.signs, List.mem_cons, Prod.mk.injEq, List.not_mem_nil,
    or_false] at sign
  case equality | sum | product =>
    rcases sign with ⟨rfl, rfl⟩ | ⟨rfl, rfl⟩ <;> decide
  case disjunction | conjunction =>
    obtain ⟨rfl, rfl⟩ := sign
    decide
  case comparison =>
    rcases sign with ⟨rfl, rfl⟩ | ⟨rfl, rfl⟩ | ⟨rfl, rfl⟩ | ⟨rfl, rfl⟩ <;> decide

theorem nextRank (p : Precedence) : p.rank ≤ p.next.rank := by
  cases p <;> decide

theorem binaryBelowUnary (op : BinaryOp) : op.precedence.rank < Precedence.unary.rank := by
  cases op <;> decide

theorem waitingBelowCall (w : Waiting) : w.precedence.rank < Precedence.call.rank := by
  cases w with
  | unary => exact Nat.le_refl _
  | binary op left => exact Nat.lt_succ_of_lt (binaryBelowUnary op)

theorem fitsNext {waiting} (fits : Fits p waiting) : Fits p.next waiting := by
  intro w member
  have rank := nextRank p
  have := fits w member
  omega

theorem reduceEnded {waiting ended} (fits : ∀ w ∈ waiting.head?, w.precedence.rank < p.rank)
    (binds : ∀ w ∈ ended, p.rank ≤ w.precedence.rank) :
    reduce p .nowhere e (ended ++ waiting) = (reduceAll .nowhere e ended, waiting) := by
  induction ended generalizing e with
  | nil =>
    cases waiting with
    | nil => rfl
    | cons w ws => simp [reduce, reduceAll, fits w rfl]
  | cons w ws ih =>
    have tight := binds w (by simp)
    simp only [List.cons_append, reduce, if_neg (Nat.not_lt.mpr tight)]
    exact ih fun v member => binds v (by simp [member])

theorem readTighter (inner : ReadsAs (.expression p.next e) ts) :
    ReadsAs (.expression p e) ts := by
  intro waiting goal fits
  obtain ⟨phase, last, ended, read, ends, whole, binds⟩ := inner waiting goal (fitsNext fits)
  exact ⟨phase, last, ended, read, ends, whole, 
    fun w member => Nat.le_trans (nextRank p) (binds w member)⟩

theorem readBinary {t : Token} {op left right span} (sign : (t.kind, op) ∈ p.signs)
    (first : ReadsAs (.expression p left) ts) (second : ReadsAs (.expression p.next right) us) :
    ReadsAs (.expression p (.binary op left right span)) (ts ++ t :: us) := by
  intro waiting goal fits
  obtain ⟨connective, precedence, lower⟩ := signConnective sign
  obtain ⟨phase, last, ended, read, ends, whole, binds⟩ := first waiting goal fits
  have loose : ∀ w ∈ waiting.head?, w.precedence.rank < p.rank := by
    intro w member
    have := fits w member
    have : p ≠ .unary := by rintro rfl; simp [Precedence.signs] at sign
    have : p ≠ .call := by rintro rfl; simp [Precedence.signs] at sign
    cases p <;> simp_all [Precedence.rank]
  have step : phase.read .nowhere t.bare = .ok (.operand ⟨.binary op left.bare :: waiting, goal⟩) := by
    rw [ends t (by rintro kind; simp [kind, Connective.ofKind?] at connective)]
    simp only [Phase.read, Slot.extend, show t.bare.kind = t.kind from rfl, connective, precedence,
      reduceEnded loose binds, whole]
  have fits' : Fits p.next (.binary op left.bare :: waiting) := by
    intro w member
    cases Option.some.inj member
    exact .inl (by simpa [Waiting.precedence, precedence] using lower)
  obtain ⟨phase', last', ended', read', ends', whole', binds'⟩ := second _ goal fits'
  refine ⟨phase', last', ended' ++ [.binary op left.bare], ?_, ?_, ?_, ?_⟩
  · rw [feedThrough read, feedStep step, read']
  · simpa using ends'
  · have append : reduceAll .nowhere last' (ended' ++ [.binary op left.bare]) =
        (Waiting.binary op left.bare).apply .nowhere (reduceAll .nowhere last' ended') := by
      simp [reduceAll]
    rw [append, whole']
    simp [Waiting.apply, Expr.bare, nowhereExtend]
  · intro w member
    rcases List.mem_append.mp member with inside | last
    · exact Nat.le_trans (nextRank p) (binds' w inside)
    · obtain rfl := List.mem_singleton.mp last
      exact Nat.le_of_eq (congrArg Precedence.rank precedence.symm)

theorem readUnary {t : Token} {op span} (sign : (t.kind, op) ∈ unarySigns)
    (inner : ReadsAs (.expression .unary e) ts) :
    ReadsAs (.expression .unary (.unary op e span)) (t :: ts) := by
  intro waiting goal _
  have step : (Phase.operand ⟨waiting, goal⟩).read .nowhere t.bare =
      .ok (.operand ⟨.unary op .nowhere :: waiting, goal⟩) := by
    simp only [unarySigns, List.mem_cons, Prod.mk.injEq, List.not_mem_nil, or_false] at sign
    rcases sign with ⟨kind, rfl⟩ | ⟨kind, rfl⟩ <;>
      simp [Phase.read, Slot.start, Token.bare, kind, Slot.push]
  obtain ⟨phase, last, ended, read, ends, whole, binds⟩ :=
    inner (.unary op .nowhere :: waiting) goal (fun _ _ => .inr (Nat.le_refl _))
  refine ⟨phase, last, ended ++ [.unary op .nowhere], ?_, ?_, ?_, ?_⟩
  · rw [feedStep step, read]
  · simpa using ends
  · have append : reduceAll .nowhere last (ended ++ [.unary op .nowhere]) =
        (Waiting.unary op .nowhere).apply .nowhere (reduceAll .nowhere last ended) := by
      simp [reduceAll]
    rw [append, whole]
    simp [Waiting.apply, Expr.bare, nowhereExtend]
  · intro w member
    rcases List.mem_append.mp member with inside | last
    · exact binds w inside
    · obtain rfl := List.mem_singleton.mp last
      exact Nat.le_refl _

theorem readsAsCall : ReadsAs (.expression .call e) ts ↔ ∀ slot, ∃ phase,
    feed (.operand slot) ts = .ok phase ∧ Ends phase e.bare slot := by
  constructor
  · rintro reads ⟨waiting, goal⟩
    obtain ⟨phase, last, ended, read, ends, whole, binds⟩ :=
      reads waiting goal fun _ _ => .inr (by decide)
    have none : ended = [] := List.eq_nil_iff_forall_not_mem.mpr fun w member =>
      Nat.not_le.mpr (waitingBelowCall w) (binds w member)
    subst none
    obtain rfl : last = e.bare := whole
    exact ⟨phase, read, ends⟩
  · intro reads waiting goal _
    obtain ⟨phase, read, ends⟩ := reads ⟨waiting, goal⟩
    exact ⟨phase, e.bare, [], read, ends, rfl, by simp⟩

theorem readAtom {t : Token} (step : ∀ slot, (Phase.operand slot).read .nowhere t.bare =
    .ok (.connective e.bare slot)) : ReadsAs (.expression .call e) [t] :=
  readsAsCall.mpr fun slot => ⟨_, feedOne (step slot), fun _ _ => rfl⟩

theorem readWhole (reads : ReadsAs (.expression .lowest e) ts) (goal : Goal) : ∃ phase,
    feed (.operand goal.slot) ts = .ok phase ∧
    ∀ t : Token, t.kind ≠ .elseWord → Connective.ofKind? t.kind = none →
      phase.read .nowhere t.bare = goal.receive .nowhere e.bare t.bare := by
  obtain ⟨phase, last, ended, read, ends, whole, _⟩ := reads [] goal (by simp [Fits])
  refine ⟨phase, read, fun t other plain => ?_⟩
  rw [ends t other, List.append_nil]
  simp only [Phase.read, Slot.extend, show t.bare.kind = t.kind from rfl, plain, whole]

theorem readCall {l r : Token} {callee arguments span}
    (function : ReadsAs (.expression .call callee) ts) (opening : l.kind = .leftParen)
    (values : ReadsAs (.arguments arguments) us) (closing : r.kind = .rightParen) :
    ReadsAs (.expression .call (.call callee arguments span)) (ts ++ l :: (us ++ [r])) := by
  refine readsAsCall.mpr fun slot => ?_
  obtain ⟨phase, read, ends⟩ := readsAsCall.mp function slot
  obtain ⟨waiting, goal⟩ := slot
  have step : phase.read .nowhere l.bare = .ok (.argument callee.bare [] ⟨waiting, goal⟩) := by
    rw [ends l (by simp [opening])]
    have popped : reduce .call .nowhere callee.bare ([] ++ waiting) = (callee.bare, waiting) :=
      reduceEnded (fun w _ => waitingBelowCall w) (by simp)
    rw [List.nil_append] at popped
    simp [Phase.read, Slot.extend, Token.bare, opening, Connective.ofKind?, popped]
  refine ⟨_, ?_, fun _ _ => rfl⟩
  rw [feedThrough read, feedStep step, values _ _ r closing]
  simp [finishCall, Expr.bare, nowhereExtend]

theorem readGrouped {l r : Token} (opening : l.kind = .leftParen)
    (inner : ReadsAs (.expression .lowest e) ts) (closing : r.kind = .rightParen) :
    ReadsAs (.expression .call e) (l :: (ts ++ [r])) := by
  refine readsAsCall.mpr fun slot => ?_
  obtain ⟨phase, read, receives⟩ := readWhole inner (.grouped slot)
  have step : (Phase.operand slot).read .nowhere l.bare = .ok (.operand (Goal.grouped slot).slot) := by
    simp [Phase.read, Slot.start, Token.bare, opening]
  have last : phase.read .nowhere r.bare = .ok (.connective e.bare slot) := by
    rw [receives r (by simp [closing]) (by simp [closing, Connective.ofKind?])]
    simp [Goal.receive, Token.bare, closing]
  exact ⟨_, by rw [feedStep step, feedThrough read, feedOne last], fun _ _ => rfl⟩

theorem readCondition {i l r : Token} {first : Block} (word : i.kind = .ifWord)
    (opening : l.kind = .leftParen) (condition : ReadsAs (.expression .lowest e) ts)
    (closing : r.kind = .rightParen) (consequence : ReadsAs (.block first) us) (slot : Slot) :
    feed (.operand slot) (i :: l :: (ts ++ r :: us)) =
      .ok (.alternative .nowhere e.bare first.bare slot) := by
  obtain ⟨phase, read, receives⟩ := readWhole condition (.condition .nowhere slot)
  have start : (Phase.operand slot).read .nowhere i.bare = .ok (.condition .nowhere slot) := by
    simp [Phase.read, Slot.start, Token.bare, word]
  have step : (Phase.condition .nowhere slot).read .nowhere l.bare =
      .ok (.operand (Goal.condition .nowhere slot).slot) := by
    simp [Phase.read, Token.bare, opening]
  have last : phase.read .nowhere r.bare =
      .ok (.blockOpening (.consequence .nowhere e.bare slot)) := by
    rw [receives r (by simp [closing]) (by simp [closing, Connective.ofKind?])]
    simp [Goal.receive, Token.bare, closing]
  rw [feedStep start, feedStep step, feedThrough read, feedStep last, consequence]
  rfl

theorem readConditional {i l r : Token} {first : Block} {span} (word : i.kind = .ifWord)
    (opening : l.kind = .leftParen) (condition : ReadsAs (.expression .lowest e) ts)
    (closing : r.kind = .rightParen) (consequence : ReadsAs (.block first) us) :
    ReadsAs (.expression .call (.conditional e first none span)) (i :: l :: (ts ++ r :: us)) := by
  refine readsAsCall.mpr fun slot =>
    ⟨_, readCondition word opening condition closing consequence slot, fun t other => ?_⟩
  simp only [Phase.read]
  split
  · contradiction
  · rfl

theorem readAlternative {i l r w : Token} {first second : Block} {vs span} (word : i.kind = .ifWord)
    (opening : l.kind = .leftParen) (condition : ReadsAs (.expression .lowest e) ts)
    (closing : r.kind = .rightParen) (consequence : ReadsAs (.block first) us)
    (otherwise : w.kind = .elseWord) (last : ReadsAs (.block second) vs) :
    ReadsAs (.expression .call (.conditional e first (some second) span))
      (i :: l :: (ts ++ r :: (us ++ w :: vs))) := by
  refine readsAsCall.mpr fun slot => ⟨_, ?_, fun _ _ => rfl⟩
  have split : i :: l :: (ts ++ r :: (us ++ w :: vs)) =
      (i :: l :: (ts ++ r :: us)) ++ w :: vs := by simp
  have step : (Phase.alternative .nowhere e.bare first.bare slot).read .nowhere w.bare =
      .ok (.blockOpening (.alternative .nowhere e.bare first.bare slot)) := by
    simp [Phase.read, Token.bare, otherwise]
  rw [split, feedThrough (readCondition word opening condition closing consequence slot),
    feedStep step, last]
  rfl

end expressions

section functions

variable {ts us : List Token} {names : List Ident} {start : Span} {own : Option Ident}
  {outer : Slot}

theorem readNames (all : Names ts names) : feed (.parameter start own [] outer) ts =
    .ok (.parameterEnd start own (names.map Ident.bare).reverse outer) := by
  induction all with
  | @one t span name =>
    refine feedOne ?_
    simp [Phase.read, Token.bare, name, Ident.bare]
  | @more ts names comma t span earlier separator name ih =>
    have step : (Phase.parameterEnd start own (names.map Ident.bare).reverse outer).read .nowhere
        comma.bare = .ok (.parameter start own (names.map Ident.bare).reverse outer) := by
      simp [Phase.read, Token.bare, separator]
    rw [feedThrough ih, feedStep step]
    refine feedOne ?_
    simp [Phase.read, Token.bare, name, Ident.bare]

theorem readParameters {r : Token} (all : Parameters ts names) (closing : r.kind = .rightParen) :
    feed (.parameter start own [] outer) (ts ++ [r]) =
      .ok (.blockOpening (.function start own (names.map Ident.bare) outer)) := by
  cases all with
  | none =>
    refine feedOne ?_
    simp [Phase.read, Token.bare, closing]
  | plain all =>
    rw [feedThrough (readNames all)]
    refine feedOne ?_
    simp [Phase.read, Token.bare, closing]
  | @trailing ts names comma all separator =>
    have step : (Phase.parameterEnd start own (names.map Ident.bare).reverse outer).read .nowhere
        comma.bare = .ok (.parameter start own (names.map Ident.bare).reverse outer) := by
      simp [Phase.read, Token.bare, separator]
    rw [List.append_assoc, feedThrough (readNames all)]
    refine (feedStep step [r]).trans (feedOne ?_)
    simp [Phase.read, Token.bare, closing]

theorem readHeading {hs : List Token} {l : Token} (heading : Heading hs own)
    (opening : l.kind = .leftParen) : feed (.operand outer) (hs ++ [l]) =
      .ok (.parameter .nowhere (own.map Ident.bare) [] outer) := by
  have start {f : Token} (word : f.kind = .functionWord) :
      (Phase.operand outer).read .nowhere f.bare = .ok (.functionName .nowhere outer) := by
    simp [Phase.read, Slot.start, Token.bare, word]
  cases heading with
  | anonymous word =>
    refine (feedStep (start word) [l]).trans (feedOne ?_)
    simp [Phase.read, Token.bare, opening]
  | @named f n span word name =>
    have named : (Phase.functionName .nowhere outer).read .nowhere n.bare =
        .ok (.parametersOpening .nowhere ⟨n.text, .nowhere⟩ outer) := by
      simp [Phase.read, Token.bare, name]
    refine (feedStep (start word) [n, l]).trans ((feedStep named [l]).trans (feedOne ?_))
    simp [Phase.read, Token.bare, opening, Ident.bare]

theorem readFunction {hs : List Token} {l r : Token} {body : Block} {span}
    (heading : Heading hs own) (opening : l.kind = .leftParen) (all : Parameters ts names)
    (closing : r.kind = .rightParen) (inner : ReadsAs (.block body) us) :
    ReadsAs (.expression .call (.function own names body span)) (hs ++ l :: (ts ++ r :: us)) := by
  refine readsAsCall.mpr fun slot => ⟨_, ?_, fun _ _ => rfl⟩
  have split : hs ++ l :: (ts ++ r :: us) = (hs ++ [l]) ++ ((ts ++ [r]) ++ us) := by simp
  rw [split, feedThrough (readHeading heading opening), feedThrough (readParameters all closing),
    inner]
  rfl

end functions

section lists

variable {ts us : List Token} {e : Expr} {es : List Expr}

theorem startExpression {t : Token} (starts : t.kind.startsExpression) (body : Body)
    (callee : Expr) (earlier : List Expr) (outer : Slot) :
    (Phase.statement body).read .nowhere t.bare =
        (Phase.operand (Goal.statement .nowhere body).slot).read .nowhere t.bare ∧
      (Phase.returnValue .nowhere body).read .nowhere t.bare =
        (Phase.operand (Goal.returning .nowhere body).slot).read .nowhere t.bare ∧
      (Phase.argument callee earlier outer).read .nowhere t.bare =
        (Phase.operand (Goal.argument callee earlier outer).slot).read .nowhere t.bare := by
  obtain ⟨⟨kind, text⟩, span⟩ := t
  cases kind <;> first | contradiction | exact ⟨rfl, rfl, rfl⟩

theorem readArgument (starts : (Phrase.expression .lowest e).opens ts)
    (reads : ReadsAs (.expression .lowest e) ts) (callee : Expr) (earlier : List Expr)
    (outer : Slot) : ∃ phase, feed (.argument callee earlier outer) ts = .ok phase ∧
      (∀ t : Token, t.kind = .comma →
        phase.read .nowhere t.bare = .ok (.argument callee (e.bare :: earlier) outer)) ∧
      (∀ t : Token, t.kind = .rightParen →
        phase.read .nowhere t.bare = .ok (finishCall callee (e.bare :: earlier) .nowhere outer)) := by
  obtain ⟨first, rest, rfl, kind⟩ := starts
  obtain ⟨phase, read, receives⟩ := readWhole reads (.argument callee earlier outer)
  refine ⟨phase, ?_, fun t sign => ?_, fun t sign => ?_⟩
  · rw [feedAlike (startExpression kind (.program []) callee earlier outer).2.2, read]
  · rw [receives t (by simp [sign]) (by simp [sign, Connective.ofKind?])]
    simp [Goal.receive, Token.bare, sign]
  · rw [receives t (by simp [sign]) (by simp [sign, Connective.ofKind?])]
    simp [Goal.receive, Token.bare, sign]

theorem readMore {comma : Token} (earlier : ReadsAs (.sequence es) ts)
    (separator : comma.kind = .comma) (starts : (Phrase.expression .lowest e).opens us)
    (last : ReadsAs (.expression .lowest e) us) :
    ReadsAs (.sequence (es ++ [e])) (ts ++ comma :: us) := by
  intro callee outer
  obtain ⟨phase, read, onComma, _⟩ := earlier callee outer
  obtain ⟨phase', read', ends⟩ :=
    readArgument starts last callee (es.map Expr.bare).reverse outer
  refine ⟨phase', ?_, ?_⟩
  · rw [feedThrough read, feedStep (onComma comma separator), read']
  · simpa using ends

theorem readNoArguments : ReadsAs (.arguments []) [] := by
  intro callee outer r closing
  refine feedOne ?_
  simp [Phase.read, Token.bare, closing]

theorem readPlain (all : ReadsAs (.sequence es) ts) : ReadsAs (.arguments es) ts := by
  intro callee outer r closing
  obtain ⟨phase, read, _, onParen⟩ := all callee outer
  rw [feedThrough read, feedOne (onParen r closing)]

theorem readTrailing {comma : Token} (all : ReadsAs (.sequence es) ts)
    (separator : comma.kind = .comma) : ReadsAs (.arguments es) (ts ++ [comma]) := by
  intro callee outer r closing
  obtain ⟨phase, read, onComma, _⟩ := all callee outer
  rw [List.append_assoc, feedThrough read]
  refine (feedStep (onComma comma separator) [r]).trans (feedOne ?_)
  simp [Phase.read, Token.bare, closing]

end lists

section statements

variable {ts us : List Token} {e : Expr} {b : Block} {s : Stmt} {ss : List Stmt} {span : Span}

theorem addAllProgram (earlier : List Stmt) :
    (Body.program earlier).addAll ss = .program (ss.reverse ++ earlier) := by
  induction ss generalizing earlier with
  | nil => rfl
  | cons s ss ih => simpa [Body.addAll, Body.add] using ih (s :: earlier)

theorem addAllBlock (opening : Span) (earlier : List Stmt) (owner : Owner) :
    (Body.block opening earlier owner).addAll ss = .block opening (ss.reverse ++ earlier) owner := by
  induction ss generalizing earlier with
  | nil => rfl
  | cons s ss ih => simpa [Body.addAll, Body.add] using ih (s :: earlier)

theorem readBraces {l r : Token} (opening : l.kind = .leftBrace)
    (inner : ReadsAs (.statements ss) ts) (closing : r.kind = .rightBrace) :
    ReadsAs (.block (.mk ss span)) (l :: (ts ++ [r])) := by
  intro owner
  obtain ⟨phase, read, ends⟩ := inner (.block .nowhere [] owner)
  have step : (Phase.blockOpening owner).read .nowhere l.bare =
      .ok (.statement (.block .nowhere [] owner)) := by
    simp [Phase.read, Token.bare, opening]
  rw [feedStep step, feedThrough read]
  refine feedOne ?_
  rw [ends r (.inl closing), addAllBlock]
  simp [Body.read, Token.bare, closing, Block.bare, nowhereExtend]

theorem endsPlain {t : Token} (ends : s.endsBefore t)
    (longest : s.mayPrecede [t] → Connective.ofKind? t.kind = none) :
    t.kind ≠ .elseWord ∧ Connective.ofKind? t.kind = none := by
  rcases ends with kind | kind | ⟨other, whole⟩
  · simp [kind, Connective.ofKind?]
  · simp [kind, Connective.ofKind?]
  · exact ⟨other, longest whole⟩

theorem readBinding {w n sign : Token} {own : Span} (word : w.kind = .letWord)
    (name : n.kind = .identifier) (equals : sign.kind = .equal)
    (inner : ReadsAs (.expression .lowest e) ts) :
    ReadsAs (.statement (.binding ⟨n.text, own⟩ e span)) (w :: n :: sign :: ts) := by
  intro body
  obtain ⟨phase, read, receives⟩ := readWhole inner (.binding .nowhere ⟨n.text, .nowhere⟩ body)
  have start : (Phase.statement body).read .nowhere w.bare = .ok (.bindingName .nowhere body) := by
    simp [Phase.read, Body.read, Token.bare, word]
  have named : (Phase.bindingName .nowhere body).read .nowhere n.bare =
      .ok (.bindingSign .nowhere ⟨n.text, .nowhere⟩ body) := by
    simp [Phase.read, Token.bare, name]
  have step : (Phase.bindingSign .nowhere ⟨n.text, .nowhere⟩ body).read .nowhere sign.bare =
      .ok (.operand (Goal.binding .nowhere ⟨n.text, .nowhere⟩ body).slot) := by
    simp [Phase.read, Token.bare, equals]
  refine ⟨phase, by rw [feedStep start, feedStep named, feedStep step, read], fun t ends => ?_⟩
  obtain ⟨other, plain⟩ := endsPlain ends fun whole => whole t rfl
  exact receives t other plain

theorem readReturning {w : Token} (word : w.kind = .returnWord) :
    ReadsAs (.statement (.returning none span)) [w] := by
  intro body
  have start : (Phase.statement body).read .nowhere w.bare = .ok (.returnValue .nowhere body) := by
    simp [Phase.read, Body.read, Token.bare, word]
  refine ⟨_, feedOne start, fun t ends => ?_⟩
  have kind : t.kind = .rightBrace ∨ t.kind = .endOfInput ∨ t.kind = .semicolon :=
    ends.imp_right (.imp_right fun inside => inside.2 t rfl)
  rcases kind with kind | kind | kind <;>
    simp [Phase.read, Token.bare, kind, Stmt.bare, nowhereExtend]

theorem readReturningValue {w : Token} (word : w.kind = .returnWord)
    (starts : (Phrase.expression .lowest e).opens ts)
    (inner : ReadsAs (.expression .lowest e) ts) :
    ReadsAs (.statement (.returning (some e) span)) (w :: ts) := by
  intro body
  obtain ⟨first, rest, rfl, kind⟩ := starts
  obtain ⟨phase, read, receives⟩ := readWhole inner (.returning .nowhere body)
  have start : (Phase.statement body).read .nowhere w.bare = .ok (.returnValue .nowhere body) := by
    simp [Phase.read, Body.read, Token.bare, word]
  have alike := (startExpression kind body e [] (Goal.returning .nowhere body).slot).2.1
  refine ⟨phase, by rw [feedStep start, feedAlike alike, read], fun t ends => ?_⟩
  obtain ⟨other, plain⟩ := endsPlain ends fun whole => whole t rfl
  exact receives t other plain

theorem readExpressionStatement (starts : (Phrase.expression .lowest e).opens ts)
    (inner : ReadsAs (.expression .lowest e) ts) :
    ReadsAs (.statement (.expression e span)) ts := by
  intro body
  obtain ⟨first, rest, rfl, kind⟩ := starts
  obtain ⟨phase, read, receives⟩ := readWhole inner (.statement .nowhere body)
  have alike := (startExpression kind body e [] (Goal.statement .nowhere body).slot).1
  refine ⟨phase, by rw [feedAlike alike, read], fun t ends => ?_⟩
  obtain ⟨other, plain⟩ := endsPlain ends fun whole => whole t rfl
  exact receives t other plain

theorem readBlockStatement (starts : (Phrase.block b).opens ts) (inner : ReadsAs (.block b) ts) :
    ReadsAs (.statement (.block b span)) ts := by
  intro body
  obtain ⟨first, rest, rfl, kind⟩ := starts
  have alike : (Phase.statement body).read .nowhere first.bare =
      (Phase.blockOpening (.statement .nowhere body)).read .nowhere first.bare := by
    simp [Phase.read, Body.read, Token.bare, kind]
  exact ⟨_, by rw [feedAlike alike, inner], fun _ _ => rfl⟩

theorem readSemicolon {t : Token} (sign : t.kind = .semicolon)
    (later : ReadsAs (.statements ss) ts) : ReadsAs (.statements ss) (t :: ts) := by
  intro body
  obtain ⟨phase, read, ends⟩ := later body
  have step : (Phase.statement body).read .nowhere t.bare = .ok (.statement body) := by
    simp [Phase.read, Body.read, Token.bare, sign]
  exact ⟨phase, by rw [feedStep step, read], ends⟩

theorem readFollowed (head : ReadsAs (.statement s) ts) (later : ReadsAs (.statements ss) us)
    (starts : (Phrase.statements ss).opens us) (whole : s.mayPrecede us) :
    ReadsAs (.statements (s :: ss)) (ts ++ us) := by
  intro body
  obtain ⟨phase, read, ends⟩ := head body
  obtain ⟨phase', read', ends'⟩ := later (body.add s.bare)
  cases us with
  | nil =>
    obtain rfl : Phase.statement (body.add s.bare) = phase' := Except.ok.inj read'
    refine ⟨phase, by rwa [List.append_nil], fun t kind => ?_⟩
    rw [ends t (kind.imp_right .inl)]
    exact ends' t kind
  | cons t rest =>
    have follows : s.mayPrecede [t] := by cases s <;> exact whole
    have alike : phase.read .nowhere t.bare =
        (Phase.statement (body.add s.bare)).read .nowhere t.bare :=
      ends t (.inr (.inr ⟨(opensInside (starts t rfl)).1, follows⟩))
    exact ⟨phase', by rw [feedThrough read, feedAlike alike, read'], ends'⟩

end statements

theorem Derives.readsAs {ts phrase} (h : Derives ts phrase) : ReadsAs phrase ts := by
  induction h with
  | tighter _ ih => exact readTighter ih
  | binary sign _ _ ih ih' => exact readBinary sign ih ih'
  | unary sign _ ih => exact readUnary sign ih
  | call _ opening _ closing ih ih' => exact readCall ih opening ih' closing
  | integer kind value =>
    exact readAtom fun slot => by
      simp [Phase.read, Slot.start, Token.bare, kind, value, Expr.bare]
  | string kind | trueWord kind | falseWord kind =>
    exact readAtom fun slot => by simp [Phase.read, Slot.start, Token.bare, kind, Expr.bare]
  | name kind =>
    exact readAtom fun slot => by
      simp [Phase.read, Slot.start, Token.bare, kind, Expr.bare, Ident.bare]
  | grouped opening _ closing ih => exact readGrouped opening ih closing
  | conditional word opening _ closing _ ih ih' =>
    exact readConditional word opening ih closing ih'
  | alternative word opening _ closing _ otherwise _ ih ih' ih'' =>
    exact readAlternative word opening ih closing ih' otherwise ih''
  | function heading opening names closing _ ih =>
    exact readFunction heading opening names closing ih
  | one only ih => exact fun callee outer => readArgument only.opens ih callee [] outer
  | more _ separator last ih ih' => exact readMore ih separator last.opens ih'
  | noArguments => exact readNoArguments
  | plain _ ih => exact readPlain ih
  | trailing _ separator ih => exact readTrailing ih separator
  | braces opening _ closing ih => exact readBraces opening ih closing
  | binding word name sign _ ih => exact readBinding word name sign ih
  | returning word => exact readReturning word
  | returningValue word inner ih => exact readReturningValue word inner.opens ih
  | expressionStatement inner ih => exact readExpressionStatement inner.opens ih
  | blockStatement inner ih => exact readBlockStatement inner.opens ih
  | noStatements => exact fun body => ⟨_, rfl, fun _ _ => rfl⟩
  | semicolon sign _ ih => exact readSemicolon sign ih
  | followed _ later whole ih ih' => exact readFollowed ih ih' later.opens whole

end Scriptlet

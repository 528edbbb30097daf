import Scriptlet.Proofs.ViablePrefix

/-! The end of input is final, and all that is begun comes to an end.
What stands behind an end of input is not looked at, and a list that has none is read as if one
stood behind it. A stretch is what is read by itself at any depth: the expression that a goal waits
for, or the next statement of a body. Whatever tokens follow where it begins, it is refused at one
of them or whole before one, and then it has taken some, but no end of input. -/
namespace Scriptlet

inductive Stretch where
  | expression (goal : Goal)
  | statement (body : Body)

def Stretch.begins : Stretch → Phase
  | expression goal => .operand goal.slot
  | statement body => .statement body

/- A semicolon between statements belongs to none of them, and where a list of statements ends none
begins. -/
def Stretch.MayBegin (t : Token) : Stretch → Prop
  | expression _ => True
  | statement body => t.kind ≠ .semicolon ∧ t.kind ≠ .endOfInput ∧
      (t.kind = .rightBrace → ∃ earlier, body = .program earlier)

/- A stretch with its tree, before `t`. No connective and no branch goes on with an expression; a
block is whole with its brace. -/
inductive Whole (last : Span) (t : Token) : Stretch → Phase → Node → Prop where
  | connective {e waiting goal} (plain : Connective.ofKind? t.kind = none) :
      Whole last t (.expression goal) (.connective e ⟨waiting, goal⟩)
        (.expr (reduceAll last e waiting))
  | conditional {start test first waiting goal} (word : t.kind ≠ .elseWord)
      (plain : Connective.ofKind? t.kind = none) :
      Whole last t (.expression goal) (.alternative start test first ⟨waiting, goal⟩)
        (.expr (reduceAll last (.conditional test first none (start.extend last)) waiting))
  | expression {start body phase e}
      (inner : Whole last t (.expression (.statement start body)) phase (.expr e)) :
      Whole last t (.statement body) phase (.stmt (.expression e (start.extend last)))
  | binding {start own body phase e}
      (inner : Whole last t (.expression (.binding start own body)) phase (.expr e)) :
      Whole last t (.statement body) phase (.stmt (.binding own e (start.extend last)))
  | returning {start body phase e}
      (inner : Whole last t (.expression (.returning start body)) phase (.expr e)) :
      Whole last t (.statement body) phase (.stmt (.returning (some e) (start.extend last)))
  | returningNothing {start body}
      (stops : t.kind = .semicolon ∨ t.kind = .rightBrace ∨ t.kind = .endOfInput) :
      Whole last t (.statement body) (.returnValue start body)
        (.stmt (.returning none (start.extend last)))
  | block {b span body} :
      Whole last t (.statement body) (.statement (body.add (.block b span)))
        (.stmt (.block b span))

/- The tokens that reading takes until a stretch is whole or refused, and what comes of it. -/
inductive Reads (stretch : Stretch) :
    Parser → List Token → List Token → Except ParseError Node → Prop where
  | whole {p t ts n} (whole : Whole p.last t stretch p.phase n) :
      Reads stretch p (t :: ts) [] (.ok n)
  | refused {p t ts e} (unfinished : ∀ n, ¬ Whole p.last t stretch p.phase n)
      (fault : p.read t = .error e) : Reads stretch p (t :: ts) [] (.error e)
  | more {p q t ts taken r} (unfinished : ∀ n, ¬ Whole p.last t stretch p.phase n)
      (ok : p.read t = .ok q) (later : Reads stretch q ts taken r) :
      Reads stretch p (t :: ts) (t :: taken) r

section whole

variable {last : Span} {t : Token} {phase next : Phase} {goal : Goal} {body : Body} {e : Expr}
  {s : Stmt} {n : Node} {stretch : Stretch}

theorem Whole.statement (whole : Whole last t (.statement body) phase n) : ∃ s, n = .stmt s := by
  cases whole <;> exact ⟨_, rfl⟩

theorem Whole.tree (whole : Whole last t (.expression goal) phase n) : ∃ e, n = .expr e := by
  cases whole <;> exact ⟨_, rfl⟩

theorem Whole.receive (whole : Whole last t (.expression goal) phase (.expr e)) :
    phase.read last t = goal.receive last e t := by
  cases whole with
  | connective plain => simp only [Phase.read, Slot.extend, plain]
  | conditional word plain => simp only [Phase.read, Slot.extend, plain]

theorem Whole.read (whole : Whole last t (.statement body) phase (.stmt s)) :
    phase.read last t = (body.add s).read t := by
  cases whole with
  | expression inner | binding inner | returning inner => exact inner.receive
  | returningNothing stops => rcases stops with kind | kind | kind <;> simp only [Phase.read, kind]
  | block => rfl

theorem Whole.unclosed (whole : Whole last t stretch phase n) : ¬ phase.Closed := by
  induction whole with
  | connective | conditional | returningNothing | block => exact id
  | expression _ ih | binding _ ih | returning _ ih => exact ih

theorem beginsOpen (stretch : Stretch) (n : Node) : ¬ Whole last t stretch stretch.begins n := by
  intro whole
  cases stretch with
  | expression goal => cases whole
  | statement body =>
    generalize begun : (Stretch.statement body).begins = phase at whole
    cases whole with
    | block =>
      have same : body = body.add _ := Phase.statement.inj begun
      cases body <;> simp [Body.add] at same
    | expression inner | binding inner | returning inner => cases inner <;> cases begun
    | returningNothing => cases begun

end whole

section inside

variable (stretch : Stretch)

mutual

def Slot.Holds : Slot → Prop
  | ⟨_, goal⟩ => stretch = .expression goal ∨ goal.Holds

def Goal.Holds : Goal → Prop
  | .whole => False
  | .statement _ body | .binding _ _ body | .returning _ body =>
      stretch = .statement body ∨ body.Holds
  | .grouped outer | .argument _ _ outer | .condition _ outer => outer.Holds

def Body.Holds : Body → Prop
  | .program _ => False
  | .block _ _ owner => owner.Holds

def Owner.Holds : Owner → Prop
  | .statement _ body => stretch = .statement body ∨ body.Holds
  | .consequence _ _ outer | .alternative _ _ _ outer | .function _ _ _ outer => outer.Holds

end

def Phase.Holds : Phase → Prop
  | statement body => body.Holds stretch
  | bindingName _ body | bindingSign _ _ body | returnValue _ body =>
      stretch = .statement body ∨ body.Holds stretch
  | operand slot | connective _ slot => slot.Holds stretch
  | argument _ _ outer | condition _ outer | alternative _ _ _ outer | functionName _ outer
  | parametersOpening _ _ outer | parameter _ _ _ outer | parameterEnd _ _ _ outer =>
      outer.Holds stretch
  | blockOpening owner => owner.Holds stretch
  | program _ | expression _ => False

def ClosedBlock (next : Phase) : Prop :=
  ∃ body b span, stretch = .statement body ∧ next = .statement (body.add (.block b span))

def Goal.EndsIn (goal : Goal) : Prop :=
  stretch = .expression goal ∨ ∃ body, stretch = .statement body ∧
    ((∃ start, goal = .statement start body) ∨ (∃ start own, goal = .binding start own body) ∨
      ∃ start, goal = .returning start body)

variable {stretch : Stretch} {last : Span} {t : Token} {next phase : Phase} {e : Expr}

theorem ClosedBlock.whole (closed : ClosedBlock stretch next) (last : Span) (t : Token) :
    ∃ n, Whole last t stretch next n := by
  obtain ⟨body, b, span, rfl, rfl⟩ := closed
  exact ⟨_, .block⟩

theorem Goal.EndsIn.whole {goal : Goal} (ends : goal.EndsIn stretch)
    (inner : Whole last t (.expression goal) phase (.expr e)) :
    ∃ n, Whole last t stretch phase n := by
  rcases ends with rfl | ⟨body, rfl, ⟨start, rfl⟩ | ⟨start, own, rfl⟩ | ⟨start, rfl⟩⟩
  · exact ⟨_, inner⟩
  · exact ⟨_, .expression inner⟩
  · exact ⟨_, .binding inner⟩
  · exact ⟨_, .returning inner⟩

theorem addHolds (s : Stmt) (body : Body) : (body.add s).Holds stretch ↔ body.Holds stretch := by
  cases body <;> exact .rfl

theorem slotHolds (goal : Goal) (holds : goal.Holds stretch) : goal.slot.Holds stretch :=
  Or.inr holds

theorem startHolds {slot : Slot} (holds : slot.Holds stretch) (ok : slot.start t = .ok next) :
    next.Holds stretch := by
  obtain ⟨waiting, goal⟩ := slot
  unfold Slot.start at ok
  split at ok
  case h_3 =>
    split at ok <;> cases ok
    exact holds
  case h_8 =>
    cases ok
    exact .inr holds
  all_goals
    cases ok
    try exact holds

theorem receiveBlockHolds {owner : Owner} (holds : owner.Holds stretch) (b : Block) :
    (owner.receive last b).Holds stretch ∨ ClosedBlock stretch (owner.receive last b) := by
  cases owner with
  | statement start body =>
    rcases holds with rfl | holds
    · exact .inr ⟨body, _, _, rfl, rfl⟩
    · exact .inl ((addHolds _ body).mpr holds)
  | _ => exact .inl holds

theorem bodyHolds {body : Body} (holds : body.Holds stretch) (ok : body.read t = .ok next) :
    next.Holds stretch ∨ ClosedBlock stretch next := by
  unfold Body.read at ok
  split at ok
  case h_5 =>
    cases body with
    | program earlier => cases holds
    | block opening earlier owner =>
      cases ok
      exact receiveBlockHolds holds _
  case h_6 =>
    cases body with
    | program earlier => cases holds
    | block opening earlier owner => cases ok
  case h_7 => exact .inl (startHolds (slotHolds (.statement t.span body) (Or.inr holds)) ok)
  case h_1 =>
    cases ok
    exact .inl holds
  all_goals
    cases ok
    exact .inl (.inr holds)

theorem addHoldsOn {s : Stmt} {body : Body} (holds : body.Holds stretch)
    (ok : (body.add s).read t = .ok next) : next.Holds stretch ∨ ClosedBlock stretch next :=
  bodyHolds ((addHolds s body).mpr holds) ok

theorem receiveHolds {goal : Goal} (holds : goal.Holds stretch)
    (ok : goal.receive last e t = .ok next) :
    goal.EndsIn stretch ∨ next.Holds stretch ∨ ClosedBlock stretch next := by
  cases goal with
  | whole => cases holds
  | statement start body =>
    rcases holds with rfl | holds
    · exact .inl (.inr ⟨body, rfl, .inl ⟨start, rfl⟩⟩)
    · exact .inr (addHoldsOn holds ok)
  | binding start own body =>
    rcases holds with rfl | holds
    · exact .inl (.inr ⟨body, rfl, .inr (.inl ⟨start, own, rfl⟩)⟩)
    · exact .inr (addHoldsOn holds ok)
  | returning start body =>
    rcases holds with rfl | holds
    · exact .inl (.inr ⟨body, rfl, .inr (.inr ⟨start, rfl⟩)⟩)
    · exact .inr (addHoldsOn holds ok)
  | grouped outer | argument callee earlier outer | condition start outer =>
    simp only [Goal.receive] at ok
    split at ok <;> cases ok
    all_goals exact .inr (.inl holds)

theorem extendHolds {waiting : List Waiting} {goal : Goal}
    (holds : (Slot.mk waiting goal).Holds stretch)
    (ok : (Slot.mk waiting goal).extend last e t = .ok next) :
    (Connective.ofKind? t.kind = none ∧ goal.EndsIn stretch) ∨ next.Holds stretch ∨
      ClosedBlock stretch next := by
  simp only [Slot.extend] at ok
  split at ok
  · cases ok
    exact .inr (.inl holds)
  · cases ok
    exact .inr (.inl holds)
  · rename_i plain
    rcases holds with rfl | holds
    · exact .inl ⟨plain, .inl rfl⟩
    · exact (receiveHolds holds ok).imp_left fun ends => ⟨plain, ends⟩

theorem readHolds (holds : phase.Holds stretch) (ok : phase.read last t = .ok next) :
    (∃ n, Whole last t stretch phase n) ∨ next.Holds stretch ∨ ClosedBlock stretch next := by
  cases phase with
  | statement body => exact .inr (bodyHolds holds ok)
  | operand slot => exact .inr (.inl (startHolds holds ok))
  | program | expression => cases holds
  | connective e slot =>
    obtain ⟨waiting, goal⟩ := slot
    rcases extendHolds holds ok with ⟨plain, ends⟩ | further
    · exact .inl (ends.whole (.connective plain))
    · exact .inr further
  | alternative start test first outer =>
    obtain ⟨waiting, goal⟩ := outer
    simp only [Phase.read] at ok
    split at ok
    · cases ok
      exact .inr (.inl holds)
    · rename_i word
      rcases extendHolds holds ok with ⟨plain, ends⟩ | further
      · exact .inl (ends.whole (.conditional word plain))
      · exact .inr further
  | returnValue start body =>
    have ended (stops : t.kind = .semicolon ∨ t.kind = .rightBrace ∨ t.kind = .endOfInput)
        (ok : (body.add (.returning none (start.extend last))).read t = .ok next) :
        (∃ n, Whole last t stretch (.returnValue start body) n) ∨ next.Holds stretch ∨
          ClosedBlock stretch next := by
      rcases holds with rfl | holds
      · exact .inl ⟨_, .returningNothing stops⟩
      · exact .inr (addHoldsOn holds ok)
    simp only [Phase.read] at ok
    split at ok
    · exact ended (.inl ‹_›) ok
    · exact ended (.inr (.inl ‹_›)) ok
    · exact ended (.inr (.inr ‹_›)) ok
    · exact .inr (.inl (startHolds (slotHolds (.returning start body) holds) ok))
  | argument callee earlier outer =>
    simp only [Phase.read] at ok
    split at ok
    · cases ok
      exact .inr (.inl holds)
    · exact .inr (.inl (startHolds (slotHolds (.argument callee earlier outer) holds) ok))
  | bindingSign start own body =>
    simp only [Phase.read] at ok
    split at ok <;> cases ok
    exact .inr (.inl (.inr holds))
  | condition start outer =>
    simp only [Phase.read] at ok
    split at ok <;> cases ok
    exact .inr (.inl (.inr holds))
  | _ =>
    simp only [Phase.read] at ok
    split at ok <;> cases ok
    all_goals exact .inr (.inl holds)

theorem beginsHolds (may : stretch.MayBegin t) (ok : stretch.begins.read last t = .ok next) :
    next.Holds stretch := by
  cases stretch with
  | expression goal =>
    have own : goal.slot.Holds (.expression goal) := Or.inl rfl
    exact startHolds own ok
  | statement body =>
    obtain ⟨notSign, notLast, brace⟩ := may
    change body.read t = .ok next at ok
    unfold Body.read at ok
    split at ok
    case h_1 kind => exact absurd kind notSign
    case h_5 kind =>
      obtain ⟨earlier, rfl⟩ := brace kind
      cases ok
    case h_6 kind => exact absurd kind notLast
    case h_7 => exact startHolds (slotHolds (.statement t.span body) (Or.inl rfl)) ok
    all_goals
      cases ok
      exact Or.inl rfl

theorem holdsUnclosed (holds : phase.Holds stretch) : ¬ phase.Closed := by
  cases phase <;> first | exact id | exact holds.elim

theorem ClosedBlock.unclosed (closed : ClosedBlock stretch next) : ¬ next.Closed := by
  obtain ⟨_, _, _, _, rfl⟩ := closed
  exact id

end inside

section reads

variable {stretch : Stretch} {p q : Parser} {ts us taken : List Token} {t e : Token} {n : Node}
  {r : Except ParseError Node}

theorem unclosedInside (ok : p.read t = .ok q) (unclosed : ¬ q.phase.Closed) :
    t.kind ≠ .endOfInput := by
  have tracks := readTracks p.last p.phase t
  rw [parserRead ok] at tracks
  exact (tracks.resolve_left unclosed).1

theorem readsOn (ended : ¬ Endless ts) (holds : p.phase.Holds stretch) :
    ∃ taken r, Reads stretch p ts taken r := by
  induction ts generalizing p with
  | nil => exact absurd endlessNil ended
  | cons t ts ih =>
    by_cases here : ∃ n, Whole p.last t stretch p.phase n
    · exact ⟨[], _, .whole here.choose_spec⟩
    have more : ¬ t.kind = .endOfInput → ¬ Endless ts := fun kind inside =>
      ended (endlessCons.mpr ⟨kind, inside⟩)
    cases read : p.read t with
    | error e => exact ⟨[], _, .refused (not_exists.mp here) read⟩
    | ok q =>
      rcases (readHolds holds (parserRead read)).resolve_left here with holds | closed
      · obtain ⟨taken, r, reads⟩ := ih (more (unclosedInside read (holdsUnclosed holds))) holds
        exact ⟨t :: taken, r, .more (not_exists.mp here) read reads⟩
      · have others := more (unclosedInside read closed.unclosed)
        cases ts with
        | nil => exact absurd endlessNil others
        | cons u ts =>
          obtain ⟨n, whole⟩ := closed.whole q.last u
          exact ⟨[t], .ok n, .more (not_exists.mp here) read (.whole whole)⟩

theorem readsSomehow (stretch : Stretch) (last : Span) (ended : ¬ Endless ts)
    (may : ∀ t ∈ ts.head?, stretch.MayBegin t) :
    ∃ taken r, Reads stretch ⟨stretch.begins, last⟩ ts taken r := by
  cases ts with
  | nil => exact absurd endlessNil ended
  | cons t ts =>
    have here : ∀ n, ¬ Whole last t stretch stretch.begins n := beginsOpen stretch
    cases read : Parser.read ⟨stretch.begins, last⟩ t with
    | error e => exact ⟨[], _, .refused here read⟩
    | ok q =>
      have holds := beginsHolds (may t rfl) (parserRead read)
      have others : ¬ Endless ts := fun inside =>
        ended (endlessCons.mpr ⟨unclosedInside read (holdsUnclosed holds), inside⟩)
      obtain ⟨taken, r, reads⟩ := readsOn others holds
      exact ⟨t :: taken, r, .more here read reads⟩

theorem Reads.begins (reads : Reads stretch p ts taken r) : taken <+: ts := by
  induction reads with
  | whole | refused => exact List.nil_prefix
  | more _ _ _ ih => exact List.cons_prefix_cons.mpr ⟨rfl, ih⟩

theorem Reads.inside (reads : Reads stretch p ts taken r) (ok : r = .ok n) :
    ¬ p.phase.Closed ∧ Endless taken := by
  induction reads with
  | whole whole => exact ⟨whole.unclosed, endlessNil⟩
  | refused => cases ok
  | @more p q t ts taken r _ read _ ih =>
    obtain ⟨unclosed, inside⟩ := ih ok
    refine ⟨fun closed => ?_, endlessCons.mpr ⟨unclosedInside read unclosed, inside⟩⟩
    obtain ⟨_, read', closed'⟩ := closedReads closed t
    cases read.symm.trans read'
    exact unclosed closed'

theorem Reads.some {last : Span} (reads : Reads stretch ⟨stretch.begins, last⟩ ts taken (.ok n)) :
    taken ≠ [] := by
  generalize result : Except.ok n = r at reads
  cases reads with
  | whole whole => exact absurd whole (beginsOpen stretch _)
  | refused => cases result
  | more => exact List.cons_ne_nil _ _

theorem closedRun (closed : p.phase.Closed) (ts : List Token) :
    ∃ last, ts.foldlM Parser.read p = .ok ⟨p.phase, last⟩ := by
  induction ts generalizing p with
  | nil => exact ⟨p.last, rfl⟩
  | cons t ts ih =>
    obtain ⟨phase, last⟩ := p
    cases phase <;> cases closed
    all_goals exact ih (p := ⟨_, t.span⟩) trivial

theorem Reads.run (reads : Reads (.expression .whole) p ts taken r) :
    (∃ x last, r = .ok (.expr x) ∧ ts.foldlM Parser.read p = .ok ⟨.expression x, last⟩) ∨
      ∃ fault, r = .error fault ∧ ts.foldlM Parser.read p = .error fault := by
  induction reads with
  | @whole p t ts n whole =>
    obtain ⟨x, rfl⟩ := whole.tree
    have read : p.read t = .ok ⟨.expression x, t.span⟩ := by
      simp only [Parser.read, whole.receive, Goal.receive, bind, Except.bind]
      rfl
    obtain ⟨last, run⟩ := closedRun (p := ⟨.expression x, t.span⟩) trivial ts
    refine .inl ⟨x, last, rfl, ?_⟩
    rw [List.foldlM_cons, read]
    exact run
  | @refused p t ts fault _ read =>
    refine .inr ⟨fault, rfl, ?_⟩
    rw [List.foldlM_cons, read]
    rfl
  | @more p q t ts _ _ _ read _ ih =>
    have step : (t :: ts).foldlM Parser.read p = ts.foldlM Parser.read q := by
      rw [List.foldlM_cons, read]
      rfl
    rwa [step]

theorem Reads.placed {body : Body} (reads : Reads (.statement body) p ts taken r) (ok : r = .ok n) :
    ∃ s rest last, n = .stmt s ∧ ts = taken ++ rest ∧
      ts.foldlM Parser.read p = rest.foldlM Parser.read ⟨.statement (body.add s), last⟩ := by
  induction reads with
  | @whole p t ts n whole =>
    obtain ⟨s, rfl⟩ := whole.statement
    refine ⟨s, t :: ts, p.last, (Except.ok.inj ok).symm, rfl, ?_⟩
    have same : p.read t = Parser.read ⟨.statement (body.add s), p.last⟩ t := by
      simp only [Parser.read, whole.read]
      rfl
    rw [List.foldlM_cons, same, List.foldlM_cons]
  | refused => cases ok
  | @more p q t ts taken r _ read _ ih =>
    obtain ⟨s, rest, last, tree, rfl, run⟩ := ih ok
    refine ⟨s, rest, last, tree, rfl, ?_⟩
    rw [List.foldlM_cons, read]
    exact run

end reads

section final

variable {ts : List Token} {e : Token} {fault : ParseError} {q : Parser}

theorem unreadParse (run : ts.foldlM Parser.read .ofProgram = .error fault) :
    parse ts = .error fault := by
  simp only [parse, Parser.finish, run, bind, Except.bind]

theorem parseSupplied (ts : List Token) : parse ts = parse (supplied ts) := by
  rcases finishes ts with ⟨fault, run, result⟩ | ⟨q, ss, run, phase, result⟩
  · rw [finishSupplied] at run
    rw [result, unreadParse run]
  · rw [finishSupplied] at run
    rw [result, programParses run phase]

theorem parseEnded (stop : e.kind = .endOfInput) (us : List Token) :
    parse (ts ++ e :: us) = parse (ts ++ [e]) := by
  have whole : (ts ++ e :: us).foldlM Parser.read .ofProgram =
      (ts ++ [e]).foldlM Parser.read .ofProgram >>= us.foldlM Parser.read := by
    rw [List.append_cons, List.foldlM_append]
  cases run : (ts ++ [e]).foldlM Parser.read .ofProgram with
  | error fault =>
    rw [run] at whole
    rw [unreadParse run, unreadParse whole]
  | ok q =>
    have ended : ¬ Endless (ts ++ [e]) := by simp [stop]
    obtain ⟨ss, phase⟩ := endedProgram ended run
    obtain ⟨last, further⟩ := closedRun (p := q) (by rw [phase]; trivial) us
    rw [run] at whole
    rw [programParses run phase, programParses (whole.trans further) phase]

theorem expressionReads (ts : List Token) : ∃ taken r,
    Reads (.expression .whole) .ofExpression (supplied ts) taken r ∧
      (parseExpression ts).map Node.expr = r := by
  obtain ⟨taken, r, reads⟩ := readsSomehow (.expression .whole) .nowhere (suppliedEnded ts)
    fun _ _ => trivial
  refine ⟨taken, r, reads, ?_⟩
  have finish : Parser.ofExpression.finish ts =
      (supplied ts).foldlM Parser.read .ofExpression := finishLast .ofExpression ts
  rcases reads.run with ⟨x, last, rfl, run⟩ | ⟨fault, rfl, run⟩
  · rw [parseExpression, finish, show (supplied ts).foldlM Parser.read .ofExpression = _ from run]
    rfl
  · rw [parseExpression, finish, show (supplied ts).foldlM Parser.read .ofExpression = _ from run]
    rfl

end final

/-- The first end of input ends the list, and there is one behind every list, at the place of the
last token; where it is read there is a fault or nothing is open. A stretch of whatever kind and
wherever it begins comes to an end before the end of input has passed; if it is whole, it has taken
tokens from the front, at least one and none of them an end of input. A statement then stands in
its body, which reads on; an expression that is parsed alone is the stretch that no construct is
around. -/
theorem endOfInputFinal :
    (∀ ts e us, e.kind = .endOfInput → parse (ts ++ e :: us) = parse (ts ++ [e])) ∧
    (∀ ts, parse ts = parse (supplied ts)) ∧
    (∀ ts, (∃ fault, Parser.ofProgram.finish ts = .error fault ∧ parse ts = .error fault) ∨
      ∃ q ss, Parser.ofProgram.finish ts = .ok q ∧ q.phase = .program ss ∧ parse ts = .ok ⟨ss⟩) ∧
    (∀ stretch last ts, ¬ Endless ts → (∀ t ∈ ts.head?, stretch.MayBegin t) →
      ∃ taken r, Reads stretch ⟨stretch.begins, last⟩ ts taken r) ∧
    (∀ stretch last ts taken n, Reads stretch ⟨stretch.begins, last⟩ ts taken (.ok n) →
      taken <+: ts ∧ taken ≠ [] ∧ Endless taken) ∧
    (∀ body last ts taken n, Reads (.statement body) ⟨.statement body, last⟩ ts taken (.ok n) →
      ∃ s rest last', n = .stmt s ∧ ts = taken ++ rest ∧
        ts.foldlM Parser.read ⟨.statement body, last⟩ =
          rest.foldlM Parser.read ⟨.statement (body.add s), last'⟩) ∧
    (∀ ts, ∃ taken r, Reads (.expression .whole) .ofExpression (supplied ts) taken r ∧
      (parseExpression ts).map Node.expr = r) :=
  ⟨fun _ _ us stop => parseEnded stop us, parseSupplied, finishes,
    fun stretch last _ ended may => readsSomehow stretch last ended may,
    fun _ _ _ _ _ reads => ⟨reads.begins, reads.some, (reads.inside rfl).2⟩,
    fun _ _ _ _ _ reads => reads.placed rfl, expressionReads⟩

def cutCall : List Token := [.at 0 .identifier, .at 1 .leftParen]

def nameThenSign : List Token := [.at 0 .identifier, .at 1 .semicolon, .at 2 .endOfInput]

theorem cutCallEnds :
    parse (cutCall ++ .at 2 .endOfInput :: [.at 3 .rightParen]) =
      .error ⟨.expectedExpression .endOfInput, .emptyAt ⟨2, 1, 3⟩⟩ ∧
    (∃ taken r, Reads (.statement (.program [])) .ofProgram nameThenSign taken r) ∧
    ∃ n, Reads (.statement (.program [])) .ofProgram nameThenSign [.at 0 .identifier] (.ok n) ∧
      Endless [Token.at 0 .identifier] := by
  have final := endOfInputFinal
  have begins : ∀ t ∈ nameThenSign.head?, (Stretch.statement (.program [])).MayBegin t := by
    rintro t ⟨⟩
    exact ⟨nofun, nofun, nofun⟩
  have reads :
      Reads (.statement (.program [])) .ofProgram nameThenSign [.at 0 .identifier] (.ok _) :=
    .more (beginsOpen (.statement (.program []))) rfl (.whole (.expression (.connective rfl)))
  exact ⟨(final.1 cutCall (.at 2 .endOfInput) [.at 3 .rightParen] rfl).trans rfl,
    final.2.2.2.1 _ .nowhere nameThenSign (by simp [nameThenSign, Token.at]) begins,
    _, reads, (final.2.2.2.2.1 _ .nowhere _ _ _ reads).2.2⟩

end Scriptlet

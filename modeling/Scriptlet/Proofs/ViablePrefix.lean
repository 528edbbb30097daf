import Scriptlet.Proofs.ParsingExact
import Scriptlet.Proofs.Printing

/-! A list that is no program is refused at the first token that makes it impossible.
Whatever was read without a fault can be finished, and a fault depends on nothing behind the token
that raises it. So the tokens before a fault begin some program, and with one more they begin none.
-/
namespace Scriptlet

/-- The tokens with the end of input that stands behind them. It has the place of the last one. -/
def supplied (ts : List Token) : List Token :=
  ts ++ [⟨.endOfInput, (ts.getLast?.map Token.span).getD .nowhere⟩]

def Phase.Closed : Phase → Prop
  | program _ | expression _ => True
  | _ => False

section finishing

def Completes (phase : Phase) (last : Span) : Prop :=
  ∃ (us : List Token) (q : Parser), us.foldlM Parser.read ⟨phase, last⟩ = .ok q ∧ q.phase.Closed

variable {phase next : Phase} {last : Span}

theorem closedCompletes (closed : phase.Closed) : Completes phase last := ⟨[], _, rfl, closed⟩

theorem stepCompletes (t : Token) (ok : phase.read last t = .ok next)
    (rest : Completes next t.span) : Completes phase last := by
  obtain ⟨us, q, run, closed⟩ := rest
  refine ⟨t :: us, q, ?_, closed⟩
  simp only [List.foldlM_cons, Parser.read, ok]
  exact run

theorem openingCompletes {owner : Owner}
    (rest : ∀ b last last', Completes (owner.receive last' b) last) :
    Completes (.blockOpening owner) last :=
  stepCompletes (.fixed .leftBrace) rfl (stepCompletes (.fixed .rightBrace) rfl (rest _ _ _))

theorem alternativeCompletes {start : Span} {test : Expr} {first : Block} {outer : Slot}
    (rest : ∀ e last, Completes (.connective e outer) last) :
    Completes (.alternative start test first outer) last :=
  stepCompletes (.fixed .elseWord) rfl (openingCompletes fun _ _ _ => rest _ _)

mutual

theorem slotCompletes (slot : Slot) (e : Expr) (last : Span) :
    Completes (.connective e slot) last :=
  match slot with
  | ⟨waiting, goal⟩ => goalCompletes goal waiting e last

theorem goalCompletes (goal : Goal) (waiting : List Waiting) (e : Expr) (last : Span) :
    Completes (.connective e ⟨waiting, goal⟩) last :=
  match goal with
  | .whole => stepCompletes (.fixed .endOfInput) rfl (closedCompletes trivial)
  | .statement _ body | .binding _ _ body | .returning _ body =>
      stepCompletes (.fixed .semicolon) rfl (bodyCompletes body [_] _)
  | .grouped outer | .argument _ _ outer =>
      stepCompletes (.fixed .rightParen) rfl (slotCompletes outer _ _)
  | .condition _ outer =>
      stepCompletes (.fixed .rightParen) rfl
        (openingCompletes fun _ _ _ => alternativeCompletes (slotCompletes outer))

theorem bodyCompletes (body : Body) (ss : List Stmt) (last : Span) :
    Completes (.statement (body.addAll ss)) last :=
  match body with
  | .program earlier => by
      rw [addAllProgram]
      exact stepCompletes (.fixed .endOfInput) rfl (closedCompletes trivial)
  | .block opening earlier owner => by
      rw [addAllBlock]
      exact stepCompletes (.fixed .rightBrace) rfl (ownerCompletes owner _ _ _)

theorem ownerCompletes (owner : Owner) (b : Block) (last last' : Span) :
    Completes (owner.receive last' b) last :=
  match owner with
  | .statement _ body => bodyCompletes body [_] _
  | .consequence _ _ outer => alternativeCompletes (slotCompletes outer)
  | .alternative _ _ _ outer | .function _ _ _ outer => slotCompletes outer _ _

end

theorem operandCompletes (slot : Slot) (last : Span) : Completes (.operand slot) last :=
  stepCompletes (.fixed .identifier) rfl (slotCompletes slot _ _)

theorem blockCompletes (owner : Owner) (last : Span) : Completes (.blockOpening owner) last :=
  openingCompletes (ownerCompletes owner)

theorem parameterCompletes (start : Span) (own : Option Ident) (earlier : List Ident) (outer : Slot)
    (last : Span) : Completes (.parameter start own earlier outer) last :=
  stepCompletes (.fixed .rightParen) rfl (blockCompletes _ _)

theorem phaseCompletes (phase : Phase) (last : Span) : Completes phase last := by
  have signCompletes (start : Span) (name : Ident) (body : Body) (last : Span) :
      Completes (.bindingSign start name body) last :=
    stepCompletes (.fixed .equal) rfl (operandCompletes _ _)
  cases phase with
  | statement body => exact bodyCompletes body [] last
  | bindingName => exact stepCompletes (.fixed .identifier) rfl (signCompletes _ _ _ _)
  | bindingSign => exact signCompletes _ _ _ _
  | returnValue _ body => exact stepCompletes (.fixed .semicolon) rfl (bodyCompletes body [_] _)
  | operand slot => exact operandCompletes slot last
  | connective e slot => exact slotCompletes slot e last
  | argument _ _ outer => exact stepCompletes (.fixed .rightParen) rfl (slotCompletes outer _ _)
  | condition => exact stepCompletes (.fixed .leftParen) rfl (operandCompletes _ _)
  | blockOpening owner => exact blockCompletes owner last
  | alternative _ _ _ outer => exact alternativeCompletes (slotCompletes outer)
  | functionName | parametersOpening =>
    exact stepCompletes (.fixed .leftParen) rfl (parameterCompletes _ _ _ _ _)
  | parameter => exact parameterCompletes _ _ _ _ _
  | parameterEnd => exact stepCompletes (.fixed .rightParen) rfl (blockCompletes _ _)
  | program | expression => exact closedCompletes trivial

end finishing

section blame

def braceAfter (braces : List Span) (t : Token) : List Span :=
  match t.kind with
  | .leftBrace => t.span :: braces
  | .rightBrace => braces.tail
  | _ => braces

def openBraces (ts : List Token) : List Span := ts.foldl braceAfter []

/- What a fault says, given the token that raises it and the braces that are open before it. -/
inductive Blames (t : Token) (braces : List Span) : ParseError → Prop where
  | expectedToken {expected construct} :
      Blames t braces ⟨.expectedToken expected construct t.toLexeme, t.span⟩
  | expectedIdentifier {construct} :
      Blames t braces ⟨.expectedIdentifier construct t.toLexeme, t.span⟩
  | expectedExpression : Blames t braces ⟨.expectedExpression t.toLexeme, t.span⟩
  | unclosedBlock {brace} (stop : t.kind = .endOfInput) (innermost : braces.head? = some brace) :
      Blames t braces ⟨.unclosedBlock, brace⟩
  | invalidInteger (kind : t.kind = .integer) (value : readInteger? t.text = none) :
      Blames t braces ⟨.invalidInteger t.text, t.span⟩

mutual

def Slot.braces : Slot → List Span
  | ⟨_, goal⟩ => goal.braces

def Goal.braces : Goal → List Span
  | .whole => []
  | .statement _ body | .binding _ _ body | .returning _ body => body.braces
  | .grouped outer | .argument _ _ outer | .condition _ outer => outer.braces

def Body.braces : Body → List Span
  | .program _ => []
  | .block opening _ owner => opening :: owner.braces

def Owner.braces : Owner → List Span
  | .statement _ body => body.braces
  | .consequence _ _ outer | .alternative _ _ _ outer | .function _ _ _ outer => outer.braces

end

def Phase.braces : Phase → List Span
  | statement body | bindingName _ body | bindingSign _ _ body | returnValue _ body => body.braces
  | operand slot | connective _ slot => slot.braces
  | argument _ _ outer | condition _ outer | alternative _ _ _ outer | functionName _ outer
  | parametersOpening _ _ outer | parameter _ _ _ outer | parameterEnd _ _ _ outer => outer.braces
  | blockOpening owner => owner.braces
  | program _ | expression _ => []

variable {t : Token} {last : Span} {e : ParseError} {next : Phase}

theorem addBraces (s : Stmt) (body : Body) : (body.add s).braces = body.braces := by
  cases body <;> rfl

theorem receiveBraces (b : Block) (owner : Owner) : (owner.receive last b).braces = owner.braces := by
  cases owner with
  | statement start body => exact addBraces _ body
  | _ => rfl

/- How the braces stand after a token is read, and what is said of one that is refused. An end of
input closes what it is read in. -/
def Tracks (braces : List Span) (t : Token) : Except ParseError Phase → Prop
  | .ok next => next.Closed ∨ t.kind ≠ .endOfInput ∧ next.braces = braceAfter braces t
  | .error e => Blames t braces e

theorem startTracks (slot : Slot) (t : Token) : Tracks slot.braces t (slot.start t) := by
  obtain ⟨waiting, goal⟩ := slot
  unfold Slot.start
  split <;> rename_i kind
  case h_3 =>
    split
    · exact .inr (by simp [braceAfter, kind, Phase.braces])
    · rename_i value
      exact .invalidInteger kind value
  case h_11 => exact .expectedExpression
  all_goals
    exact .inr (by simp [braceAfter, kind, Phase.braces, Slot.push, Goal.slot, Slot.braces, Goal.braces])

theorem bodyTracks (body : Body) (t : Token) : Tracks body.braces t (body.read t) := by
  have started := startTracks (Goal.statement t.span body).slot t
  unfold Body.read
  split <;> rename_i kind
  case h_4 => exact .inr (by simp [braceAfter, kind, Phase.braces, Body.braces, Owner.braces])
  case h_5 =>
    cases body with
    | program earlier => exact .expectedExpression
    | block opening earlier owner =>
      exact .inr (by simp [braceAfter, kind, receiveBraces, Body.braces])
  case h_6 =>
    cases body with
    | program earlier => exact .inl trivial
    | block opening earlier owner => exact .unclosedBlock kind rfl
  case h_7 => exact started
  all_goals exact .inr (by simp [braceAfter, kind, Phase.braces])

theorem addTracks (s : Stmt) (body : Body) (t : Token) :
    Tracks body.braces t ((body.add s).read t) :=
  addBraces s body ▸ bodyTracks (body.add s) t

theorem receiveTracks (last : Span) (e : Expr) (goal : Goal) (t : Token) :
    Tracks goal.braces t (goal.receive last e t) := by
  cases goal with
  | whole => exact .inl trivial
  | statement start body => exact addTracks _ body t
  | binding start name body => exact addTracks _ body t
  | returning start body => exact addTracks _ body t
  | grouped outer | argument callee earlier outer | condition start outer =>
    simp only [Goal.receive]
    split <;> rename_i kind
    all_goals first
      | exact .expectedToken
      | exact .inr (by simp [braceAfter, kind, finishCall, Phase.braces, Goal.braces, Owner.braces])

theorem extendTracks (last : Span) (e : Expr) (slot : Slot) (t : Token) :
    Tracks slot.braces t (slot.extend last e t) := by
  obtain ⟨waiting, goal⟩ := slot
  have plain {c : Connective} (connective : Connective.ofKind? t.kind = some c) :
      t.kind ≠ .endOfInput ∧ goal.braces = braceAfter goal.braces t := by
    cases kind : t.kind <;> simp_all [Connective.ofKind?, braceAfter]
  simp only [Slot.extend]
  split
  · exact .inr (plain ‹_›)
  · exact .inr (plain ‹_›)
  · exact receiveTracks last _ goal t

theorem readTracks (last : Span) (phase : Phase) (t : Token) :
    Tracks phase.braces t (phase.read last t) := by
  cases phase with
  | statement body => exact bodyTracks body t
  | operand slot => exact startTracks slot t
  | connective e slot => exact extendTracks last e slot t
  | program | expression => exact .inl trivial
  | returnValue start body =>
    simp only [Phase.read]
    split
    case h_4 => exact startTracks (Goal.returning start body).slot t
    all_goals exact addTracks _ body t
  | argument callee earlier outer =>
    simp only [Phase.read]
    split
    · rename_i kind
      exact .inr (by simp [braceAfter, kind, finishCall, Phase.braces])
    · exact startTracks (Goal.argument callee earlier outer).slot t
  | alternative start test first outer =>
    simp only [Phase.read]
    split
    · rename_i kind
      exact .inr (by simp [braceAfter, kind, Phase.braces, Owner.braces])
    · exact extendTracks last _ outer t
  | _ =>
    simp only [Phase.read]
    split <;> rename_i kind
    all_goals first
      | exact .expectedToken
      | exact .expectedIdentifier
      | exact .inr (by simp [braceAfter, kind, Phase.braces, Goal.slot, Slot.braces, Goal.braces,
          Body.braces, Owner.braces])

end blame

section reading

variable {p q : Parser} {ts us : List Token} {t : Token} {e : ParseError} {k : Nat}

theorem readFault (fault : p.read t = .error e) : p.phase.read p.last t = .error e := by
  simp only [Parser.read, bind, Except.bind] at fault
  split at fault
  · cases fault
    assumption
  · cases fault

theorem closedReads (closed : p.phase.Closed) (t : Token) : ∃ q, p.read t = .ok q ∧
    q.phase.Closed := by
  obtain ⟨phase, last⟩ := p
  cases phase <;> cases closed <;> exact ⟨_, rfl, trivial⟩

theorem runTracks (before : p.phase.Closed ∨ Endless ts ∧ p.phase.braces = openBraces ts)
    (run : us.foldlM Parser.read p = .ok q) :
    q.phase.Closed ∨ Endless (ts ++ us) ∧ q.phase.braces = openBraces (ts ++ us) := by
  induction us generalizing p ts with
  | nil =>
    cases run
    rwa [List.append_nil]
  | cons t us ih =>
    simp only [List.foldlM_cons, bind, Except.bind] at run
    split at run
    · cases run
    · rename_i next read
      have after : next.phase.Closed ∨
          Endless (ts ++ [t]) ∧ next.phase.braces = openBraces (ts ++ [t]) := by
        rcases before with closed | ⟨inside, braces⟩
        · obtain ⟨_, read', closed⟩ := closedReads closed t
          cases read.symm.trans read'
          exact .inl closed
        · have tracks := readTracks p.last p.phase t
          rw [parserRead read] at tracks
          refine tracks.imp_right fun ⟨other, after⟩ => ?_
          simp [inside, other, after, braces, openBraces]
      have rest := ih after run
      rwa [List.append_assoc] at rest

theorem startTracked (run : us.foldlM Parser.read .ofProgram = .ok q) :
    q.phase.Closed ∨ Endless us ∧ q.phase.braces = openBraces us :=
  runTracks (.inr ⟨endlessNil, rfl⟩) run

theorem runFault (fault : us.foldlM Parser.read p = .error e) : ∃ k t q, us[k]? = some t ∧
    (us.take k).foldlM Parser.read p = .ok q ∧ q.read t = .error e := by
  induction us generalizing p with
  | nil => cases fault
  | cons t us ih =>
    simp only [List.foldlM_cons, bind, Except.bind] at fault
    split at fault
    · rename_i read
      cases fault
      exact ⟨0, t, p, rfl, rfl, read⟩
    · rename_i next read
      obtain ⟨k, t', q, found, run, refused⟩ := ih fault
      refine ⟨k + 1, t', q, found, ?_, refused⟩
      simp only [List.take_succ_cons, List.foldlM_cons, read]
      exact run

theorem runLast (run : ts.foldlM Parser.read p = .ok q) :
    q.last = (ts.getLast?.map Token.span).getD p.last := by
  induction ts generalizing p with
  | nil =>
    cases run
    rfl
  | cons t ts ih =>
    simp only [List.foldlM_cons, bind, Except.bind] at run
    split at run
    · cases run
    · rename_i next read
      rw [ih run, readLast read, List.getLast?_cons]
      cases ts.getLast? <;> rfl

theorem finishLast (p : Parser) (ts : List Token) :
    let last : Token := ⟨.endOfInput, (ts.getLast?.map Token.span).getD p.last⟩
    p.finish ts = (ts ++ [last]).foldlM Parser.read p := by
  simp only [Parser.finish, List.foldlM_append, List.foldlM_cons, List.foldlM_nil, bind_pure]
  cases run : ts.foldlM Parser.read p with
  | error e => rfl
  | ok q => exact congrArg (fun place => q.read ⟨.endOfInput, place⟩) (runLast run)

theorem finishSupplied (ts : List Token) :
    Parser.ofProgram.finish ts = (supplied ts).foldlM Parser.read .ofProgram :=
  finishLast .ofProgram ts

theorem closedProgram (run : ts.foldlM Parser.read .ofProgram = .ok q) (closed : q.phase.Closed) :
    ∃ ss, q.phase = .program ss := by
  have after := parserRun parserStart run
  generalize q.phase = phase at after closed
  cases after <;> first | exact ⟨_, rfl⟩ | cases closed

theorem programParses {ss : List Stmt} (run : ts.foldlM Parser.read .ofProgram = .ok q)
    (phase : q.phase = .program ss) : parse ts = .ok ⟨ss⟩ := by
  simp only [parse, Parser.finish, run, Parser.read, phase, bind, Except.bind, Phase.read, pure,
    Except.pure]

theorem endedProgram (ended : ¬ Endless ts) (run : ts.foldlM Parser.read .ofProgram = .ok q) :
    ∃ ss, q.phase = .program ss :=
  closedProgram run ((startTracked run).resolve_right fun inside => ended inside.1)

theorem parsedRun {tree : Program} (ok : parse ts = .ok tree) (ended : ¬ Endless ts) :
    ∃ q, ts.foldlM Parser.read .ofProgram = .ok q ∧ q.phase = .program tree.statements := by
  obtain ⟨q, r, run, last, phase⟩ := parseResult ok
  obtain ⟨ss, own⟩ := endedProgram ended run
  refine ⟨q, run, ?_⟩
  have read := parserRead last
  rw [own] at read
  exact own.trans ((Except.ok.inj read).trans phase)

theorem parsedBefore {e : Token} {tree : Program} (stop : e.kind = .endOfInput)
    (ok : parse (ts ++ [e]) = .ok tree) : ∃ q, ts.foldlM Parser.read .ofProgram = .ok q ∧
      q.phase.read q.last e = .ok (.program tree.statements) := by
  have ended : ¬ Endless (ts ++ [e]) := by simp [stop]
  obtain ⟨r, run, phase⟩ := parsedRun ok ended
  rw [List.foldlM_append] at run
  cases before : ts.foldlM Parser.read .ofProgram with
  | error d =>
    rw [before] at run
    cases run
  | ok q =>
    simp only [before, List.foldlM_cons, List.foldlM_nil, bind_pure] at run
    exact ⟨q, rfl, phase ▸ parserRead (p := q) run⟩

theorem closedParses (run : ts.foldlM Parser.read .ofProgram = .ok q) (closed : q.phase.Closed) :
    ∃ p, parse ts = .ok p := by
  obtain ⟨ss, phase⟩ := closedProgram run closed
  exact ⟨⟨ss⟩, programParses run phase⟩

theorem suppliedEnded (ts : List Token) : ¬ Endless (supplied ts) := by
  simp [supplied, Lexeme.endOfInput]

theorem finishes (ts : List Token) :
    (∃ fault, Parser.ofProgram.finish ts = .error fault ∧ parse ts = .error fault) ∨
      ∃ q ss, Parser.ofProgram.finish ts = .ok q ∧ q.phase = .program ss ∧ parse ts = .ok ⟨ss⟩ := by
  cases run : Parser.ofProgram.finish ts with
  | error fault => exact .inl ⟨fault, rfl, by simp only [parse, run, bind, Except.bind]⟩
  | ok q =>
    obtain ⟨ss, phase⟩ := endedProgram (suppliedEnded ts) (finishSupplied ts ▸ run)
    refine .inr ⟨q, ss, rfl, phase, ?_⟩
    simp only [parse, run, phase, bind, Except.bind, pure, Except.pure]

theorem parseFault (run : ts.foldlM Parser.read .ofProgram = .ok q) (fault : q.read t = .error e)
    (us : List Token) : parse (ts ++ t :: us) = .error e := by
  simp only [parse, Parser.finish, List.foldlM_append, List.foldlM_cons, run, fault, bind,
    Except.bind]

end reading

section faults

def RefusedAt (ts : List Token) (k : Nat) (t : Token) (e : ParseError) : Prop :=
  ∃ q, (supplied ts)[k]? = some t ∧
    ((supplied ts).take k).foldlM Parser.read .ofProgram = .ok q ∧ q.read t = .error e

/- The first `k` tokens begin a list that parses, and the first `k + 1` begin none. -/
structure FirstImpossible (ts : List Token) (k : Nat) : Prop where
  possible : ∃ us p, parse ((supplied ts).take k ++ us) = .ok p
  impossible : ∀ us p, parse ((supplied ts).take (k + 1) ++ us) ≠ .ok p

structure Attributed (ts : List Token) (e : ParseError) (k : Nat) (t : Token) : Prop where
  within : k ≤ (beforeEnd ts).length
  token : (supplied ts)[k]? = some t
  first : FirstImpossible ts k
  only : ∀ l, FirstImpossible ts l → l = k
  always : ∀ us, parse ((supplied ts).take (k + 1) ++ us) = .error e
  names : Blames t (openBraces ((supplied ts).take k)) e

variable {ts : List Token} {k l : Nat} {t : Token} {e : ParseError}

theorem refusedSomewhere (refused : parse ts = .error e) : ∃ k t, RefusedAt ts k t e := by
  rcases finishes ts with ⟨fault, run, same⟩ | ⟨_, _, _, _, ok⟩
  · cases refused.symm.trans same
    rw [finishSupplied] at run
    obtain ⟨k, t, q, found⟩ := runFault run
    exact ⟨k, t, q, found⟩
  · cases refused.symm.trans ok

theorem FirstImpossible.least (first : FirstImpossible ts k) (other : FirstImpossible ts l) :
    l ≤ k := by
  refine Nat.le_of_not_lt fun longer => ?_
  obtain ⟨us, p, ok⟩ := other.possible
  have split := List.take_append_drop (k + 1) ((supplied ts).take l)
  rw [List.take_take, Nat.min_eq_left longer] at split
  rw [← split, List.append_assoc] at ok
  exact first.impossible _ p ok

namespace RefusedAt

variable (refused : RefusedAt ts k t e)
include refused

theorem always (us : List Token) : parse ((supplied ts).take (k + 1) ++ us) = .error e := by
  obtain ⟨q, found, run, fault⟩ := refused
  have next := parseFault run fault us
  rwa [List.take_add_one, found, Option.toList_some, List.append_assoc, List.singleton_append]

theorem firstImpossible : FirstImpossible ts k where
  possible := by
    obtain ⟨q, _, run, _⟩ := refused
    obtain ⟨us, r, rest, closed⟩ := phaseCompletes q.phase q.last
    refine ⟨us, closedParses ?_ closed⟩
    rw [List.foldlM_append, run]
    exact rest
  impossible us p ok := by cases (refused.always us).symm.trans ok

theorem openBefore : ∃ q : Parser, q.read t = .error e ∧ Endless ((supplied ts).take k) ∧
    q.phase.braces = openBraces ((supplied ts).take k) := by
  obtain ⟨q, _, run, fault⟩ := refused
  refine ⟨q, fault, (startTracked run).resolve_left fun closed => ?_⟩
  obtain ⟨_, read, _⟩ := closedReads closed t
  cases fault.symm.trans read

theorem within : k ≤ (beforeEnd ts).length := by
  obtain ⟨_, found, _⟩ := id refused
  obtain ⟨_, _, inside, _⟩ := refused.openBefore
  have short : k ≤ (supplied ts).length := Nat.le_of_lt (List.getElem?_eq_some_iff.mp found).1
  have split := beforeEndEndless inside ((supplied ts).drop k)
  rw [List.take_append_drop, supplied, beforeEndLast _ rfl, ← supplied] at split
  rw [split, List.length_append, List.length_take, Nat.min_eq_left short]
  exact Nat.le_add_right _ _

theorem blames : Blames t (openBraces ((supplied ts).take k)) e := by
  obtain ⟨q, fault, _, braces⟩ := refused.openBefore
  have tracks := readTracks q.last q.phase t
  rwa [readFault fault, braces] at tracks

theorem refuses : parse ts = .error e := by
  obtain ⟨q, found, run, fault⟩ := refused
  have split := List.take_append_drop (k + 1) (supplied ts)
  rw [List.take_add_one, found, Option.toList_some, List.append_assoc] at split
  simp only [parse, finishSupplied]
  rw [← split, List.foldlM_append, run]
  simp only [List.singleton_append, List.foldlM_cons, fault, bind, Except.bind]

theorem attributed : Attributed ts e k t where
  within := refused.within
  token := refused.choose_spec.1
  first := refused.firstImpossible
  only _ other := Nat.le_antisymm (refused.firstImpossible.least other)
    (other.least refused.firstImpossible)
  always := refused.always
  names := refused.blames

end RefusedAt

/-- Of a list that does not parse there is one first token that makes it impossible: those before
it begin a list that parses, and it is with it that all lists fail, with one and the same error.
That token is at most the end of input, and the error names it, or the brace of the innermost block
that is open there. -/
theorem faultAtFirstImpossible {ts : List Token} {e : ParseError} (fault : parse ts = .error e) :
    ∃ k t, Attributed ts e k t := by
  obtain ⟨k, t, refused⟩ := refusedSomewhere fault
  exact ⟨k, t, refused.attributed⟩

def Token.at (byte : Nat) (kind : TokenKind) : Token :=
  ⟨⟨kind, kind.spelling?.getD ""⟩, .emptyAt ⟨byte, 1, byte + 1⟩⟩

def outerOpen : List Token := [.at 0 .leftBrace, .at 2 .leftBrace, .at 4 .rightBrace]

theorem outerOpenRefused : parse outerOpen = .error ⟨.unclosedBlock, .emptyAt ⟨0, 1, 1⟩⟩ ∧
    ∃ k t, Attributed outerOpen ⟨.unclosedBlock, .emptyAt ⟨0, 1, 1⟩⟩ k t :=
  ⟨rfl, faultAtFirstImpossible rfl⟩

end faults

end Scriptlet

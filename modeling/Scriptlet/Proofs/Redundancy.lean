import Scriptlet.Proofs.ViablePrefix

/-! Signs that change nothing.
A semicolon leads to where the next statement may begin, and there one more at the same place leads
nowhere else. A comma behind the last item of a list leads to where the list may end as well, and
its end is placed by the parenthesis. So neither can be told from what is parsed, be it a tree or a
fault. -/
namespace Scriptlet

/- The second list has the tokens of the first one, each semicolon any number of times. -/
inductive Repeats : List Token → List Token → Prop where
  | none : Repeats [] []
  | once {t ts us} (later : Repeats ts us) : Repeats (t :: ts) (t :: us)
  | again {t ts us} (sign : t.kind = .semicolon) (later : Repeats (t :: ts) us) :
      Repeats (t :: ts) (t :: us)

inductive ItemBegins : Phase → Prop where
  | argument {callee earlier outer} : ItemBegins (.argument callee earlier outer)
  | parameter {start own earlier outer} : ItemBegins (.parameter start own earlier outer)

inductive ItemEnds : Phase → Prop where
  | connective {e waiting callee earlier outer} :
      ItemEnds (.connective e ⟨waiting, .argument callee earlier outer⟩)
  | alternative {start test first waiting callee earlier outer} :
      ItemEnds (.alternative start test first ⟨waiting, .argument callee earlier outer⟩)
  | parameter {start own earlier outer} : ItemEnds (.parameterEnd start own earlier outer)

/- A closing parenthesis would end a list that is not empty and does not end in a comma. -/
structure BehindItem (ts : List Token) : Prop where
  list : ∃ q, ts.foldlM Parser.read .ofProgram = .ok q ∧ (ItemBegins q.phase ∨ ItemEnds q.phase)
  item : ∀ t ∈ ts.getLast?, t.kind ≠ .leftParen ∧ t.kind ≠ .comma

inductive OpenList : List Token → Prop where
  | arguments {before function opening items callee es}
      (call : Derives function (.expression .call callee)) (parenthesis : opening.kind = .leftParen)
      (values : Derives items (.sequence es)) : OpenList (before ++ (function ++ opening :: items))
  | parameters {before heading opening items own names} (word : Heading heading own)
      (parenthesis : opening.kind = .leftParen) (all : Names items names) :
      OpenList (before ++ (heading ++ opening :: items))

section semicolons

variable {t : Token} {last : Span} {phase next : Phase}

def BetweenStatements (phase : Phase) : Prop := phase.Closed ∨ ∃ body, phase = .statement body

variable (sign : t.kind = .semicolon)
include sign

theorem bodySemicolon (body : Body) : body.read t = .ok (.statement body) := by
  simp only [Body.read, sign]

theorem receiveSemicolon {goal : Goal} {e : Expr} (ok : goal.receive last e t = .ok next) :
    BetweenStatements next := by
  cases goal with
  | whole =>
    cases ok
    exact .inl trivial
  | statement | binding | returning =>
    cases (bodySemicolon sign _).symm.trans ok
    exact .inr ⟨_, rfl⟩
  | grouped | argument | condition =>
    simp only [Goal.receive, sign] at ok
    cases ok

theorem extendSemicolon {slot : Slot} {e : Expr} (ok : slot.extend last e t = .ok next) :
    BetweenStatements next := by
  obtain ⟨waiting, goal⟩ := slot
  simp only [Slot.extend, sign, Connective.ofKind?] at ok
  exact receiveSemicolon sign ok

theorem semicolonLeads (ok : phase.read last t = .ok next) : BetweenStatements next := by
  cases phase with
  | statement body =>
    cases (bodySemicolon sign body).symm.trans ok
    exact .inr ⟨body, rfl⟩
  | returnValue start body =>
    simp only [Phase.read, sign, bodySemicolon sign] at ok
    cases ok
    exact .inr ⟨_, rfl⟩
  | connective e slot => exact extendSemicolon sign ok
  | alternative start test first outer =>
    simp only [Phase.read, sign] at ok
    exact extendSemicolon sign ok
  | program | expression =>
    cases ok
    exact .inl trivial
  | _ =>
    simp only [Phase.read, Slot.start, sign] at ok
    cases ok

theorem semicolonAgain {p q : Parser} (ok : p.read t = .ok q) : q.read t = .ok q := by
  have place := readLast ok
  obtain ⟨phase, last⟩ := q
  cases place
  rcases semicolonLeads sign (parserRead ok) with closed | ⟨body, rfl⟩
  · cases phase <;> cases closed <;> rfl
  · simp only [Parser.read, Phase.read, bodySemicolon sign, bind, Except.bind]
    rfl

end semicolons

theorem Repeats.run {ts us : List Token} (repeats : Repeats ts us) (p : Parser) :
    us.foldlM Parser.read p = ts.foldlM Parser.read p := by
  induction repeats generalizing p with
  | none => rfl
  | @once t ts us _ ih =>
    rw [List.foldlM_cons, List.foldlM_cons]
    exact bind_congr ih
  | @again t ts us sign _ ih =>
    rw [List.foldlM_cons, List.foldlM_cons]
    cases read : p.read t with
    | error e => rfl
    | ok q =>
      have same := ih q
      rw [List.foldlM_cons, semicolonAgain sign read] at same
      exact same

section lists

variable {ts : List Token} {t comma : Token} {p : Parser}

theorem parseRun {ts us : List Token}
    (same : us.foldlM Parser.read .ofProgram = ts.foldlM Parser.read .ofProgram) :
    parse us = parse ts := by
  simp only [parse, Parser.finish, same]

theorem ItemBegins.last {phase : Phase} (begins : ItemBegins phase) (after : PhaseAfter ts phase) :
    ∃ t ∈ ts.getLast?, t.kind = .leftParen ∨ t.kind = .comma := by
  cases begins with
  | argument =>
    cases after with
    | @argument _ _ l _ _ _ _ _ _ opening values =>
      cases values with
      | none => exact ⟨l, by simp [List.getLast?_cons], .inl opening⟩
      | @some _ comma _ _ separator => exact ⟨comma, by simp [List.getLast?_cons], .inr separator⟩
  | parameter =>
    cases after with
    | @parameter _ _ _ l _ _ _ _ _ _ _ opening names =>
      cases names with
      | none => exact ⟨l, by simp [List.getLast?_cons], .inl opening⟩
      | @some _ comma _ _ separator => exact ⟨comma, by simp [List.getLast?_cons], .inr separator⟩

theorem BehindItem.ends (behind : BehindItem ts) : ∃ q, ts.foldlM Parser.read .ofProgram = .ok q ∧
    PhaseAfter ts q.phase ∧ ItemEnds q.phase := by
  obtain ⟨⟨q, run, list⟩, item⟩ := behind
  have after : PhaseAfter ts q.phase := parserRun parserStart run
  refine ⟨q, run, after, list.resolve_left fun begins => ?_⟩
  obtain ⟨t, member, kind⟩ := begins.last after
  exact kind.elim (item t member).1 (item t member).2

theorem argumentOpen {e callee : Expr} {waiting : List Waiting} {earlier : List Expr} {outer : Slot}
    (after : PhaseAfter ts (.connective e ⟨waiting, .argument callee earlier outer⟩)) :
    OpenList ts := by
  cases after with
  | connective around whole =>
    cases around with
    | mk outside operators =>
      have item := @reduceAllSound _ _ _ .nowhere _ operators whole
      cases outside with
      | argument _ function opening values =>
        cases values with
        | none => simpa using OpenList.arguments function opening (.one item)
        | some all separator =>
          simpa using OpenList.arguments function opening (.more all separator item)

theorem BehindItem.openList (behind : BehindItem ts) : OpenList ts := by
  obtain ⟨⟨phase, last⟩, _, after, ends⟩ := behind.ends
  change PhaseAfter ts phase at after
  cases ends with
  | connective => exact argumentOpen after
  | @alternative start test first =>
    cases after with
    | alternative around word opening condition closing consequence =>
      have whole : Derives _ (.expression .call (.conditional test first none .nowhere)) :=
        .conditional word opening condition closing consequence
      exact argumentOpen (around.connect (List.prefix_append [_] _) whole)
  | parameter =>
    cases after with
    | parameterEnd _ heading opening names => exact .parameters heading opening names

theorem ItemEnds.goesOn (ends : ItemEnds p.phase) (sign : comma.kind = .comma)
    (closing : t.kind = .rightParen) : ∃ q, p.read comma = .ok q ∧ q.read t = p.read t := by
  obtain ⟨phase, last⟩ := p
  have plain : Connective.ofKind? TokenKind.comma = none ∧
      Connective.ofKind? TokenKind.rightParen = none := ⟨rfl, rfl⟩
  change ItemEnds phase at ends
  cases ends with
  | @connective e waiting callee earlier outer =>
    refine ⟨⟨.argument callee (reduceAll last e waiting :: earlier) outer, comma.span⟩, ?_, ?_⟩
    · simp only [Parser.read, Phase.read, Slot.extend, sign, plain, Goal.receive, bind, Except.bind]
      rfl
    · simp only [Parser.read, Phase.read, Slot.extend, closing, plain, Goal.receive]
  | @alternative start test first waiting callee earlier outer =>
    refine ⟨⟨.argument callee (reduceAll last (.conditional test first none (start.extend last))
      waiting :: earlier) outer, comma.span⟩, ?_, ?_⟩
    · simp only [Parser.read, Phase.read, Slot.extend, sign, plain, Goal.receive, bind, Except.bind]
      rfl
    · simp only [Parser.read, Phase.read, Slot.extend, closing, plain, Goal.receive]
  | @parameter start own earlier outer =>
    refine ⟨⟨.parameter start own earlier outer, comma.span⟩, ?_, ?_⟩
    · simp only [Parser.read, Phase.read, sign, bind, Except.bind]
      rfl
    · simp only [Parser.read, Phase.read, closing]

theorem BehindItem.parse (behind : BehindItem ts) (sign : comma.kind = .comma)
    (closing : t.kind = .rightParen) (rest : List Token) :
    parse (ts ++ comma :: t :: rest) = parse (ts ++ t :: rest) := by
  obtain ⟨q, run, _, ends⟩ := behind.ends
  obtain ⟨r, read, same⟩ := ends.goesOn sign closing
  refine parseRun ?_
  rw [List.foldlM_append, List.foldlM_append, run]
  change (comma :: t :: rest).foldlM Parser.read q = (t :: rest).foldlM Parser.read q
  rw [List.foldlM_cons, read, List.foldlM_cons]
  change r.read t >>= _ = _
  rw [same]

end lists

/-- Semicolons may be repeated wherever they stand, and a comma may be put before the parenthesis
that ends a list of arguments or parameters, if there is an item and no comma behind the last one.
The result of parsing stays what it is, the spans in the tree or the fault included. -/
theorem redundantSigns :
    (∀ ts us, Repeats ts us → parse us = parse ts) ∧
    ∀ ts, BehindItem ts → OpenList ts ∧
      ∀ comma t rest, comma.kind = .comma → t.kind = .rightParen →
        parse (ts ++ comma :: t :: rest) = parse (ts ++ t :: rest) :=
  ⟨fun _ _ repeats => parseRun (repeats.run _),
    fun _ behind => ⟨behind.openList, fun _ _ rest sign closing => behind.parse sign closing rest⟩⟩

def oneParameter : List Token := [.at 0 .functionWord, .at 9 .leftParen, .at 10 .identifier]

def emptyBody : List Token :=
  [.at 12 .rightParen, .at 13 .leftBrace, .at 14 .semicolon, .at 15 .rightBrace]

theorem oneParameterComma :
    (parse (oneParameter ++ emptyBody)).isOk = true ∧
    parse (oneParameter ++ .at 11 .comma :: emptyBody) = parse (oneParameter ++ emptyBody) ∧
    parse (oneParameter ++ [.at 12 .rightParen, .at 13 .leftBrace, .at 14 .semicolon,
      .at 14 .semicolon, .at 15 .rightBrace]) = parse (oneParameter ++ emptyBody) := by
  have behind : BehindItem oneParameter :=
    ⟨⟨_, rfl, .inr .parameter⟩, by rintro t ⟨⟩; exact ⟨nofun, nofun⟩⟩
  have last : Repeats [Token.at 15 .rightBrace] [.at 15 .rightBrace] := .once .none
  have repeated := Repeats.again (t := .at 14 .semicolon) rfl (.once last)
  exact ⟨rfl, (redundantSigns.2 _ behind).2 (.at 11 .comma) _ _ rfl rfl,
    redundantSigns.1 _ _ (.once (.once (.once (.once (.once repeated)))))⟩

end Scriptlet

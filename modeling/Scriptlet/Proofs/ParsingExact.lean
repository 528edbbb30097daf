import Scriptlet.Proofs.GrammarSound

/-! Parsing accepts exactly what the grammar derives, with the tree it is derived with.
Trees are compared apart from their spans. What stands behind the first end of input counts for
nothing, and a list without one is taken to end where it ends. -/
namespace Scriptlet

theorem beforeEndCons (t : Token) (ts : List Token) :
    beforeEnd (t :: ts) = if t.kind = .endOfInput then [] else t :: beforeEnd ts := by
  by_cases kind : t.kind = .endOfInput <;> simp [beforeEnd, kind]

theorem beforeEndEndless {ts : List Token} (inside : Endless ts) (us : List Token) :
    beforeEnd (ts ++ us) = ts ++ beforeEnd us := by
  induction ts with
  | nil => rfl
  | cons t ts ih =>
    obtain ⟨kind, inside⟩ := endlessCons.mp inside
    rw [List.cons_append, beforeEndCons, if_neg kind, ih inside, List.cons_append]

theorem beforeEndStop {ts : List Token} {t : Token} (inside : Endless ts)
    (stop : t.kind = .endOfInput) (rest : List Token) : beforeEnd (ts ++ t :: rest) = ts := by
  rw [beforeEndEndless inside, beforeEndCons, if_pos stop, List.append_nil]

theorem beforeEndSplit (ts : List Token) {e : Token} (stop : e.kind = .endOfInput) :
    ∃ t rest, ts ++ [e] = beforeEnd ts ++ t :: rest ∧ t.kind = .endOfInput := by
  induction ts with
  | nil => exact ⟨e, [], rfl, stop⟩
  | cons v ts ih =>
    rw [beforeEndCons]
    split
    · rename_i kind
      exact ⟨v, ts ++ [e], rfl, kind⟩
    · obtain ⟨t, rest, split, last⟩ := ih
      exact ⟨t, rest, congrArg (v :: ·) split, last⟩

theorem beforeEndLast (ts : List Token) {e : Token} (stop : e.kind = .endOfInput) :
    beforeEnd (ts ++ [e]) = beforeEnd ts := by
  induction ts with
  | nil => rw [List.nil_append, beforeEndCons, if_pos stop]; rfl
  | cons t ts ih => rw [List.cons_append, beforeEndCons, beforeEndCons, ih]

theorem readLast {p q : Parser} {t : Token} (ok : p.read t = .ok q) : q.last = t.span := by
  simp only [Parser.read, bind, Except.bind] at ok
  split at ok <;> cases ok
  rfl

theorem parserRead {p q : Parser} {t : Token} (ok : p.read t = .ok q) :
    p.phase.read p.last t = .ok q.phase := by
  simp only [Parser.read, bind, Except.bind] at ok
  split at ok
  · cases ok
  · rename_i phase read
    cases ok
    exact read

theorem parserRun {p q : Parser} {ts us : List Token} (after : PhaseAfter ts p.phase)
    (ok : us.foldlM Parser.read p = .ok q) : PhaseAfter (ts ++ us) q.phase := by
  induction us generalizing p ts with
  | nil =>
    cases ok
    simpa using after
  | cons t us ih =>
    simp only [List.foldlM_cons, bind, Except.bind] at ok
    split at ok
    · cases ok
    · rename_i next read
      simpa using ih (readSound after (parserRead read)) ok

theorem parserStart : PhaseAfter [] Parser.ofProgram.phase :=
  .statement (.program (.none []))

theorem parseResult {ts : List Token} {p : Program} (ok : parse ts = .ok p) :
    ∃ q r, ts.foldlM Parser.read Parser.ofProgram = .ok q ∧
      q.read ⟨.endOfInput, q.last⟩ = .ok r ∧ r.phase = .program p.statements := by
  simp only [parse, Parser.finish, bind, Except.bind] at ok
  split at ok
  · cases ok
  · rename_i r finished
    split at finished
    · cases finished
    · rename_i q run
      split at ok
      · rename_i ss phase
        cases ok
        exact ⟨q, r, run, finished, phase⟩
      · cases ok

theorem parseSound {ts : List Token} {p : Program} (ok : parse ts = .ok p) :
    Derives (beforeEnd ts) (.statements p.statements) := by
  obtain ⟨q, r, run, last, phase⟩ := parseResult ok
  have after := readSound (parserRun parserStart run) (parserRead last)
  rw [List.nil_append, phase] at after
  rw [← @beforeEndLast ts ⟨.endOfInput, q.last⟩ rfl]
  generalize ts ++ [_] = tokens at after ⊢
  cases after with
  | program derives stop => rwa [beforeEndStop derives.endless stop]

theorem runBare (p : Parser) (ts : List Token) : feed p.phase.bare ts =
    bareResult ((ts.foldlM Parser.read p).map Parser.phase) := by
  induction ts generalizing p with
  | nil => rfl
  | cons t ts ih =>
    simp only [feed, List.foldlM_cons, Phase.readBare p.last, Parser.read, bind, Except.bind]
    cases read : p.phase.read p.last t with
    | error e => rfl
    | ok phase => exact ih ⟨phase, t.span⟩

theorem finishBare (p : Parser) (ts : List Token) : feed p.phase.bare (ts ++ [.endAt .start]) =
    bareResult ((p.finish ts).map Parser.phase) := by
  have run := runBare p ts
  simp only [feed] at run
  simp only [feed, List.foldlM_append, run, Parser.finish, bind, Except.bind]
  cases ts.foldlM Parser.read p with
  | error e => rfl
  | ok q =>
    have last := Phase.readBare q.last q.phase ⟨.endOfInput, q.last⟩
    simp only [Except.map, bareResult, List.foldlM_cons, List.foldlM_nil, Parser.read, bind,
      Except.bind]
    rw [show (Token.endAt .start).bare = Token.bare ⟨.endOfInput, q.last⟩ from rfl, last]
    cases q.phase.read q.last ⟨.endOfInput, q.last⟩ <;> rfl

theorem feedProgram (ss : List Stmt) (ts : List Token) :
    feed (.program ss) ts = .ok (.program ss) := by
  induction ts with
  | nil => rfl
  | cons t ts ih => exact ih

theorem parseFed (ts : List Token) (p : Program) : (∃ q, parse ts = .ok q ∧ q.bare = p.bare) ↔
    feed (.statement (.program [])) (ts ++ [.endAt .start]) =
      .ok (.program (p.statements.map Stmt.bare)) := by
  have start : Parser.ofProgram.phase.bare = .statement (.program []) := rfl
  rw [← start, finishBare]
  simp only [parse, bind, Except.bind]
  cases Parser.ofProgram.finish ts with
  | error e => simp [Except.map, bareResult]
  | ok r =>
    cases phase : r.phase <;>
      simp [phase, Except.map, bareResult, Phase.bare, Program.bare, pure, Except.pure]

theorem feedLexemes {ts us : List Token} (same : ts.map Token.toLexeme = us.map Token.toLexeme)
    (phase : Phase) : feed phase ts = feed phase us := by
  have bare (ts : List Token) : feed phase ts = (ts.map Token.toLexeme).foldlM
      (fun phase l => phase.read .nowhere ⟨l, .nowhere⟩) phase := by
    rw [List.foldlM_map]
    rfl
  rw [bare, bare, same]

theorem parseLexemes {ts us : List Token} {p : Program}
    (same : ts.map Token.toLexeme = us.map Token.toLexeme)
    (ok : ∃ q, parse us = .ok q ∧ q.bare = p.bare) : ∃ q, parse ts = .ok q ∧ q.bare = p.bare := by
  have ends : (ts ++ [Token.endAt .start]).map Token.toLexeme =
      (us ++ [Token.endAt .start]).map Token.toLexeme := by
    rw [List.map_append, List.map_append, same]
  rw [parseFed] at ok ⊢
  rw [feedLexemes ends, ok]

theorem parseComplete {ts : List Token} {p : Program}
    (derives : Derives (beforeEnd ts) (.statements p.statements)) :
    ∃ q, parse ts = .ok q ∧ q.bare = p.bare := by
  obtain ⟨phase, read, ends⟩ := derives.readsAs (.program [])
  obtain ⟨t, rest, split, stop⟩ := beforeEndSplit ts (rfl : (Token.endAt .start).kind = .endOfInput)
  have last : phase.read .nowhere t.bare = .ok (.program (p.statements.map Stmt.bare)) := by
    rw [ends t (.inr stop), addAllProgram]
    simp [Body.read, Token.bare, stop]
  rw [parseFed, split, feedThrough read, feedStep last, feedProgram]

theorem parseDerived (ts : List Token) (p : Program) :
    (∃ q, parse ts = .ok q ∧ q.bare = p.bare) ↔ Derived (beforeEnd ts) p := by
  constructor
  · rintro ⟨q, ok, same⟩
    exact ⟨q, parseSound ok, same⟩
  · rintro ⟨q, derives, same⟩
    obtain ⟨r, ok, read⟩ := parseComplete derives
    exact ⟨r, ok, read.trans same⟩

theorem derivedOnce {ts : List Token} {p q : Program} (one : Derived ts p) (other : Derived ts q) :
    p.bare = q.bare := by
  obtain ⟨_, derives, _⟩ := id one
  have before : beforeEnd ts = ts := by
    simpa [beforeEnd] using beforeEndEndless derives.endless []
  obtain ⟨p', ok, same⟩ := (parseDerived ts p).mpr (before.symm ▸ one)
  obtain ⟨q', ok', same'⟩ := (parseDerived ts q).mpr (before.symm ▸ other)
  obtain rfl : p' = q' := Except.ok.inj (ok.symm.trans ok')
  exact same.symm.trans same'

/-- Exactly the derived lists are read, each as the one tree it is derived with. -/
theorem parsesExactlyGrammar :
    (∀ ts p, (∃ q, parse ts = .ok q ∧ q.bare = p.bare) ↔ Derived (beforeEnd ts) p) ∧
      ∀ ts p q, Derived ts p → Derived ts q → p.bare = q.bare :=
  ⟨parseDerived, fun _ _ _ => derivedOnce⟩

def nameToken (text : String) : Token := ⟨⟨.identifier, text⟩, .nowhere⟩

def nameExpr (text : String) : Expr := .name ⟨text, .nowhere⟩

def subtraction (left right : Expr) : Expr := .binary .subtract left right .nowhere

def differences : List Token :=
  [nameToken "a", ⟨⟨.minus, "-"⟩, .nowhere⟩, nameToken "b", ⟨⟨.minus, "-"⟩, .nowhere⟩,
   nameToken "c"]

def groupedLeft : Program :=
  ⟨[.expression (subtraction (subtraction (nameExpr "a") (nameExpr "b")) (nameExpr "c")) .nowhere]⟩

def groupedRight : Program :=
  ⟨[.expression (subtraction (nameExpr "a") (subtraction (nameExpr "b") (nameExpr "c"))) .nowhere]⟩

theorem differencesGroupLeft : Derived differences groupedLeft ∧
    ¬ Derived differences groupedRight := by
  have left : Derived differences groupedLeft :=
    (parsesExactlyGrammar.1 differences groupedLeft).mp ⟨groupedLeft, rfl, rfl⟩
  refine ⟨left, fun right => ?_⟩
  have same := parsesExactlyGrammar.2 _ _ _ left right
  simp [groupedLeft, groupedRight, Program.bare, Stmt.bare, Expr.bare, subtraction, nameExpr] at same

end Scriptlet

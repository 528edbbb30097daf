import Scriptlet.Proofs.JoinedTexts
import Scriptlet.Proofs.Printing
import Scriptlet.Proofs.Renaming
import Scriptlet.Proofs.Sessions

/-! Calls as texts.
A name that is called and names that are given to it, set with parentheses and commas, are read as
a call of the one with the others. The signs that touch a name end it, for no name goes across
them. -/
namespace Scriptlet

def callText (f : String) (names : List String) : String :=
  f ++ "(" ++ ", ".intercalate names ++ ")"

def ReadAs (cs : List Char) (ls : List Lexeme) : Prop :=
  ∀ p, ∃ ts, Lexes p cs (.ok ts) ∧ ts.map Token.toLexeme = ls ++ [.endOfInput]

section reading

variable {rest : List Char} {ls : List Lexeme} {found : Lexeme} {c : Char} {text : String}
  {kind : TokenKind} {p : Position} {ts : List Token}

theorem Longest.lexes (longest : Longest found rest)
    (code : ¬ ['/', '/'] <+: found.sourceText.toList ++ rest)
    (later : Lexes (p.afterAll found.sourceText.toList) rest (.ok ts)) :
    Lexes p (found.sourceText.toList ++ rest)
      (.ok (⟨found, ⟨p, p.afterAll found.sourceText.toList⟩⟩ :: ts)) :=
  .token (r := .ok ts) .none rfl code longest rfl later

theorem signLexes (sign : sign? c = some kind) (alone : rest.head?.bind (pairSign? c) = none)
    (code : c ≠ '/') (later : Lexes (p.after c) rest (.ok ts)) :
    Lexes p (c :: rest) (.ok (⟨⟨kind, .ofList [c]⟩, ⟨p, p.after c⟩⟩ :: ts)) := by
  have text : (Lexeme.mk kind (.ofList [c])).sourceText.toList = [c] := by
    rw [spelledPlain (signSpelling sign), String.toList_ofList]
  have plain : ¬ ['/', '/'] <+: c :: rest := fun slashes =>
    code (List.cons_prefix_cons.mp slashes).1.symm
  have lexes := (longestSingle sign alone).lexes (p := p) (by rwa [text]) (by rwa [text])
  rwa [text] at lexes

theorem readAsEnd : ReadAs [] [] := fun _ => ⟨_, .ended .none, rfl⟩

theorem ReadAs.blank (later : ReadAs rest ls) : ReadAs (' ' :: rest) ls := by
  intro p
  obtain ⟨ts, lexes, same⟩ := later (p.afterAll [' '])
  exact ⟨ts, lexes.afterGap (.blank (.inl rfl) .none), same⟩

theorem ReadAs.behind (longest : Longest found rest)
    (code : ¬ ['/', '/'] <+: found.sourceText.toList ++ rest) (later : ReadAs rest ls) :
    ReadAs (found.sourceText.toList ++ rest) (found :: ls) := by
  intro p
  obtain ⟨ts, lexes, same⟩ := later (p.afterAll found.sourceText.toList)
  exact ⟨_, longest.lexes code lexes, congrArg (found :: ·) same⟩

theorem ReadAs.sign (kind : TokenKind) (sign : sign? c = some kind)
    (alone : ∀ d, pairSign? c d = none) (code : c ≠ '/') (later : ReadAs rest ls) :
    ReadAs (c :: rest) (⟨kind, .ofList [c]⟩ :: ls) := by
  intro p
  obtain ⟨ts, lexes, same⟩ := later (p.after c)
  have single : rest.head?.bind (pairSign? c) = none := by
    cases rest with
    | nil => rfl
    | cons d _ => exact alone d
  exact ⟨_, signLexes sign single code lexes, congrArg (Lexeme.mk kind (.ofList [c]) :: ·) same⟩

theorem nameSplit (name : IsName text) :
    ∃ c cs, text.toList = c :: cs ∧ isWordStart c := by
  rw [IsName] at name
  generalize text.toList = cs at name
  cases name with
  | spelled spelling => cases spelling
  | name first => exact ⟨_, _, rfl, nameStartIs.mpr first⟩

theorem longestName (name : IsName text) (ends : ∀ d ∈ rest.head?, ¬ isWordPart d) :
    Longest ⟨.identifier, text⟩ rest := by
  refine ⟨name, fun kind longer other within => ?_⟩
  change longer <+: text.toList ++ rest at within
  change longer.length ≤ text.toList.length
  obtain ⟨c, cs, split, first⟩ := nameSplit name
  rw [split] at within ⊢
  obtain ⟨ds, rfl, shape, tail⟩ := prefixShape other within
  refine Nat.succ_le_succ ?_
  cases rest with
  | nil => simpa using tail.length_le
  | cons d rest =>
    have stop : d ∉ ds := fun member => ends d rfl (shape.ofWord first d member)
    exact (prefixBefore tail stop).length_le

theorem ReadAs.name (name : IsName text) (ends : ∀ d ∈ rest.head?, ¬ isWordPart d)
    (later : ReadAs rest ls) : ReadAs (text.toList ++ rest) (⟨.identifier, text⟩ :: ls) := by
  refine later.behind (longestName name ends) fun slashes => ?_
  obtain ⟨c, cs, split, first⟩ := nameSplit name
  change ['/', '/'] <+: text.toList ++ rest at slashes
  rw [split] at slashes
  obtain ⟨rfl, _⟩ := List.cons_prefix_cons.mp slashes
  exact absurd first (by decide)

theorem namesEnd (names : List String) (ends : ∀ d ∈ rest.head?, ¬ isWordPart d) :
    ∀ d ∈ (names.flatMap (fun a => ',' :: ' ' :: a.toList) ++ rest).head?, ¬ isWordPart d := by
  cases names with
  | nil => exact ends
  | cons =>
    rintro d ⟨⟩
    decide

theorem ReadAs.names {names : List String} (all : ∀ a ∈ names, IsName a)
    (ends : ∀ d ∈ rest.head?, ¬ isWordPart d) (later : ReadAs rest ls) :
    ReadAs (names.flatMap (fun a => ',' :: ' ' :: a.toList) ++ rest)
      (names.flatMap (fun a => [⟨.comma, ","⟩, ⟨.identifier, a⟩]) ++ ls) := by
  induction names with
  | nil => exact later
  | cons a names ih =>
    obtain ⟨here, others⟩ := List.forall_mem_cons.mp all
    simp only [List.flatMap_cons, List.cons_append, List.nil_append, List.append_assoc]
    have argument := (ih others).name here (namesEnd names ends)
    exact .sign .comma rfl (fun _ => rfl) (by decide) argument.blank

end reading

theorem intercalateNames (a : String) (names : List String) :
    (", ".intercalate (a :: names)).toList =
      a.toList ++ names.flatMap fun b => ',' :: ' ' :: b.toList := by
  induction names generalizing a with
  | nil => simp
  | cons b names ih =>
    rw [String.intercalate_cons_cons, String.toList_append, String.toList_append, ih]
    simp

section calls

variable {f : String} {names : List String}

def callOf (f : String) (names : List String) : Expr :=
  .call (.name ⟨f, .nowhere⟩) (names.map fun a => .name ⟨a, .nowhere⟩) .nowhere

theorem callLexemes (f : String) (names : List String) :
    (callOf f names).tokens.map Token.toLexeme = ⟨.identifier, f⟩ :: ⟨.leftParen, "("⟩ ::
      ((separated (names.map fun a => [Ident.token ⟨a, .nowhere⟩])).map Token.toLexeme ++
        [⟨.rightParen, ")"⟩]) := by
  have plain (ts : List Token) :
      groupedIf ((Expr.name ⟨f, .nowhere⟩).level.rank < Precedence.call.rank) ts = ts :=
    if_neg (Nat.lt_irrefl _)
  simp only [callOf, Expr.tokens, plain, exprsTokensMap, List.map_map, List.map_append,
    List.map_cons, List.map_nil]
  rfl

theorem callReadAs (name : IsName f) (all : ∀ a ∈ names, IsName a) :
    ReadAs (callText f names).toList ((callOf f names).tokens.map Token.toLexeme) := by
  have closing : ReadAs [')'] [⟨.rightParen, ")"⟩] :=
    .sign .rightParen rfl (fun _ => rfl) (by decide) readAsEnd
  have parenthesis : ∀ d ∈ [')'].head?, ¬ isWordPart d := by
    rintro d ⟨⟩
    decide
  have inner : ReadAs ((", ".intercalate names).toList ++ [')'])
      ((separated (names.map fun a => [Ident.token ⟨a, .nowhere⟩])).map Token.toLexeme ++
        [⟨.rightParen, ")"⟩]) := by
    cases names with
    | nil => exact closing
    | cons a names =>
      obtain ⟨here, others⟩ := List.forall_mem_cons.mp all
      have later := ReadAs.names others parenthesis closing
      rw [intercalateNames, List.append_assoc]
      simp only [separated, List.map_cons, List.flatMap_map, List.map_append, List.map_flatMap]
      exact later.name here (namesEnd names parenthesis)
  rw [callLexemes]
  have opened := ReadAs.sign (c := '(') .leftParen rfl (fun _ => rfl) (by decide) inner
  have whole := opened.name name fun d head => by
    cases head
    decide
  simpa [callText] using whole

theorem callDerives (name : IsName f) (all : ∀ a ∈ names, IsName a) :
    Derives (callOf f names).tokens (.statements [.expression (callOf f names) .nowhere]) := by
  have leaf {a} (name : IsName a) : (Node.expr (.name ⟨a, .nowhere⟩)).Legal := .mk name nofun
  have legal : (Node.expr (callOf f names)).Legal := by
    refine .mk trivial (List.forall_mem_cons.mpr ⟨leaf name, ?_⟩)
    simp only [List.map_map, List.forall_mem_map]
    exact fun a member => leaf (all a member)
  have derives : Derives (callOf f names).tokens (.expression .call (callOf f names)) :=
    legal.derivable
  have statement : Derives (callOf f names).tokens
      (.statement (.expression (callOf f names) .nowhere)) :=
    .expressionStatement (loosen (Nat.zero_le _) derives)
  have whole := Derives.followed statement .noStatements nofun
  rwa [List.append_nil] at whole

theorem callTextReads (name : IsName f) (all : ∀ a ∈ names, IsName a) :
    ∃ p, readProgram (callText f names) = .ok p ∧
      p.bare = (Program.mk [.expression (callOf f names) .nowhere]).bare := by
  obtain ⟨ts, lexes, same⟩ := callReadAs name all .start
  have derives := callDerives name all
  have whole := beforeEndStop derives.endless (rfl : (Token.endAt .start).kind = _) []
  have alike : ts.map Token.toLexeme =
      ((callOf f names).tokens ++ [Token.endAt .start]).map Token.toLexeme := by
    rw [same, List.map_append]
    rfl
  obtain ⟨p, ok, read⟩ := parseLexemes alike (parseComplete (whole.symm ▸ derives))
  exact ⟨p, readProgramTokens.mpr ⟨ts, lexes.tokens, ok⟩, read⟩

theorem bareName {e : Expr} {ident : Ident} (same : e.bare = .name ident) :
    ∃ own, e = .name own ∧ own.text = ident.text := by
  cases e with
  | name own =>
    cases same
    exact ⟨own, rfl, rfl⟩
  | conditional _ _ second => cases second <;> cases same
  | _ => cases same

theorem bareCall {e callee : Expr} {es : List Expr} {span : Span}
    (same : e.bare = .call callee es span) :
    ∃ own owns inner, e = .call own owns inner ∧ own.bare = callee ∧ owns.map Expr.bare = es := by
  cases e with
  | call own owns inner =>
    cases same
    exact ⟨own, owns, inner, rfl, rfl, (bareExprsMap owns).symm⟩
  | conditional _ _ second => cases second <;> cases same
  | _ => cases same

theorem bareStatement {t : Stmt} {e : Expr} {span : Span} (same : t.bare = .expression e span) :
    ∃ own outer, t = .expression own outer ∧ own.bare = e := by
  cases t with
  | expression own outer =>
    cases same
    exact ⟨own, outer, rfl, rfl⟩
  | returning value => cases value <;> cases same
  | _ => cases same

theorem bareNames {es : List Expr}
    (same : es.map Expr.bare = (names.map fun a => .name ⟨a, .nowhere⟩)) :
    ∃ owns : List Ident, es = owns.map .name ∧ owns.map Ident.text = names := by
  induction names generalizing es with
  | nil => exact ⟨[], List.map_eq_nil_iff.mp same, rfl⟩
  | cons a names ih =>
    obtain ⟨e, es, rfl, here, later⟩ := List.map_eq_cons_iff.mp same
    obtain ⟨own, rfl, text⟩ := bareName here
    obtain ⟨owns, rfl, texts⟩ := ih later
    exact ⟨own :: owns, rfl, by rw [List.map_cons, text, texts]⟩

theorem callTextProgram (name : IsName f) (all : ∀ a ∈ names, IsName a) :
    ∃ (own : Ident) (owns : List Ident) (inner outer : Span),
      own.text = f ∧ owns.map Ident.text = names ∧ readProgram (callText f names) =
        .ok ⟨[.expression (.call (.name own) (owns.map .name) inner) outer]⟩ := by
  obtain ⟨⟨ss⟩, read, same⟩ := callTextReads name all
  have bare : (callOf f names).bare = callOf f names := by simp [callOf, Expr.bare, Ident.bare]
  have statements : ss.map Stmt.bare = [.expression (callOf f names) .nowhere] := by
    simpa [Program.bare, Stmt.bare, bare] using same
  obtain ⟨t, rfl, statement⟩ := List.map_eq_singleton_iff.mp statements
  obtain ⟨e, outer, rfl, expression⟩ := bareStatement statement
  obtain ⟨callee, es, inner, rfl, function, arguments⟩ := bareCall expression
  obtain ⟨own, rfl, text⟩ := bareName function
  obtain ⟨owns, rfl, texts⟩ := bareNames arguments
  exact ⟨own, owns, inner, outer, text, texts, read⟩

end calls

end Scriptlet

import Scriptlet.Proofs.Separation

/-! What is printed is read back as the tree it was printed from.
Tokens are printed apart, so reading the text gives them again, now at their places; and places count
for nothing in the tree. -/
namespace Scriptlet

theorem spacedWritten (ls : List Lexeme) : Written ls (spaced (ls.map Lexeme.sourceText)).toList := by
  induction ls with
  | nil => exact .none
  | cons l ls ih =>
    cases ls with
    | nil => exact .last l
    | cons m ls =>
      simp only [spaced, List.map_cons] at ih ⊢
      rw [String.intercalate_cons_cons, String.toList_append, String.toList_append,
        List.append_assoc]
      exact .more (.mk (.inl rfl) .none) ih

theorem spacedTokens {ts : List Token} (readable : Readable ts) :
    ∃ us, tokenize (spaced (ts.map fun t => t.sourceText)) = .ok us ∧
      us.map Token.toLexeme = ts.map Token.toLexeme ++ [.endOfInput] := by
  have written := spacedWritten (ts.map Token.toLexeme)
  rw [List.map_map] at written
  exact writtenTokens written (List.forall_mem_map.mpr readable)

/-- Printing loses nothing but spans: tokenizing and parsing what a legal tree prints gives back
that tree. -/
theorem printedReadsBack {p : Program} (legal : p.Legal) :
    ∃ ts q, tokenize p.print = .ok ts ∧ parse ts = .ok q ∧ q.bare = p.bare := by
  have readable : Readable (stmtsTokens p.statements) :=
    readableStmts fun s member => (legal s member).readable
  have derives : Derives (stmtsTokens p.statements) (.statements p.statements) :=
    stmtsDerive fun s member => (legal s member).derivable
  obtain ⟨ts, tokens, same⟩ := spacedTokens readable
  have whole : beforeEnd (stmtsTokens p.statements ++ [.endAt .start]) =
      stmtsTokens p.statements := beforeEndStop derives.endless rfl []
  have alike : ts.map Token.toLexeme =
      (stmtsTokens p.statements ++ [Token.endAt .start]).map Token.toLexeme := by
    rw [same, List.map_append]
    rfl
  obtain ⟨q, ok, read⟩ := parseLexemes alike (parseComplete (whole.symm ▸ derives))
  exact ⟨ts, q, tokens, ok, read⟩

def integerExpr (value : Int) : Expr := .integer value .nowhere

def negatedCall : Program :=
  let argument := subtraction (integerExpr 2) (subtraction (nameExpr "n") (integerExpr 3))
  ⟨[.expression (.call (.unary .negate (nameExpr "n") .nowhere) [argument] .nowhere) .nowhere]⟩

example : negatedCall.print = "( - n ) ( 2 - ( n - 3 ) ) ;" := by decide

theorem negatedCallReadsBack : negatedCall.Legal ∧
    ∃ ts q, tokenize negatedCall.print = .ok ts ∧ parse ts = .ok q ∧ q.bare = negatedCall.bare := by
  have leaf {n : Node} (own : n.Writable) (single : n.children = []) : n.Legal :=
    .mk own (by simp [single])
  have both {left right : Expr} (first : (Node.expr left).Legal)
      (second : (Node.expr right).Legal) : (Node.expr (subtraction left right)).Legal :=
    .mk trivial (by simp [subtraction, Node.children, first, second])
  have word : Lexical .identifier "n".toList :=
    wordLexical (show "n".toList = 'n' :: [] by decide) rfl (List.all_eq_true.mp rfl)
  have name : (Node.expr (nameExpr "n")).Legal := leaf word rfl
  have two : (Node.expr (integerExpr 2)).Legal := leaf ⟨by decide, by decide⟩ rfl
  have three : (Node.expr (integerExpr 3)).Legal := leaf ⟨by decide, by decide⟩ rfl
  have callee : (Node.expr (.unary .negate (nameExpr "n") .nowhere)).Legal :=
    .mk trivial (by simp [Node.children, name])
  have legal : negatedCall.Legal := by
    intro s member
    obtain rfl := List.mem_singleton.mp member
    refine .mk trivial (List.forall_mem_singleton.mpr (.mk trivial ?_))
    simp [Node.children, callee, both two (both name three)]
  exact ⟨legal, printedReadsBack legal⟩

end Scriptlet

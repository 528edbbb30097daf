import Scriptlet.Proofs.JoinedTexts
import Scriptlet.Proofs.Legality

/-! Tokens that are written apart are read again.
What stands between them begins with a blank, which no lexeme but a string goes across; so each one
ends where it was written to end, whatever it could be read as together with its neighbour. A comment
in between is closed by its line feed, and nothing that it holds is read. -/
namespace Scriptlet

inductive Filler : List Char → Prop where
  | none : Filler []
  | blank {c cs} (kind : Blank c) (later : Filler cs) : Filler (c :: cs)
  | comment {body cs} (line : '\n' ∉ body) (later : Filler cs) :
      Filler ('/' :: '/' :: (body ++ '\n' :: cs))

inductive Separator : List Char → Prop where
  | mk {c cs} (kind : Blank c) (later : Filler cs) : Separator (c :: cs)

/- Lexemes with a separator behind each, which the last one may go without. -/
inductive Written : List Lexeme → List Char → Prop where
  | none : Written [] []
  | last (l : Lexeme) : Written [l] l.sourceText.toList
  | more {l ls separator rest} (apart : Separator separator) (later : Written ls rest) :
      Written (l :: ls) (l.sourceText.toList ++ (separator ++ rest))

section separators

variable {cs rest : List Char}

theorem Filler.gap (filler : Filler cs) : Gap cs rest := by
  induction filler with
  | none => exact .none
  | blank kind _ ih => exact .blank kind ih
  | comment line _ ih =>
    exact .comment line (fun c head => (Option.some.inj head).symm) (.blank newlineBlank ih)

theorem Separator.gap (separator : Separator cs) : Gap cs rest := by
  cases separator with
  | mk kind later => exact .blank kind later.gap

theorem Lexical.noComment {kind : TokenKind} {text : List Char} (lexical : Lexical kind text) :
    ¬ ['/', '/'] <+: text := by
  intro slashes
  obtain ⟨c, cs, rfl, shape⟩ := lexicalShape lexical
  obtain ⟨rfl, tail⟩ := List.cons_prefix_cons.mp slashes
  rcases shape.ofSign (.inl rfl) with rfl | ⟨d, rfl, double⟩
  · cases List.prefix_nil.mp tail
  · cases double

end separators

section writing

variable {ls : List Lexeme} {cs : List Char} {source : String} {ts : List Token}

theorem Written.lexes (written : Written ls cs)
    (lexical : ∀ l ∈ ls, Lexical l.kind l.sourceText.toList) (p : Position) :
    ∃ ts, Lexes p cs (.ok ts) ∧ ts.map Token.toLexeme = ls ++ [.endOfInput] := by
  induction written generalizing p with
  | none => exact ⟨_, .ended .none, rfl⟩
  | last l =>
    have own := lexical l (by simp)
    have single : Lexes p ([] ++ (l.sourceText.toList ++ [])) (.ok [⟨l, _⟩, .endAt _]) :=
      .token (r := .ok [_]) .none rfl (by simpa using own.noComment) own.longest rfl (.ended .none)
    rw [List.nil_append, List.append_nil] at single
    exact ⟨_, single, rfl⟩
  | @more l ls separator rest apart _ ih =>
    obtain ⟨own, others⟩ := List.forall_mem_cons.mp lexical
    obtain ⟨ts, later, same⟩ := ih others ((p.afterAll l.sourceText.toList).afterAll separator)
    have behind := later.afterGap apart.gap
    cases apart with
    | mk blank =>
      exact ⟨_, .token .none rfl (codeBeforeBlank own.noComment blank)
        (own.longest.beforeBlank blank _) rfl behind, congrArg (l :: ·) same⟩

theorem writtenTokens (written : Written ls source.toList)
    (lexical : ∀ l ∈ ls, Lexical l.kind l.sourceText.toList) :
    ∃ ts, tokenize source = .ok ts ∧ ts.map Token.toLexeme = ls ++ [.endOfInput] := by
  obtain ⟨ts, lexes, same⟩ := written.lexes lexical .start
  exact ⟨ts, lexes.tokens, same⟩

theorem tokensLexemes (ok : tokenize source = .ok ts) :
    ts.map Token.toLexeme = (beforeEnd ts).map Token.toLexeme ++ [.endOfInput] := by
  obtain ⟨inner, rfl, inside⟩ := (tokenizeLexes ok).laid.ends
  rw [beforeEndStop inside rfl, List.map_append]
  rfl

end writing

/-- Lexemes that are written apart are read again, and then the end of input. So the tokens of a
text are read again from every way to write them apart. -/
theorem writtenReadsBack (source again : String) :
    (∀ ls : List Lexeme, (∀ l ∈ ls, Lexical l.kind l.sourceText.toList) →
      Written ls source.toList →
      ∃ ts, tokenize source = .ok ts ∧ ts.map Token.toLexeme = ls ++ [.endOfInput]) ∧
    ∀ ts, tokenize source = .ok ts → Written ((beforeEnd ts).map Token.toLexeme) again.toList →
      ∃ us, tokenize again = .ok us ∧ us.map Token.toLexeme = ts.map Token.toLexeme := by
  constructor
  · intro ls lexical written
    exact writtenTokens written lexical
  · intro ts ok written
    have lexical : ∀ l ∈ (beforeEnd ts).map Token.toLexeme, Lexical l.kind l.sourceText.toList :=
      List.forall_mem_map.mpr ((tokenizeLexes ok).readable rfl)
    rw [tokensLexemes ok]
    exact writtenTokens written lexical

def crowded : List Lexeme :=
  [⟨.slash, "/"⟩, ⟨.slash, "/"⟩, ⟨.equal, "="⟩, ⟨.equal, "="⟩, ⟨.string, "a\nb"⟩]

def crowdedLine : String := "/ // \"&é\n/\t=\r= \"a\nb\""

def crowdedLines : String := "/\n/\n=\n=\n//?\n\t\"a\nb\"\n"

theorem crowdedReadsBack : ∃ ts us,
    Written crowded crowdedLine.toList ∧ tokenize crowdedLine = .ok ts ∧
      ts.map Token.toLexeme = crowded ++ [.endOfInput] ∧
      Written ((beforeEnd ts).map Token.toLexeme) crowdedLines.toList ∧
      tokenize crowdedLines = .ok us ∧ us.map Token.toLexeme = crowded ++ [.endOfInput] := by
  have space : Blank ' ' := .inl rfl
  have tab : Blank '\t' := .inr (.inl rfl)
  have carriage : Blank '\r' := .inr (.inr (.inr rfl))
  have written : Written crowded crowdedLine.toList := by
    have line : '\n' ∉ " \"&é".toList := by decide
    have comment : Separator " // \"&é\n".toList := .mk space (.comment line .none)
    exact .more comment (.more (.mk tab .none) (.more (.mk carriage .none)
      (.more (.mk space .none) (.last _))))
  have rewritten : Written crowded crowdedLines.toList := by
    have single : Separator ['\n'] := .mk newlineBlank .none
    have line : '\n' ∉ "?".toList := by decide
    have comment : Separator "\n//?\n\t".toList :=
      .mk newlineBlank (.comment line (.blank tab .none))
    exact .more single (.more single (.more single (.more comment (.more single .none))))
  have lexical : ∀ l ∈ crowded, Lexical l.kind l.sourceText.toList := by
    intro l member
    simp only [crowded, List.mem_cons, List.not_mem_nil, or_false] at member
    rcases member with rfl | rfl | rfl | rfl | rfl
    iterate 4 exact .spelled rfl
    have inner : '"' ∉ "a\nb".toList := by decide
    exact .string inner
  obtain ⟨ts, tokens, same⟩ := (writtenReadsBack crowdedLine crowdedLines).1 crowded lexical written
  have inner : (beforeEnd ts).map Token.toLexeme = crowded :=
    List.append_cancel_right ((tokensLexemes tokens).symm.trans same)
  rw [← inner] at rewritten
  obtain ⟨us, again, alike⟩ := (writtenReadsBack crowdedLine crowdedLines).2 ts tokens rewritten
  exact ⟨ts, us, written, tokens, same, rewritten, again, alike.trans same⟩

end Scriptlet

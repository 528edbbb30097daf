import Scriptlet.Proofs.LexicalExact
import Scriptlet.Proofs.ParsingExact
import Scriptlet.Proofs.Printing
import Scriptlet.Proofs.Sessions

/-! Programs that are read hold only what can be written.
Lexemes are what the lexical grammar has them be, and the grammar puts their texts into the tree as
they are: names are identifiers, strings hold no quote, and integers are those of digits. -/
namespace Scriptlet

open Phrase

@[simp] def Phrase.Legal : Phrase → Prop
  | expression _ e => (Node.expr e).Legal
  | sequence es | arguments es => ∀ e ∈ es, (Node.expr e).Legal
  | block b => (Node.block b).Legal
  | statement s => (Node.stmt s).Legal
  | statements ss => ∀ s ∈ ss, (Node.stmt s).Legal

section tokens

variable {t : Token} {ts us : List Token}

@[simp] theorem readableCons :
    Readable (t :: ts) ↔ Lexical t.kind t.sourceText.toList ∧ Readable ts :=
  List.forall_mem_cons

@[simp] theorem readableAppend : Readable (ts ++ us) ↔ Readable ts ∧ Readable us :=
  List.forall_mem_append

theorem identifierText (lexical : Lexical t.kind t.sourceText.toList)
    (kind : t.kind = .identifier) : Lexical .identifier t.text.toList := by
  simpa [Lexeme.sourceText, kind] using lexical

theorem stringInner (lexical : Lexical t.kind t.sourceText.toList) (kind : t.kind = .string) :
    '"' ∉ t.text.toList := by
  have text := stringText t.text.toList
  rw [String.ofList_toList, show (⟨.string, t.text⟩ : Lexeme) = t.toLexeme from kind ▸ rfl] at text
  rw [text, kind] at lexical
  generalize whole : '"' :: (t.text.toList ++ ['"']) = cs at lexical
  cases lexical with
  | spelled spelling => cases spelling
  | string inner => exact List.append_cancel_right (List.cons.inj whole).2 ▸ inner

theorem checkedRange {m n : Int} (range : checked? m = some n) :
    m = n ∧ n ≤ 9223372036854775807 := by
  simp only [checked?, fits, Option.ite_none_right_eq_some, Option.some.injEq, Bool.and_eq_true,
    decide_eq_true_eq] at range
  exact ⟨range.2, range.2 ▸ range.1.2⟩

theorem integerRange {n : Int} (lexical : Lexical t.kind t.sourceText.toList)
    (kind : t.kind = .integer) (value : readInteger? t.text = some n) :
    0 ≤ n ∧ n ≤ 9223372036854775807 := by
  have text : t.sourceText = t.text := by simp [Lexeme.sourceText, kind]
  rw [text, kind] at lexical
  obtain ⟨some, digits⟩ : t.text.toList ≠ [] ∧ ∀ d ∈ t.text.toList, d.isDigit := by
    generalize t.text.toList = cs at lexical
    cases lexical with
    | spelled spelling => cases spelling
    | integer digits =>
      exact ⟨List.cons_ne_nil _ _, fun d member => digitIs.mpr (digits d member)⟩
  rw [← String.ofList_toList (s := t.text), readDigits some digits] at value
  obtain ⟨rfl, most⟩ := checkedRange value
  exact ⟨Int.natCast_nonneg _, most⟩

theorem Lexes.readable {p : Position} {cs : List Char} {r : Except LexError (List Token)}
    (lexes : Lexes p cs r) (ok : r = .ok ts) : Readable (beforeEnd ts) := by
  induction lexes generalizing ts with
  | ended => cases ok; exact .nil
  | unterminated | unrecognized => cases ok
  | @token _ _ _ _ _ _ r _ _ _ longest _ _ ih =>
    cases r with
    | error e => cases ok
    | ok us =>
      cases ok
      rw [beforeEndCons, if_neg longest.lexical.inside]
      exact .cons longest.lexical (ih rfl)

end tokens

section derivations

variable {ts : List Token} {phrase : Phrase}

theorem Node.Legal.leaf {n : Node} (own : n.Writable) (single : n.children = []) : n.Legal :=
  .mk own (by simp [single])

theorem Names.legal {names : List Ident} (all : Names ts names) (readable : Readable ts) :
    ∀ i ∈ names, (Node.parameter i).Legal := by
  have legal {t : Token} {span : Span} (lexical : Lexical t.kind t.sourceText.toList)
      (kind : t.kind = .identifier) : (Node.parameter ⟨t.text, span⟩).Legal :=
    .leaf (identifierText lexical kind) rfl
  induction all with
  | one name =>
    simp only [readableCons] at readable
    simpa using legal readable.1 name
  | more _ _ name ih =>
    simp only [readableAppend, readableCons] at readable
    obtain ⟨earlier, _, last, _⟩ := readable
    exact List.forall_mem_append.mpr
      ⟨ih earlier, List.forall_mem_singleton.mpr (legal last name)⟩

theorem Parameters.legal {names : List Ident} (all : Parameters ts names)
    (readable : Readable ts) : ∀ i ∈ names, (Node.parameter i).Legal := by
  cases all with
  | none => simp
  | plain all => exact all.legal readable
  | trailing all => exact all.legal (readableAppend.mp readable).1

theorem Heading.legal {own : Option Ident} (heading : Heading ts own) (readable : Readable ts) :
    ∀ i ∈ own, (Node.introduced i).Legal := by
  cases heading with
  | anonymous => simp
  | named _ name =>
    simp only [readableCons] at readable
    rintro i ⟨⟩
    exact .leaf (identifierText readable.2.1 name) rfl

theorem Derives.legal (derives : Derives ts phrase) (readable : Readable ts) : phrase.Legal := by
  induction derives with
    (try simp only [readableCons, readableAppend] at readable)
  | tighter _ ih | plain _ ih => exact ih readable
  | trailing _ _ ih => exact ih readable.1
  | grouped _ _ _ ih => exact ih readable.2.1
  | semicolon _ _ ih => exact ih readable.2
  | integer kind value => exact .leaf (integerRange readable.1 kind value) rfl
  | string kind => exact .leaf (stringInner readable.1 kind) rfl
  | name kind => exact .leaf (identifierText readable.1 kind) rfl
  | trueWord | falseWord | returning => exact .leaf trivial rfl
  | unary _ _ ih | returningValue _ _ ih =>
    exact .mk trivial (by simpa [Node.children] using ih readable.2)
  | expressionStatement _ ih | blockStatement _ ih =>
    exact .mk trivial (by simpa [Node.children] using ih readable)
  | binary _ _ _ ih ih' =>
    exact .mk trivial (by simpa [Node.children] using ⟨ih readable.1, ih' readable.2.2⟩)
  | call _ _ _ _ ih ih' =>
    exact .mk trivial (by simpa [Node.children] using ⟨ih readable.1, ih' readable.2.2.1⟩)
  | conditional _ _ _ _ _ ih ih' =>
    obtain ⟨_, _, test, _, first⟩ := readable
    exact .mk trivial (by simpa [Node.children] using ⟨ih test, ih' first⟩)
  | alternative _ _ _ _ _ _ _ ih ih' ih'' =>
    obtain ⟨_, _, test, _, first, _, second⟩ := readable
    exact .mk trivial (by simpa [Node.children] using ⟨ih test, ih' first, ih'' second⟩)
  | function heading _ names _ _ ih =>
    obtain ⟨head, _, middle, _, body⟩ := readable
    have own := heading.legal head
    have parameters := names.legal middle
    refine .mk trivial fun c child => ?_
    simp only [Node.children, List.mem_append, List.mem_map, Option.mem_toList,
      List.mem_singleton] at child
    rcases child with (⟨i, member, rfl⟩ | ⟨i, member, rfl⟩) | rfl
    · exact own i member
    · exact parameters i member
    · exact ih body
  | one _ ih => simpa using ih readable
  | more _ _ _ ih ih' =>
    exact List.forall_mem_append.mpr
      ⟨ih readable.1, List.forall_mem_singleton.mpr (ih' readable.2.2)⟩
  | noArguments | noStatements => simp
  | braces _ _ _ ih => exact .mk trivial (by simpa [Node.children] using ih readable.2.1)
  | @binding _ n _ _ own _ _ _ kind _ _ ih =>
    obtain ⟨_, name, _, value⟩ := readable
    have introduced : (Node.introduced ⟨n.text, own⟩).Legal := .leaf (identifierText name kind) rfl
    exact .mk trivial (by simpa [Node.children] using ⟨introduced, ih value⟩)
  | followed _ _ _ ih ih' => exact List.forall_mem_cons.mpr ⟨ih readable.1, ih' readable.2⟩

end derivations

theorem readLegal {source : String} {p : Program} (ok : readProgram source = .ok p) : p.Legal := by
  obtain ⟨ts, tokens, parsed⟩ := readProgramTokens.mp ok
  have readable := (tokenizeLexes tokens).readable rfl
  exact (parseSound parsed).legal readable

end Scriptlet

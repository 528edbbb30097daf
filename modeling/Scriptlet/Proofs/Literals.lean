import Scriptlet.Proofs.CallTexts
import Scriptlet.Proofs.ViablePrefix

/-! Sources that are one literal.
Digits are one token, however many they are, and it is read only if their value has 64 bits; a sign
before them is an operator and never part of them. What stands between two quotes is a string as it
is. -/
namespace Scriptlet

structure Digits (ds : List Char) : Prop where
  nonempty : ds ≠ []
  all : ∀ d ∈ ds, Digit d

inductive Opens : Char → Prop where
  | minus : Opens '-'
  | bang : Opens '!'
  | parenthesis : Opens '('
  | blank {c} (kind : Blank c) : Opens c

inductive Closes : Char → Prop where
  | parenthesis : Closes ')'
  | blank {c} (kind : Blank c) : Closes c

inductive Opening : TokenKind → Prop where
  | minus : Opening .minus
  | bang : Opening .bang
  | leftParen : Opening .leftParen

inductive Awaits : Phase → Prop where
  | statement {body} : Awaits (.statement body)
  | operand {slot} : Awaits (.operand slot)

section digits

variable {ds rest : List Char} {p : Position} {us : List Token}

theorem Digits.longest (digits : Digits ds) (ends : ∀ d ∈ rest.head?, ¬ Digit d) :
    Longest ⟨.integer, .ofList ds⟩ rest := by
  obtain ⟨nonempty, all⟩ := digits
  cases ds with
  | nil => exact absurd rfl nonempty
  | cons d ds =>
    obtain ⟨first, others⟩ := List.forall_mem_cons.mp all
    have inside : ∀ d ∈ ds, d.isDigit = true := fun d member => digitIs.mpr (others d member)
    have outside : rest.takeWhile Char.isDigit = [] ∧ rest.dropWhile Char.isDigit = rest := by
      cases rest with
      | nil => exact ⟨rfl, rfl⟩
      | cons c rest =>
        have plain : c.isDigit = false := by
          simpa using mt digitIs.mp (ends c rfl)
        simp [plain]
    have longest : Longest ⟨.integer, .ofList (d :: (ds ++ rest).takeWhile Char.isDigit)⟩
        ((ds ++ rest).dropWhile Char.isDigit) := longestInteger (digitIs.mpr first)
    rwa [List.takeWhile_append_of_pos inside, List.dropWhile_append_of_pos inside, outside.1,
      outside.2, List.append_nil] at longest

theorem Digits.lexes (digits : Digits ds) (ends : ∀ d ∈ rest.head?, ¬ Digit d)
    (later : Lexes (p.afterAll ds) rest (.ok us)) :
    Lexes p (ds ++ rest) (.ok (⟨⟨.integer, .ofList ds⟩, ⟨p, p.afterAll ds⟩⟩ :: us)) := by
  have text : (Lexeme.mk .integer (.ofList ds)).sourceText.toList = ds := String.toList_ofList
  have code : ¬ ['/', '/'] <+: ds ++ rest := by
    obtain ⟨d, tail, rfl⟩ := List.exists_cons_of_ne_nil digits.nonempty
    intro slashes
    obtain ⟨rfl, _⟩ := List.cons_prefix_cons.mp slashes
    exact absurd (digits.all '/' List.mem_cons_self) (by simp [Digit])
  have lexes := (digits.longest ends).lexes (p := p) (by rwa [text]) (by rwa [text])
  rwa [text] at lexes

theorem Digits.lexesAlone (digits : Digits ds) (p : Position) :
    Lexes p ds (.ok [⟨⟨.integer, .ofList ds⟩, ⟨p, p.afterAll ds⟩⟩, .endAt (p.afterAll ds)]) := by
  have ended : Lexes (p.afterAll ds) [] (.ok [.endAt (p.afterAll ds)]) := .ended .none
  simpa using digits.lexes (by simp) ended

theorem Digits.reads (digits : Digits ds) :
    readInteger? (.ofList ds) = checked? (Nat.ofDigitChars 10 ds 0) :=
  readDigits digits.nonempty fun d member => digitIs.mpr (digits.all d member)

theorem digitsNumeral (n : Nat) : Digits (Nat.toDigits 10 n) :=
  ⟨Nat.toDigits_ne_nil, fun d member => digitIs.mp (numeralDigits n d member)⟩

end digits

section wrapping

variable {opening ds closing rest : List Char} {p : Position} {us : List Token}

theorem closingLexes (closes : ∀ c ∈ closing, Closes c) (p : Position) :
    ∃ us, Lexes p closing (.ok us) := by
  induction closing generalizing p with
  | nil => exact ⟨_, .ended .none⟩
  | cons c closing ih =>
    obtain ⟨here, others⟩ := List.forall_mem_cons.mp closes
    obtain ⟨us, later⟩ := ih others (p.after c)
    cases here with
    | parenthesis =>
      have alone : closing.head?.bind (pairSign? ')') = none := by cases closing <;> rfl
      have sign : sign? ')' = some .rightParen := rfl
      exact ⟨_, signLexes sign alone (by decide) later⟩
    | blank kind =>
      have gap : Gap [c] closing := .blank kind .none
      exact ⟨us, later.afterGap gap⟩

theorem opensAlone {c : Char} (opens : Opens c) : c ≠ '=' := by
  rintro rfl
  cases opens with
  | blank kind => exact absurd kind (by simp [Blank])

theorem bangAlone (other : rest.head? ≠ some '=') : rest.head?.bind (pairSign? '!') = none := by
  cases rest with
  | nil => rfl
  | cons d rest =>
    have different : d ≠ '=' := fun same => other (congrArg some same)
    simp [pairSign?, different]

theorem openingLexes (opens : ∀ c ∈ opening, Opens c) (other : rest.head? ≠ some '=')
    (later : Lexes (p.afterAll opening) rest (.ok us)) :
    ∃ ts, (∀ t ∈ ts, Opening t.kind) ∧ Lexes p (opening ++ rest) (.ok (ts ++ us)) := by
  induction opening generalizing p with
  | nil => exact ⟨[], nofun, later⟩
  | cons c opening ih =>
    obtain ⟨here, others⟩ := List.forall_mem_cons.mp opens
    obtain ⟨ts, signs, lexes⟩ := ih others later
    have one {kind} (sign : Opening kind) (single : sign? c = some kind) (code : c ≠ '/')
        (alone : (opening ++ rest).head?.bind (pairSign? c) = none) :
        ∃ ts, (∀ t ∈ ts, Opening t.kind) ∧ Lexes p (c :: opening ++ rest) (.ok (ts ++ us)) :=
      ⟨_, List.forall_mem_cons.mpr ⟨sign, signs⟩, signLexes single alone code lexes⟩
    cases here with
    | minus => exact one .minus rfl (by decide) (by cases opening ++ rest <;> rfl)
    | parenthesis => exact one .leftParen rfl (by decide) (by cases opening ++ rest <;> rfl)
    | bang =>
      refine one .bang rfl (by decide) (bangAlone ?_)
      cases opening with
      | nil => exact other
      | cons d opening => simpa using opensAlone (others d List.mem_cons_self)
    | blank kind =>
      have gap : Gap [c] (opening ++ rest) := .blank kind .none
      have behind : Lexes p ([c] ++ (opening ++ rest)) (.ok (ts ++ us)) := lexes.afterGap gap
      exact ⟨ts, signs, behind⟩

theorem wrappedLexes (opens : ∀ c ∈ opening, Opens c) (digits : Digits ds)
    (closes : ∀ c ∈ closing, Closes c) (p : Position) :
    ∃ ts us, (∀ t ∈ ts, Opening t.kind) ∧ Lexes p (opening ++ (ds ++ closing)) (.ok (ts ++
      ⟨⟨.integer, .ofList ds⟩, ⟨p.afterAll opening, p.afterAll (opening ++ ds)⟩⟩ :: us)) := by
  obtain ⟨us, later⟩ := closingLexes closes (p.afterAll (opening ++ ds))
  have ends : ∀ d ∈ closing.head?, ¬ Digit d := by
    intro d head
    obtain ⟨closing, rfl⟩ := List.head?_eq_some_iff.mp head
    cases closes d List.mem_cons_self with
    | parenthesis => simp [Digit]
    | blank kind => rcases kind with rfl | rfl | rfl | rfl <;> simp [Digit]
  have other : (ds ++ closing).head? ≠ some '=' := by
    obtain ⟨d, tail, rfl⟩ := List.exists_cons_of_ne_nil digits.nonempty
    have digit := digits.all d List.mem_cons_self
    rintro ⟨⟩
    exact absurd digit (by simp [Digit])
  rw [Position.afterAllAppend] at later
  obtain ⟨ts, signs, lexes⟩ := openingLexes opens other (digits.lexes ends later)
  rw [← Position.afterAllAppend] at lexes
  exact ⟨ts, us, signs, lexes⟩

end wrapping

section parsing

variable {t : Token} {ts us : List Token} {p : Parser} {e : Expr} {text : String}

theorem Awaits.step (awaits : Awaits p.phase) (sign : Opening t.kind) :
    ∃ q, p.read t = .ok q ∧ Awaits q.phase := by
  obtain ⟨phase, last⟩ := p
  obtain ⟨⟨kind, text⟩, span⟩ := t
  cases awaits <;> cases sign <;> exact ⟨_, rfl, .operand⟩

theorem Awaits.run (awaits : Awaits p.phase) (signs : ∀ t ∈ ts, Opening t.kind) :
    ∃ q, ts.foldlM Parser.read p = .ok q ∧ Awaits q.phase := by
  induction ts generalizing p with
  | nil => exact ⟨p, rfl, awaits⟩
  | cons t ts ih =>
    obtain ⟨here, others⟩ := List.forall_mem_cons.mp signs
    obtain ⟨next, read, inside⟩ := awaits.step here
    obtain ⟨q, run, inside⟩ := ih inside others
    rw [List.foldlM_cons, read]
    exact ⟨q, run, inside⟩

theorem Awaits.refuses (awaits : Awaits p.phase) (value : readInteger? text = none) (place : Span) :
    p.read ⟨⟨.integer, text⟩, place⟩ = .error ⟨.invalidInteger text, place⟩ := by
  obtain ⟨phase, last⟩ := p
  have refused (slot : Slot) :
      slot.start ⟨⟨.integer, text⟩, place⟩ = .error ⟨.invalidInteger text, place⟩ := by
    simp only [Slot.start, value]
  cases awaits with
  | statement => simp only [Parser.read, Phase.read, Body.read, refused, bind, Except.bind]
  | operand => simp only [Parser.read, Phase.read, refused, bind, Except.bind]

theorem wrappedRefused (signs : ∀ t ∈ ts, Opening t.kind) (value : readInteger? text = none)
    (place : Span) (us : List Token) :
    parse (ts ++ ⟨⟨.integer, text⟩, place⟩ :: us) = .error ⟨.invalidInteger text, place⟩ := by
  have awaits : Awaits Parser.ofProgram.phase := .statement
  obtain ⟨q, run, awaits⟩ := awaits.run signs
  exact parseFault run (awaits.refuses value place) us

theorem operandEnds (leaf : ∀ slot : Slot, slot.start t = .ok (.connective e slot))
    (waiting : List Waiting) (start before : Span) (stop : Position) :
    [t, .endAt stop].foldlM Parser.read
        ⟨.operand ⟨waiting, .statement start (.program [])⟩, before⟩ =
      .ok ⟨.program [.expression (reduceAll t.span e waiting) (start.extend t.span)],
        .emptyAt stop⟩ := by
  simp only [List.foldlM_cons, List.foldlM_nil, Parser.read, Phase.read, leaf, bind, Except.bind]
  rfl

theorem literalParses (literal : t.kind = .integer ∨ t.kind = .string)
    (leaf : ∀ slot : Slot, slot.start t = .ok (.connective e slot)) (stop : Position) :
    ∃ span, parse [t, .endAt stop] = .ok ⟨[.expression e span]⟩ := by
  have begins : Parser.ofProgram.read t =
      Parser.read ⟨.operand (Goal.statement t.span (.program [])).slot, .nowhere⟩ t := by
    rcases literal with kind | kind <;>
      simp only [Parser.read, Phase.read, Parser.ofProgram, Body.read, kind]
  have run := operandEnds leaf [] t.span .nowhere stop
  exact ⟨_, programParses (by rw [List.foldlM_cons, begins]; exact run) rfl⟩

theorem negatedParses (leaf : ∀ slot : Slot, slot.start t = .ok (.connective e slot))
    (place : Span) (stop : Position) :
    ∃ inner outer, parse [⟨⟨.minus, .ofList ['-']⟩, place⟩, t, .endAt stop] =
      .ok ⟨[.expression (.unary .negate e inner) outer]⟩ := by
  have run := operandEnds leaf [.unary .negate place] place place stop
  exact ⟨_, _, programParses (q := ⟨_, _⟩) run rfl⟩

end parsing

section evaluating

variable {s : Session} {v : Value} {e : Expr} {span : Span} {ds cs : List Char} {ts : List Token}

theorem lexedTokens (lexes : Lexes .start cs (.ok ts)) : tokenize (.ofList cs) = .ok ts :=
  (lexesExactly _ _).mpr (by rwa [String.toList_ofList])

theorem Session.runExpression (lexes : Lexes .start cs (.ok ts))
    (parses : parse ts = .ok ⟨[.expression e span]⟩)
    (value : ∀ m, evalExpr (applyWithin s.limit) e m = (.result v, m)) :
    (s.run (.ofList cs)).1 = .ok v := by
  rw [Session.runProgram (readProgramTokens.mpr ⟨ts, lexedTokens lexes, parses⟩)]
  simp only [Session.evaluate, evalProgram, evalStmts, evalStmt, bind, Exec.bind, value, pure,
    Exec.pure]
  rfl

theorem Digits.value (digits : Digits ds)
    (most : Nat.ofDigitChars 10 ds 0 ≤ 9223372036854775807) :
    readInteger? (.ofList ds) = some ↑(Nat.ofDigitChars 10 ds 0) := by
  rw [digits.reads, checked?, if_pos]
  simp only [fits, Bool.and_eq_true, decide_eq_true_eq]
  omega

theorem Digits.leaf (digits : Digits ds)
    (most : Nat.ofDigitChars 10 ds 0 ≤ 9223372036854775807) (place : Span) (slot : Slot) :
    slot.start ⟨⟨.integer, .ofList ds⟩, place⟩ =
      .ok (.connective (.integer (Nat.ofDigitChars 10 ds 0) place) slot) := by
  simp only [Slot.start, digits.value most]

theorem Digits.run (digits : Digits ds)
    (most : Nat.ofDigitChars 10 ds 0 ≤ 9223372036854775807) (s : Session) :
    (s.run (.ofList ds)).1 = .ok (.integer (Nat.ofDigitChars 10 ds 0)) := by
  obtain ⟨_, parses⟩ := literalParses (.inl rfl) (digits.leaf most _) _
  exact Session.runExpression (digits.lexesAlone .start) parses fun _ => rfl

theorem Digits.runNegated (digits : Digits ds)
    (most : Nat.ofDigitChars 10 ds 0 ≤ 9223372036854775807) (s : Session) :
    (s.run (.ofList ('-' :: ds))).1 = .ok (.integer (-Nat.ofDigitChars 10 ds 0)) := by
  have alone : ds.head?.bind (pairSign? '-') = none := by cases ds <;> rfl
  have fit : checked? (-Nat.ofDigitChars 10 ds 0) = some (-Nat.ofDigitChars 10 ds 0 : Int) := by
    rw [checked?, if_pos]
    simp only [fits, Bool.and_eq_true, decide_eq_true_eq]
    omega
  have lexes := signLexes rfl alone (by decide) (digits.lexesAlone (Position.start.after '-'))
  obtain ⟨_, _, parses⟩ := negatedParses (digits.leaf most _) _ _
  refine Session.runExpression lexes parses fun m => ?_
  simp only [evalExpr, bind, Exec.bind, pure, Exec.pure, UnaryOp.apply, fit, Exec.lift]

theorem Digits.refused {opening closing : List Char} (digits : Digits ds)
    (opens : ∀ c ∈ opening, Opens c) (closes : ∀ c ∈ closing, Closes c)
    (beyond : 9223372036854775807 < Nat.ofDigitChars 10 ds 0) (s : Session) :
    (s.run (.ofList (opening ++ (ds ++ closing)))).1 = .error (.parse ⟨.invalidInteger (.ofList ds),
      ⟨Position.start.afterAll opening, Position.start.afterAll (opening ++ ds)⟩⟩) := by
  have value : readInteger? (.ofList ds) = none := by
    rw [digits.reads, checked?, if_neg]
    simp only [fits, Bool.and_eq_true, decide_eq_true_eq]
    omega
  obtain ⟨ts, us, signs, lexes⟩ := wrappedLexes opens digits closes .start
  have refused := readProgramRefused (lexedTokens lexes) (wrappedRefused signs value _ us)
  rw [Session.runRefused refused]

theorem stringRun {body : List Char} (inner : '"' ∉ body) (s : Session) :
    (s.run (.ofList ('"' :: (body ++ ['"'])))).1 = .ok (.string (.ofList body)) := by
  have longest : Longest ⟨.string, .ofList body⟩ [] := longestString inner
  have code : ¬ ['/', '/'] <+: (Lexeme.mk .string (.ofList body)).sourceText.toList ++ [] := by
    simp [stringText]
  have lexes := longest.lexes (p := .start) code (.ended .none)
  rw [stringText, List.append_nil] at lexes
  obtain ⟨_, parses⟩ := literalParses (t := ⟨⟨.string, .ofList body⟩, _⟩) (.inr rfl)
    (fun _ => rfl) _
  exact Session.runExpression lexes parses fun _ => rfl

end evaluating

theorem negativeText {n : Int} (negative : n < 0) :
    (toString n).toList = '-' :: Nat.toDigits 10 (-n).toNat := by
  rw [Int.toString_eq_repr, Int.repr_eq_if, if_neg (by omega), String.toList_append,
    Nat.toList_repr]
  rfl

theorem integerRun {n : Int} (least : -9223372036854775808 < n) (most : n ≤ 9223372036854775807)
    (s : Session) : (s.run (Value.integer n).text).1 = .ok (.integer n) := by
  have value (m : Nat) : Nat.ofDigitChars 10 (Nat.toDigits 10 m) 0 = m := numeralValue m
  change (s.run (toString n)).1 = _
  rw [← String.ofList_toList (s := toString n)]
  rcases Int.lt_or_le n 0 with negative | positive
  · have run := (digitsNumeral (-n).toNat).runNegated (by rw [value]; omega) s
    rw [negativeText negative, run, value, Int.toNat_of_nonneg (by omega), Int.neg_neg]
  · have run := (digitsNumeral n.toNat).run (by rw [value]; omega) s
    rw [numeralText positive, run, value, Int.toNat_of_nonneg positive]

theorem beyondIntegers :
    9223372036854775807 < Nat.ofDigitChars 10 (Nat.toDigits 10 (2 ^ 63)) 0 := by
  rw [Nat.ofDigitChars_ten_toDigits]
  decide

theorem leastRefused (s : Session) : (s.run (Value.integer (-9223372036854775808)).text).1 =
    .error (.parse ⟨.invalidInteger "9223372036854775808", ⟨⟨1, 1, 2⟩, ⟨20, 1, 21⟩⟩⟩) := by
  have opens : ∀ c ∈ ['-'], Opens c := List.forall_mem_singleton.mpr .minus
  exact (digitsNumeral (2 ^ 63)).refused opens (List.forall_mem_nil _) beyondIntegers s

/-- In every session the text of an integer gives that integer, the least one apart, and so do
digits whose value is an integer. Digits beyond all integers are refused with their text and their
place, whatever operators and parentheses are around them, and with them the text of the least
integer. A string in quotes gives that string. -/
theorem literalsRun (s : Session) :
    (∀ n : Int, -9223372036854775808 < n → n ≤ 9223372036854775807 →
      (s.run (Value.integer n).text).1 = .ok (.integer n)) ∧
    (∀ ds, Digits ds → Nat.ofDigitChars 10 ds 0 ≤ 9223372036854775807 →
      (s.run (.ofList ds)).1 = .ok (.integer (Nat.ofDigitChars 10 ds 0))) ∧
    (∀ opening ds closing, (∀ c ∈ opening, Opens c) → Digits ds → (∀ c ∈ closing, Closes c) →
      9223372036854775807 < Nat.ofDigitChars 10 ds 0 →
      (s.run (.ofList (opening ++ (ds ++ closing)))).1 =
        .error (.parse ⟨.invalidInteger (.ofList ds),
          ⟨Position.start.afterAll opening, Position.start.afterAll (opening ++ ds)⟩⟩)) ∧
    (s.run (Value.integer (-9223372036854775808)).text).1 =
      .error (.parse ⟨.invalidInteger "9223372036854775808", ⟨⟨1, 1, 2⟩, ⟨20, 1, 21⟩⟩⟩) ∧
    ∀ text : String, '"' ∉ text.toList →
      (s.run ("\"" ++ text ++ "\"")).1 = .ok (.string text) := by
  refine ⟨fun n least most => integerRun least most s, fun ds digits most => digits.run most s,
    fun opening ds closing opens digits closes beyond => digits.refused opens closes beyond s,
    leastRefused s, fun text inner => ?_⟩
  have quoted : "\"" ++ text ++ "\"" = .ofList ('"' :: (text.toList ++ ['"'])) := by
    simp [← String.toList_inj]
  rw [quoted, stringRun inner, String.ofList_toList]

theorem fewLiteralsRun :
    run "-7" 0 = .ok (.integer (-7)) ∧ run "007" 0 = .ok (.integer 7) ∧
    run "!(9223372036854775808)" 0 = .error (.parse
      ⟨.invalidInteger "9223372036854775808", ⟨⟨2, 1, 3⟩, ⟨21, 1, 22⟩⟩⟩) ∧
    run "\"// a\nb\"" 0 = .ok (.string "// a\nb") := by
  obtain ⟨integers, digits, beyond, _, strings⟩ := literalsRun (.start 0)
  have zeros : Digits ['0', '0', '7'] := ⟨nofun, by simp [Digit]⟩
  have negative := integers (-7) (by decide) (by decide)
  have seven := digits _ zeros (by decide)
  have quoted := strings "// a\nb" (by decide)
  have opens : ∀ c ∈ ['!', '('], Opens c := by simp [Opens.bang, Opens.parenthesis]
  have closes : ∀ c ∈ [')'], Closes c := by simp [Closes.parenthesis]
  have refused := beyond _ _ _ opens (digitsNumeral (2 ^ 63)) closes beyondIntegers
  exact ⟨negative, seven, refused, quoted⟩

end Scriptlet

import Scriptlet.Proofs.Sessions
import Scriptlet.Proofs.TokenTables

/-! What the command writes is what the session answers.
A source is shown as far as it can be read and is answered by the session it is run in; what is
shown changes no answer. The standard input is cut into lines, which are answered one after another
until it ends or one of them is no text. -/
namespace Scriptlet

section spelling

def textBytes (source : String) : List UInt8 := source.toByteArray.data.toList

theorem decodeText (source : String) : decode? (textBytes source) = some source := by
  have same : (textBytes source).toByteArray = source.toByteArray := by
    apply ByteArray.ext
    rw [List.data_toByteArray, textBytes, Array.toArray_toList]
  simp only [decode?, String.fromUTF8?, same, source.isValidUTF8, dite_true]
  rfl

theorem decodeExactly {bs : List UInt8} {source : String} :
    decode? bs = some source ↔ textBytes source = bs := by
  constructor
  · intro decoded
    simp only [decode?, String.fromUTF8?] at decoded
    split at decoded
    · cases decoded
      exact List.toList_data_toByteArray
    · cases decoded
  · rintro rfl
    exact decodeText source

theorem decodeNone {bs : List UInt8} :
    decode? bs = none ↔ ∀ source, textBytes source ≠ bs := by
  simp only [Option.eq_none_iff_forall_ne_some, ne_eq, decodeExactly]

end spelling

section answers

/- Nothing is shown of a result unless it is asked for and there is one. -/
inductive ShownIf {ε α : Type} (asked : Bool) (text : α → String → Prop) :
    Except ε α → String → Prop where
  | unasked {r} (off : asked = false) : ShownIf asked text r ""
  | missing {e} : ShownIf asked text (.error e) ""
  | shown {a s} (on : asked = true) (told : text a s) : ShownIf asked text (.ok a) s

inductive Options.Shows (o : Options) (source : String) : String → Prop where
  | mk {table tree} (tokens : ShownIf o.printTokens TableOf (tokenize source) table)
      (program : ShownIf o.printTree (fun p s => s = p.dump ++ "\n") (readProgram source) tree) :
      Shows o source (table ++ tree)

def shownIf {ε α : Type} (asked : Bool) (text : α → String) : Except ε α → String
  | .ok a => if asked then text a else ""
  | .error _ => ""

def Options.shown (o : Options) (source : String) : String :=
  shownIf o.printTokens tokenTable (tokenize source) ++
    shownIf o.printTree (fun p => p.dump ++ "\n") (readProgram source)

/- What an answer leaves on the standard output and error, and the code it stands for. -/
inductive Reports (source : String) : Except Failure Value → Transcript → Nat → Prop where
  | unit : Reports source (.ok .unit) ⟨"", ""⟩ 0
  | value {v} (some : v ≠ .unit) : Reports source (.ok v) ⟨v.text ++ "\n", ""⟩ 0
  | lex {e} : Reports source (.error (.lex e)) ⟨"", (Failure.lex e).render source ++ "\n"⟩ 65
  | parse {e} :
      Reports source (.error (.parse e)) ⟨"", (Failure.parse e).render source ++ "\n"⟩ 65
  | eval {e} : Reports source (.error (.eval e)) ⟨"", (Failure.eval e).render source ++ "\n"⟩ 70

variable {source : String} {s : Session} {r : Except Failure Value} {t : Transcript} {code : Nat}

theorem shownIfExactly {ε α : Type} {asked : Bool} {text : α → String} {told : α → String → Prop}
    (exact : ∀ a s, told a s ↔ s = text a) {r : Except ε α} {s : String} :
    ShownIf asked told r s ↔ s = shownIf asked text r := by
  constructor
  · rintro (off | _ | ⟨on, told⟩)
    · cases r <;> simp [shownIf, off]
    · rfl
    · rw [shownIf, if_pos on, (exact _ _).mp told]
  · rintro rfl
    cases r with
    | error e => exact .missing
    | ok a =>
      cases asked with
      | false => exact .unasked rfl
      | true => exact .shown rfl ((exact _ _).mpr rfl)

theorem Options.showsExactly {o : Options} {source s : String} :
    o.Shows source s ↔ s = o.shown source := by
  have tables (ts : List Token) (s : String) : TableOf ts s ↔ s = tokenTable ts := tableExactly
  have trees (p : Program) (s : String) : s = p.dump ++ "\n" ↔ s = p.dump ++ "\n" := .rfl
  constructor
  · rintro ⟨tokens, program⟩
    rw [(shownIfExactly tables).mp tokens, (shownIfExactly trees).mp program, shown]
  · rintro rfl
    exact .mk ((shownIfExactly tables).mpr rfl) ((shownIfExactly trees).mpr rfl)

theorem reportsSomehow (source : String) (r : Except Failure Value) :
    ∃ t code, Reports source r t code := by
  cases r with
  | error f =>
    cases f with
    | lex e => exact ⟨_, _, .lex⟩
    | parse e => exact ⟨_, _, .parse⟩
    | eval e => exact ⟨_, _, .eval⟩
  | ok v =>
    cases v with
    | unit => exact ⟨_, _, .unit⟩
    | _ => exact ⟨_, _, .value nofun⟩

theorem Reports.exitCode (reports : Reports source r t code) : exitCode r = code := by
  cases reports <;> rfl

theorem valueLineText {v : Value} (some : v ≠ .unit) : valueLine v = v.text ++ "\n" := by
  cases v with
  | unit => exact absurd rfl some
  | _ => rfl

theorem transcriptAppend (a b c d : String) :
    Transcript.mk a b ++ Transcript.mk c d = ⟨a ++ c, b ++ d⟩ := rfl

theorem transcriptAssoc (t u v : Transcript) : t ++ u ++ v = t ++ (u ++ v) := by
  cases t
  cases u
  cases v
  simp only [transcriptAppend, String.append_assoc]

theorem Options.performRuns (o : Options) (source : String) (s : Session) :
    o.perform source s = ((o.shown source, (s.run source).1), (s.run source).2) := by
  cases lexed : tokenize source with
  | error e =>
    have refused := readProgramUnread lexed
    simp only [perform, shown, lexed, refused, Session.runRefused refused, shownIf,
      String.append_empty]
  | ok ts =>
    cases parsed : parse ts with
    | error e =>
      have refused := readProgramRefused lexed parsed
      simp only [perform, shown, lexed, parsed, refused, Session.runRefused refused, shownIf,
        String.append_empty]
    | ok p =>
      have read := readProgramTokens.mpr ⟨ts, lexed, parsed⟩
      simp only [perform, shown, lexed, parsed, read, Session.runProgram read, shownIf]

theorem Reports.transcribes (reports : Reports source (s.run source).1 t code) (o : Options) :
    o.transcribe source s =
      ((⟨o.shown source, ""⟩ ++ t, (s.run source).1), (s.run source).2) := by
  simp only [Options.transcribe, o.performRuns]
  generalize (s.run source).1 = r at reports
  cases reports with
  | unit => rfl
  | value some => simp only [valueLineText some, transcriptAppend, String.append_empty]
  | _ => simp only [transcriptAppend, String.append_empty, String.empty_append]

end answers

section scripts

theorem Reports.runsScript {source : String} {o : Options} {t : Transcript} {code : Nat}
    (reports : Reports source (run source o.limit) t code) :
    o.runScript (.ok (textBytes source)) = ⟨⟨o.shown source, ""⟩ ++ t, code⟩ := by
  have transcribed := Reports.transcribes (s := .start o.limit) reports o
  simp only [Options.runScript, decodeText, transcribed, ← reports.exitCode]
  rfl

/-- A script is answered as its text is by a session of its own: the code is 0 and the value has the
last line, or the failure is rendered on the standard error and tells the code. Flags have the
tokens and the tree of what can be read shown before that, and change nothing else. -/
theorem scriptAnswers (source : String) (limit : Nat) :
    ∃ t code, Reports source (run source limit) t code ∧
      ∀ (o : Options) path files input e, o.script = some path → o.limit = limit →
        files path = .ok (textBytes source) →
        (o.exit files input = e ↔ ∃ shown, o.Shows source shown ∧ e = ⟨⟨shown, ""⟩ ++ t, code⟩) := by
  obtain ⟨t, code, reports⟩ := reportsSomehow source (run source limit)
  refine ⟨t, code, reports, ?_⟩
  intro o path files input e script limited content
  subst limited
  simp only [Options.exit, script, content, reports.runsScript]
  constructor
  · rintro rfl
    exact ⟨_, Options.showsExactly.mpr rfl, rfl⟩
  · rintro ⟨shown, shows, rfl⟩
    rw [Options.showsExactly.mp shows]

def quotient : String := "let n = 0;\n1 / n"

def quotientTokens : String :=
  "    1:1  `let`              let\n" ++
  "    1:5  identifier         n\n" ++
  "    1:7  `=`                =\n" ++
  "    1:9  integer literal    0\n" ++
  "   1:10  `;`                ;\n" ++
  "    2:1  integer literal    1\n" ++
  "    2:3  `/`                /\n" ++
  "    2:5  identifier         n\n" ++
  "    2:6  end of input       \n"

def quotientFault : String := "eval error: division by zero at 2:1\n2 | 1 / n\n  | ^\n"

theorem quotientScript : ∃ t code, Reports quotient (run quotient 9) t code ∧
    (Options.exit ⟨some "a", 9, false, false⟩ (fun _ => .ok (textBytes quotient)) [] =
      ⟨⟨"", quotientFault⟩, 70⟩ ∧
    ∃ shown, Options.Shows ⟨some "a", 9, false, false⟩ quotient shown ∧
      Exit.mk ⟨"", quotientFault⟩ 70 = ⟨⟨shown, ""⟩ ++ t, code⟩) ∧
    (Options.exit ⟨some "a", 9, true, true⟩ (fun _ => .ok (textBytes quotient)) [] =
      ⟨⟨quotientTokens ++ "(let n 0)\n(/ 1 n)\n", quotientFault⟩, 70⟩ ∧
    ∃ shown, Options.Shows ⟨some "a", 9, true, true⟩ quotient shown ∧
      Exit.mk ⟨quotientTokens ++ "(let n 0)\n(/ 1 n)\n", quotientFault⟩ 70 =
        ⟨⟨shown, ""⟩ ++ t, code⟩) := by
  obtain ⟨t, code, reports, exits⟩ := scriptAnswers quotient 9
  have plain : Options.exit ⟨some "a", 9, false, false⟩ (fun _ => .ok (textBytes quotient)) [] =
      ⟨⟨"", quotientFault⟩, 70⟩ := by
    decide +kernel
  have shown : Options.exit ⟨some "a", 9, true, true⟩ (fun _ => .ok (textBytes quotient)) [] =
      ⟨⟨quotientTokens ++ "(let n 0)\n(/ 1 n)\n", quotientFault⟩, 70⟩ := by
    decide +kernel
  exact ⟨t, code, reports,
    ⟨plain, (exits _ "a" (fun _ => .ok (textBytes quotient)) [] _ rfl rfl rfl).mp plain⟩,
    ⟨shown, (exits _ "a" (fun _ => .ok (textBytes quotient)) [] _ rfl rfl rfl).mp shown⟩⟩

end scripts

section conversations

inductive Cut : List UInt8 → List (List UInt8) → Prop where
  | ended : Cut [] []
  | unfinished {bs} (some : bs ≠ []) (inside : 10 ∉ bs) : Cut bs [bs]
  | line {bs rest chunks} (inside : 10 ∉ bs) (later : Cut rest chunks) :
      Cut (bs ++ 10 :: rest) ((bs ++ [10]) :: chunks)

/- Sources answered in turn, each behind a prompt and in the session that the ones before it left. -/
inductive Dialogue (o : Options) : Session → List String → Transcript → Prop where
  | silent {s} : Dialogue o s [] ⟨"", ""⟩
  | more {s source shown t code later u} (shows : o.Shows source shown)
      (reports : Reports source (s.run source).1 t code)
      (rest : Dialogue o (s.run source).2 later u) :
      Dialogue o s (source :: later) (⟨">> " ++ shown, ""⟩ ++ t ++ u)

inductive Closing : List (List UInt8) → Transcript → Nat → Prop where
  | ended : Closing [] ⟨">> \n", ""⟩ 0
  | notText {chunk rest} (binary : ∀ source, textBytes source ≠ chunk) :
      Closing (chunk :: rest) ⟨">> ", "error: stream did not contain valid UTF-8\n"⟩ 74

inductive Conversation (o : Options) (input : List UInt8) : Exit → Prop where
  | mk {sources rest t u code} (cut : Cut input (sources.map textBytes ++ rest))
      (dialogue : Dialogue o (.start o.limit) sources t) (closing : Closing rest u code) :
      Conversation o input ⟨t ++ u, code⟩

variable {o : Options} {s : Session} {sources : List String} {t u : Transcript} {code : Nat}
  {input : List UInt8} {cs rest : List (List UInt8)}

theorem cutSomehow (input : List UInt8) : Cut input (chunks input) := by
  induction input with
  | nil => exact .ended
  | cons b bs ih =>
    unfold chunks
    split
    · rename_i same
      subst same
      exact @Cut.line [] _ _ nofun ih
    · rename_i other
      generalize chunks bs = later at ih
      cases ih with
      | ended => exact .unfinished nofun (by simp [Ne.symm other])
      | unfinished _ inside => exact .unfinished nofun (by simp [Ne.symm other, inside])
      | line inside later => exact @Cut.line (b :: _) _ _ (by simp [Ne.symm other, inside]) later

theorem chunksUnfinished (some : input ≠ []) (inside : 10 ∉ input) : chunks input = [input] := by
  induction input with
  | nil => exact absurd rfl some
  | cons b bs ih =>
    obtain ⟨other, inside⟩ := not_or.mp (mt List.mem_cons.mpr inside)
    rw [chunks, if_neg (Ne.symm other)]
    cases bs with
    | nil => rfl
    | cons c bs => rw [ih (by simp) inside]

theorem chunksLine {bs : List UInt8} (inside : 10 ∉ bs) (rest : List UInt8) :
    chunks (bs ++ 10 :: rest) = (bs ++ [10]) :: chunks rest := by
  induction bs with
  | nil => rfl
  | cons b bs ih =>
    obtain ⟨other, inside⟩ := not_or.mp (mt List.mem_cons.mpr inside)
    rw [List.cons_append, chunks, if_neg (Ne.symm other), ih inside]
    rfl

theorem Cut.chunks (cut : Cut input cs) : chunks input = cs := by
  induction cut with
  | ended => rfl
  | unfinished some inside => exact chunksUnfinished some inside
  | line inside _ ih => rw [chunksLine inside, ih]

theorem dialogueSomehow (o : Options) (s : Session) (sources : List String) :
    ∃ t, Dialogue o s sources t := by
  induction sources generalizing s with
  | nil => exact ⟨_, .silent⟩
  | cons source later ih =>
    obtain ⟨t, code, reports⟩ := reportsSomehow source (s.run source).1
    obtain ⟨u, rest⟩ := ih (s.run source).2
    exact ⟨_, .more (Options.showsExactly.mpr rfl) reports rest⟩

theorem closingSomewhere (cs : List (List UInt8)) :
    ∃ (sources : List String) (rest : _) (u : _) (code : _),
      cs = sources.map textBytes ++ rest ∧ Closing rest u code := by
  induction cs with
  | nil => exact ⟨[], [], _, _, rfl, .ended⟩
  | cons chunk later ih =>
    cases decoded : decode? chunk with
    | none => exact ⟨[], _, _, _, rfl, .notText (decodeNone.mp decoded)⟩
    | some source =>
      obtain ⟨sources, rest, u, code, rfl, closing⟩ := ih
      refine ⟨source :: sources, rest, u, code, ?_, closing⟩
      rw [List.map_cons, decodeExactly.mp decoded, List.cons_append]

theorem Closing.converse (closing : Closing rest u code) (o : Options) (s : Session) :
    o.converse rest s = ⟨u, code⟩ := by
  cases closing with
  | ended => rfl
  | notText binary =>
    simp only [Options.converse, Options.answer, decodeNone.mpr binary]
    rfl

theorem Dialogue.converse (dialogue : Dialogue o s sources t) (closing : Closing rest u code) :
    o.converse (sources.map textBytes ++ rest) s = ⟨t ++ u, code⟩ := by
  induction dialogue with
  | silent =>
    rw [List.map_nil, List.nil_append, closing.converse, transcriptAppend, String.empty_append,
      String.empty_append]
  | @more s source shown t code' later v shows reports _ ih =>
    obtain rfl := Options.showsExactly.mp shows
    simp only [List.map_cons, List.cons_append, Options.converse, Options.answer, decodeText,
      reports.transcribes, ih]
    have prompted : Transcript.mk (">> " ++ o.shown source) "" =
        ⟨prompt, ""⟩ ++ ⟨o.shown source, ""⟩ := rfl
    simp only [prompted, transcriptAssoc]

/-- Without a script the command answers the lines of the standard input in one session: each is
shown, run and reported in turn, whatever became of those before it, until the input ends or a line
is no text. -/
theorem promptAnswers {o : Options} (interactive : o.script = none)
    (files : String → Except ReadFailure (List UInt8)) (input : List UInt8) (e : Exit) :
    o.exit files input = e ↔ Conversation o input e := by
  simp only [Options.exit, interactive, Options.runPrompt]
  constructor
  · rintro rfl
    obtain ⟨sources, rest, u, code, split, closing⟩ := closingSomewhere (chunks input)
    obtain ⟨t, dialogue⟩ := dialogueSomehow o (.start o.limit) sources
    rw [split, dialogue.converse closing]
    exact .mk (split ▸ cutSomehow input) dialogue closing
  · rintro ⟨cut, dialogue, closing⟩
    rw [cut.chunks, dialogue.converse closing]

def typed : List UInt8 := textBytes "let n = 1\nn +\nn\n" ++ [255, 10] ++ textBytes "n"

def typedShown : String :=
  ">>     1:1  `let`              let\n" ++
  "    1:5  identifier         n\n" ++
  "    1:7  `=`                =\n" ++
  "    1:9  integer literal    1\n" ++
  "    2:1  end of input       \n" ++
  "(let n 1)\n" ++
  ">>     1:1  identifier         n\n" ++
  "    1:3  `+`                +\n" ++
  "    2:1  end of input       \n" ++
  ">>     1:1  identifier         n\n" ++
  "    2:1  end of input       \n" ++
  "n\n1\n>> "

def typedExit : Exit :=
  ⟨⟨typedShown, "parse error: expected expression, but found end of input at 2:1\n" ++
    "error: stream did not contain valid UTF-8\n"⟩, 74⟩

theorem typedAnswered :
    Options.exit ⟨none, defaultLimit, true, true⟩ (fun _ => .error .notFound) typed = typedExit ∧
    Conversation ⟨none, defaultLimit, true, true⟩ typed typedExit := by
  have exits : Options.exit ⟨none, defaultLimit, true, true⟩ (fun _ => .error .notFound) typed =
      typedExit := by
    decide +kernel
  exact ⟨exits, (promptAnswers rfl (fun _ => .error .notFound) typed typedExit).mp exits⟩

end conversations

end Scriptlet

import Scriptlet.Proofs.Cutting
import Scriptlet.Proofs.JoinedTexts
import Scriptlet.Proofs.Resuming
import Scriptlet.Proofs.TokenStreams

/-! Tokens cut from their source.
A reader may keep to places and cut each text out of the source by its bytes, which fails unless the
cut begins and ends between characters of it and in this order. It finds what a reader does that
keeps the characters themselves, and asks for no cut that fails: a text runs from where its token
starts to where it stops, and that of a string from behind the one quote to before the other. -/
namespace Scriptlet

namespace Cursor

def comment? (c : Cursor) : Option Cursor := do
  let c ← c.takeIf? (· = '/')
  let c ← c.takeIf? (· = '/')
  return c.takeWhile (· ≠ '\n')

def pair? (first : Char) (c : Cursor) : Option (TokenKind × Cursor) := do
  let (second, c) ← c.take?
  let kind ← pairSign? first second
  return (kind, c)

end Cursor

/- The kind of what begins with `first` at `p`, or a fault, and the reader behind it, which has
taken `first` already. A word is cut out to see whether it is reserved. -/
def cutKind (source : String) (first : Char) (p : Position) (c : Cursor) :
    Cutting (Except LexError TokenKind × Cursor) :=
  match c.pair? first with
  | some (kind, c) => pure (.ok kind, c)
  | none =>
    match sign? first with
    | some kind => pure (.ok kind, c)
    | none =>
      if first = '"' then
        let c := c.takeWhile (· ≠ '"')
        match c.takeIf? (· = '"') with
        | some c => pure (.ok .string, c)
        | none => pure (.error (.unterminatedString p), c)
      else if first.isDigit then pure (.ok .integer, c.takeWhile Char.isDigit)
      else if isWordStart first then do
        let c := c.takeWhile isWordPart
        let word ← Slice.text source ⟨p.byte, c.position.byte⟩
        return (.ok ((TokenKind.keyword? word).getD .identifier), c)
      else pure (.error (.unrecognizedCharacter first p), c)

def textCut (kind : TokenKind) (start stop : Nat) : Slice :=
  if kind = .string then ⟨start + 1, stop - 1⟩ else ⟨start, stop⟩

def cutToken (source : String) (c : Cursor) : Cutting (Except LexError Token × Cursor) :=
  let start := c.position
  match c.take? with
  | none => do
      let text ← (textCut .endOfInput start.byte start.byte).text source
      return (.ok ⟨⟨.endOfInput, text⟩, ⟨start, start⟩⟩, c)
  | some (first, c) => do
      let (found, c) ← cutKind source first start c
      match found with
      | .error e => return (.error e, c)
      | .ok kind =>
          let text ← (textCut kind start.byte c.position.byte).text source
          return (.ok ⟨⟨kind, text⟩, ⟨start, c.position⟩⟩, c)

section skipping

variable {c after : Cursor} {cs skipped : List Char} {p : Position}

theorem takeIfSplits {meets : Char → Bool} (taken : c.takeIf? meets = some after) :
    ∃ ch, meets ch = true ∧ c = ⟨ch :: after.rest, c.position⟩ ∧
      after.position = c.position.after ch := by
  obtain ⟨cs, p⟩ := c
  cases cs with
  | nil => cases taken
  | cons ch cs =>
    simp only [Cursor.takeIf?, Cursor.take?, Option.ite_none_right_eq_some] at taken
    obtain ⟨meeting, same⟩ := taken
    cases same
    exact ⟨ch, meeting, rfl, rfl⟩

theorem commentSplits (comment : c.comment? = some after) : ∃ text, c.rest = text ++ after.rest ∧
    after.position = c.position.afterAll text ∧ text ≠ [] ∧ Gap text after.rest := by
  obtain ⟨first, taken, comment⟩ := Option.bind_eq_some_iff.mp comment
  obtain ⟨second, taken', last⟩ := Option.bind_eq_some_iff.mp comment
  obtain rfl := Option.some.inj last
  obtain ⟨slash, same, split, place⟩ := takeIfSplits taken
  obtain ⟨slash', same', split', place'⟩ := takeIfSplits taken'
  obtain rfl := of_decide_eq_true same
  obtain rfl := of_decide_eq_true same'
  refine ⟨'/' :: '/' :: second.rest.takeWhile (· ≠ '\n'), ?_, ?_, List.cons_ne_nil _ _, ?_⟩
  · rw [split, split']
    exact congrArg ('/' :: '/' :: ·) List.takeWhile_append_dropWhile.symm
  · simp only [Cursor.takeWhile, place', place, Position.afterAllCons]
  · rw [← List.append_nil (second.rest.takeWhile (· ≠ '\n'))]
    refine .comment (fun member => ?_) (fun c head => ?_) .none
    · simpa using takeWhileAll _ _ _ member
    · simpa using dropWhileStops _ _ c head

theorem noComment (none : c.comment? = none) : ¬ ['/', '/'] <+: c.rest := by
  obtain ⟨cs, p⟩ := c
  rintro ⟨cs, rfl⟩
  cases none

theorem commentShrinks (comment : c.comment? = some after) :
    after.rest.length < c.rest.length := by
  obtain ⟨text, split, _, some, _⟩ := commentSplits comment
  rw [split, List.length_append]
  exact Nat.lt_add_of_pos_left (List.length_pos_iff.mpr some)

def cutNext (source : String) (c : Cursor) : Cutting (Except LexError Token × Cursor) :=
  match _h : (c.takeWhile isBlank).comment? with
  | some after => cutNext source after
  | none => cutToken source (c.takeWhile isBlank)
termination_by c.rest.length
decreasing_by exact Nat.lt_of_lt_of_le (commentShrinks _h) (dropWhileLength isBlank c.rest)

theorem skipGapBehind (gap : Gap skipped cs) (p : Position) :
    (Cursor.mk (skipped ++ cs) p).skipGap = (Cursor.mk cs (p.afterAll skipped)).skipGap := by
  obtain ⟨more, rest, rfl, later, code⟩ := gapSplits cs
  rw [← List.append_assoc, skipGapExact (gap.append later) code, skipGapExact later code,
    Position.afterAllAppend]

theorem nextBehind (gap : Gap skipped cs) (p : Position) :
    (Cursor.mk (skipped ++ cs) p).next = (Cursor.mk cs (p.afterAll skipped)).next := by
  simp only [Cursor.next, skipGapBehind gap]

theorem blankGap {rest : List Char} (blank : ∀ c ∈ cs, isBlank c = true) : Gap cs rest := by
  induction cs with
  | nil => exact .none
  | cons c cs ih =>
    obtain ⟨first, others⟩ := List.forall_mem_cons.mp blank
    exact .blank (blankIs.mp first) (ih others)

theorem nextPastBlanks (c : Cursor) : (c.takeWhile isBlank).next = c.next := by
  have gap : Gap (c.rest.takeWhile isBlank) (c.rest.dropWhile isBlank) :=
    blankGap (takeWhileAll isBlank c.rest)
  have same := nextBehind gap c.position
  rw [List.takeWhile_append_dropWhile] at same
  exact same.symm

theorem nextPastComment (comment : c.comment? = some after) : after.next = c.next := by
  obtain ⟨text, split, place, _, gap⟩ := commentSplits comment
  have same := nextBehind gap c.position
  rw [← split, ← place] at same
  exact same.symm

theorem codePastBlanks (none : (c.takeWhile isBlank).comment? = none) :
    Code (c.takeWhile isBlank).rest := by
  have plain := noComment none
  have stops := dropWhileStops isBlank c.rest
  revert plain
  cases rest : (c.takeWhile isBlank).rest with
  | nil => exact fun _ => .ended
  | cons ch cs =>
    refine fun plain => .code (fun blank => ?_) plain
    have failed := stops ch (by rw [show c.rest.dropWhile isBlank = ch :: cs from rest]; rfl)
    rw [blankIs.mpr blank] at failed
    cases failed

end skipping

section cuts

def TokenKind.isWord : TokenKind → Bool
  | identifier | functionWord | letWord | trueWord | falseWord | ifWord | elseWord
  | returnWord => true
  | _ => false

def wordCuts (kind : TokenKind) (start stop : Nat) : List Slice :=
  if kind.isWord then [⟨start, stop⟩] else []

def Token.cuts (t : Token) : List Slice :=
  wordCuts t.kind t.span.start.byte t.span.stop.byte ++
    [textCut t.kind t.span.start.byte t.span.stop.byte]

def cutsOf : Except LexError Token → List Slice
  | .ok t => t.cuts
  | .error _ => []

variable {source : String} {p : Position} {c ch d : Char} {cs rest : List Char}
  {kind : TokenKind} {found : Lexeme}

theorem signNoWord (sign : sign? c = some kind ∨ pairSign? c d = some kind) :
    kind.isWord = false := by
  rcases sign with sign | sign
  · unfold sign? at sign
    split at sign <;> first | (cases sign; rfl) | cases sign
  · unfold pairSign? at sign
    split at sign <;> first | (cases sign; rfl) | cases sign

theorem wordIsWord (text : String) : (Lexeme.ofWord text).kind.isWord = true := by
  unfold Lexeme.ofWord TokenKind.keyword?
  split <;> rfl

theorem cutMade (stands : Stands source p (cs ++ rest)) :
    Slice.text source ⟨p.byte, (p.afterAll cs).byte⟩ =
      ⟨[⟨p.byte, (p.afterAll cs).byte⟩], some (.ofList cs)⟩ := by
  rw [Slice.text, stands.slice]

def Scan.outcome (p : Position) (c : Char) (cs : List Char) :
    Scan → Except LexError TokenKind × Cursor
  | .lexeme found rest => (.ok found.kind, ⟨rest, p.afterAll found.sourceText.toList⟩)
  | .unterminated => (.error (.unterminatedString p), ⟨[], p.afterAll (c :: cs)⟩)
  | .unrecognized => (.error (.unrecognizedCharacter c p), ⟨cs, p.after c⟩)

def Scan.cuts (p : Position) : Scan → List Slice
  | .lexeme found _ => wordCuts found.kind p.byte (p.afterAll found.sourceText.toList).byte
  | .unterminated | .unrecognized => []

theorem pairTaken (c : Char) (reader : Cursor) : reader.pair? c =
    (reader.rest.head?.bind (pairSign? c)).map fun kind =>
      (kind, ⟨reader.rest.drop 1, reader.position.afterAll (reader.rest.take 1)⟩) := by
  obtain ⟨cs, p⟩ := reader
  cases cs with
  | nil => rfl
  | cons d cs =>
    change (pairSign? c d).bind _ = (pairSign? c d).map _
    cases pairSign? c d <;> rfl

def CutsKind (source : String) (p : Position) (c : Char) (cs : List Char) : Prop :=
  cutKind source c p ⟨cs, p.after c⟩ = ⟨(scan c cs).cuts p, some ((scan c cs).outcome p c cs)⟩

theorem cutPair (double : cs.head?.bind (pairSign? c) = some kind) : CutsKind source p c cs := by
  obtain ⟨d, head, sign⟩ := Option.bind_eq_some_iff.mp double
  obtain ⟨rest, rfl⟩ := List.head?_eq_some_iff.mp head
  have scans : scan c (d :: rest) = .lexeme ⟨kind, .ofList [c, d]⟩ rest := by
    simp only [scan, double]
    rfl
  have text : (Lexeme.sourceText ⟨kind, .ofList [c, d]⟩).toList = [c, d] := by
    rw [spelledPlain (pairSpelling sign), String.toList_ofList]
  simp only [CutsKind, cutKind, pairTaken, double, scans, Scan.cuts, Scan.outcome, wordCuts,
    signNoWord (.inr sign), text]
  rfl

section alone

variable (alone : cs.head?.bind (pairSign? c) = none)
include alone

theorem cutSingle (single : sign? c = some kind) : CutsKind source p c cs := by
  have scans : scan c cs = .lexeme ⟨kind, .ofList [c]⟩ cs := by simp only [scan, alone, single]
  have text : (Lexeme.sourceText ⟨kind, .ofList [c]⟩).toList = [c] := by
    rw [spelledPlain (signSpelling single), String.toList_ofList]
  simp only [CutsKind, cutKind, pairTaken, alone, single, scans, Scan.cuts, Scan.outcome, wordCuts,
    signNoWord (d := c) (.inl single), text]
  rfl

theorem cutString (quote : c = '"') : CutsKind source p c cs := by
  subst quote
  have single : sign? '"' = none := rfl
  cases closed : cs.dropWhile (· ≠ '"') with
  | nil =>
    have scans : scan '"' cs = .unterminated := by simp only [scan, alone, single, closed, if_true]
    have whole : cs.takeWhile (· ≠ '"') = cs := by
      have split := List.takeWhile_append_dropWhile (p := (· ≠ '"')) (l := cs)
      rwa [closed, List.append_nil] at split
    simp only [CutsKind, cutKind, pairTaken, alone, single, scans, Scan.cuts, Scan.outcome,
      Cursor.takeWhile, closed, whole, if_true]
    rfl
  | cons d rest =>
    have last := dropWhileStops (· ≠ '"') cs d (by rw [closed]; rfl)
    obtain rfl : d = '"' := by simpa using last
    have scans : scan '"' cs = .lexeme ⟨.string, .ofList (cs.takeWhile (· ≠ '"'))⟩ rest := by
      simp only [scan, alone, single, closed, if_true]
    simp only [CutsKind, cutKind, pairTaken, alone, single, scans, Scan.cuts, Scan.outcome,
      stringText, Cursor.takeWhile, closed, Position.afterAllCons, Position.afterAllAppend, if_true]
    rfl

variable (single : sign? c = none) (quote : c ≠ '"')
include single quote

theorem cutInteger (digit : c.isDigit) : CutsKind source p c cs := by
  have scans : scan c cs = .lexeme ⟨.integer, .ofList (c :: cs.takeWhile Char.isDigit)⟩
      (cs.dropWhile Char.isDigit) := by
    simp only [scan, alone, single, quote, digit, if_true, if_false]
  simp only [CutsKind, cutKind, pairTaken, alone, single, scans, Scan.cuts, Scan.outcome,
    Lexeme.sourceText, String.toList_ofList, quote, digit, if_true, if_false]
  rfl

theorem cutWord (stands : Stands source p (c :: cs)) (word : isWordStart c) :
    CutsKind source p c cs := by
  have digit := (wordNoDigit word).2
  have scans : scan c cs = .lexeme (.ofWord (.ofList (c :: cs.takeWhile isWordPart)))
      (cs.dropWhile isWordPart) := by
    simp [scan, alone, single, quote, digit, word]
  have whole : Stands source p (c :: cs.takeWhile isWordPart ++ cs.dropWhile isWordPart) := by
    rwa [List.cons_append, List.takeWhile_append_dropWhile]
  have cut := cutMade whole
  rw [Position.afterAllCons] at cut
  simp only [CutsKind, cutKind, pairTaken, alone, single, scans, Scan.cuts, Scan.outcome, wordCuts,
    wordIsWord, wordPlain, String.toList_ofList, quote, digit, word, Cursor.takeWhile, cut,
    Bool.false_eq_true, if_true, if_false]
  rfl

theorem cutForeign (digit : ¬ c.isDigit) (word : ¬ isWordStart c) : CutsKind source p c cs := by
  have scans : scan c cs = .unrecognized := by simp [scan, alone, single, quote, digit, word]
  simp only [CutsKind, cutKind, pairTaken, alone, single, scans, Scan.cuts, Scan.outcome, quote,
    digit, word, if_false]
  rfl

end alone

theorem cutKindScan (stands : Stands source p (c :: cs)) : CutsKind source p c cs := by
  cases double : cs.head?.bind (pairSign? c) with
  | some kind => exact cutPair double
  | none =>
    cases single : sign? c with
    | some kind => exact cutSingle double single
    | none =>
      by_cases quote : c = '"'
      · exact cutString double quote
      by_cases digit : c.isDigit
      · exact cutInteger double single quote digit
      by_cases word : isWordStart c
      · exact cutWord double single quote stands word
      · exact cutForeign double single quote digit word

end cuts

section calls

variable {source : String} {p : Position} {c : Cursor} {ch : Char} {cs rest : List Char}
  {found : Lexeme} {t : Token} {r : Except LexError Token}

theorem plainText (plain : found.kind ≠ .string) : found.sourceText = found.text := by
  unfold Lexeme.sourceText
  split
  · rename_i kind
    exact absurd kind plain
  · rfl

theorem quotedText (string : found.kind = .string) :
    found.sourceText.toList = '"' :: (found.text.toList ++ ['"']) := by
  obtain ⟨kind, text⟩ := found
  obtain rfl : kind = .string := string
  rw [← stringText, String.ofList_toList]

theorem insideQuotes (string : found.kind = .string) (p : Position) :
    p.byte + 1 = (p.after '"').byte ∧ (p.afterAll found.sourceText.toList).byte - 1 =
      ((p.after '"').afterAll found.text.toList).byte := by
  have quote : '"'.utf8Size = 1 := rfl
  refine ⟨by rw [afterByte, quote], ?_⟩
  rw [quotedText string, Position.afterAllCons, Position.afterAllAppend, Position.afterAllCons,
    Position.afterAllNil, afterByte _ '"', quote, Nat.add_sub_cancel]

theorem textSlice (stands : Stands source p (found.sourceText.toList ++ rest)) :
    let cut := textCut found.kind p.byte (p.afterAll found.sourceText.toList).byte
    cut.text source = ⟨[cut], some found.text⟩ := by
  unfold textCut
  split
  · rename_i string
    obtain ⟨first, last⟩ := insideQuotes string p
    rw [quotedText string, List.cons_append, List.append_assoc] at stands
    have inner : Stands source (p.after '"') (found.text.toList ++ (['"'] ++ rest)) :=
      @Stands.past source p ['"'] _ stands
    simp only [first, last, cutMade inner, String.ofList_toList]
  · rename_i plain
    rw [plainText plain] at stands ⊢
    simp only [cutMade stands, String.ofList_toList]

theorem cutTokenExact (stands : Stands source c.position c.rest) (code : Code c.rest) :
    cutToken source c = ⟨cutsOf c.next.1, some c.next⟩ := by
  obtain ⟨cs, p⟩ := c
  have none : (Cursor.mk cs p).skipGap = ⟨cs, p⟩ := skipGapExact .none code p
  cases cs with
  | nil =>
    have text : (textCut .endOfInput p.byte p.byte).text source = ⟨_, some ""⟩ :=
      @textSlice source p [] .endOfInput stands
    simp only [cutToken, Cursor.take?, text, Cursor.next, none]
    rfl
  | cons ch cs =>
    have kind : cutKind source ch p ⟨cs, p.after ch⟩ = _ := cutKindScan stands
    simp only [cutToken, Cursor.take?, kind, Cursor.next, none]
    have result := scanned ch cs
    generalize scan ch cs = outcome at result
    cases result with
    | @lexeme found rest split =>
      have text := textSlice (split ▸ stands)
      simp only [Scan.cuts, Scan.outcome, bind, text]
      rfl
    | unterminated => rfl
    | unrecognized => rfl

theorem cutNextComment {after : Cursor} (comment : (c.takeWhile isBlank).comment? = some after) :
    cutNext source c = cutNext source after := by
  rw [cutNext]
  split <;> simp_all

theorem cutNextPlain (none : (c.takeWhile isBlank).comment? = none) :
    cutNext source c = cutToken source (c.takeWhile isBlank) := by
  rw [cutNext]
  split <;> simp_all

theorem cutNextExact (stands : Stands source c.position c.rest) :
    cutNext source c = ⟨cutsOf c.next.1, some c.next⟩ := by
  -- Blanks and comments leave what the call gives as it is.
  induction size : c.rest.length using Nat.strongRecOn generalizing c with
  | ind size ih =>
  subst size
  have past : Stands source (c.takeWhile isBlank).position (c.takeWhile isBlank).rest := by
    rw [← List.takeWhile_append_dropWhile (p := isBlank) (l := c.rest)] at stands
    exact stands.past
  cases comment : (c.takeWhile isBlank).comment? with
  | some after =>
    obtain ⟨text, split, place, _⟩ := commentSplits comment
    have shorter := Nat.lt_of_lt_of_le (commentShrinks comment) (dropWhileLength isBlank c.rest)
    rw [split] at past
    rw [cutNextComment comment, ih _ shorter (place ▸ past.past) rfl, nextPastComment comment,
      nextPastBlanks]
  | none =>
    rw [cutNextPlain comment, cutTokenExact past (codePastBlanks comment), nextPastBlanks]

theorem textSound (stands : Stands source p (found.sourceText.toList ++ rest)) :
    (textCut found.kind p.byte (p.afterAll found.sourceText.toList).byte).Sound source := by
  have made := congrArg Cutting.outcome (textSlice stands)
  exact sliceExactly.mp (Option.isSome_of_eq_some made)

theorem cutsSound (stands : Stands source c.position c.rest) :
    ∀ cut ∈ cutsOf c.next.1, cut.Sound source := by
  obtain ⟨taken, rest, gives, split, calls, next⟩ := c.calls
  rw [split] at stands
  rw [next]
  cases calls with
  | ended =>
    have past : Stands source (c.position.afterAll taken) ([] ++ []) := stands.past
    exact List.forall_mem_singleton.mpr (@textSound source _ [] .endOfInput past)
  | @token skipped found rest =>
    rw [List.append_assoc] at stands
    have whole : Slice.Sound source ⟨(c.position.afterAll skipped).byte,
        ((c.position.afterAll skipped).afterAll found.sourceText.toList).byte⟩ :=
      sliceExactly.mp (Option.isSome_of_eq_some stands.past.slice)
    refine List.forall_mem_append.mpr ⟨fun cut member => ?_, ?_⟩
    · unfold wordCuts at member
      split at member
      · exact List.mem_singleton.mp member ▸ whole
      · cases member
    · exact List.forall_mem_singleton.mpr (textSound stands.past)
  | unterminated | unrecognized => exact List.forall_mem_nil _

end calls

section shrinking

variable {source : String} {first : Char} {p : Position} {c after : Cursor} {t : Token}
  {r : Except LexError TokenKind}

theorem takeIfShrinks {meets : Char → Bool} (taken : c.takeIf? meets = some after) :
    after.rest.length ≤ c.rest.length := by
  obtain ⟨ch, _, same, _⟩ := takeIfSplits taken
  rw [same]
  exact Nat.le_add_right _ _

theorem cutKindShrinks (gives : (cutKind source first p c).outcome = some (r, after)) :
    after.rest.length ≤ c.rest.length := by
  unfold cutKind at gives
  rw [pairTaken] at gives
  split at gives
  · rename_i double
    obtain ⟨kind, _, same⟩ := Option.map_eq_some_iff.mp double
    cases same
    cases gives
    exact (List.drop_sublist 1 c.rest).length_le
  split at gives
  · cases gives
    exact Nat.le_refl _
  split at gives
  · dsimp only at gives
    split at gives
    · rename_i quote
      cases gives
      exact (takeIfShrinks quote).trans (dropWhileLength _ c.rest)
    · cases gives
      exact dropWhileLength _ c.rest
  split at gives
  · cases gives
    exact dropWhileLength _ c.rest
  split at gives
  · obtain ⟨word, _, last⟩ := bindOutcome gives
    cases last
    exact dropWhileLength _ c.rest
  · cases gives
    exact Nat.le_refl _

theorem cutTokenShrinks (gives : (cutToken source c).outcome = some (.ok t, after))
    (inside : t.kind ≠ .endOfInput) : after.rest.length < c.rest.length := by
  obtain ⟨cs, p⟩ := c
  cases cs with
  | nil =>
    obtain ⟨text, _, last⟩ := bindOutcome gives
    cases last
    exact absurd rfl inside
  | cons ch cs =>
    obtain ⟨⟨r, behind⟩, found, later⟩ := bindOutcome gives
    have bound := cutKindShrinks found
    cases r with
    | error e => cases later
    | ok kind =>
      obtain ⟨text, _, last⟩ := bindOutcome later
      cases last
      exact Nat.lt_succ_of_le bound

theorem cutNextShrinks (gives : (cutNext source c).outcome = some (.ok t, after))
    (inside : t.kind ≠ .endOfInput) : after.rest.length < c.rest.length := by
  fun_induction cutNext source c with
  | case1 c behind comment ih =>
    exact (ih gives).trans_le ((commentShrinks comment).le.trans (dropWhileLength isBlank c.rest))
  | case2 c none =>
    exact (cutTokenShrinks gives inside).trans_le (dropWhileLength isBlank c.rest)

end shrinking

section runs

def cutSteps (source : String) : Nat → Cursor → Cutting (List (Except LexError Token))
  | 0, _ => pure []
  | n + 1, c => do
      let (r, c) ← cutNext source c
      return r :: (← cutSteps source n c)

def cutTokens (source : String) (c : Cursor) : Cutting (Except LexError (List Token)) :=
  let call := cutNext source c
  match _h : call.outcome with
  | none => ⟨call.cuts, none⟩
  | some (.error e, _) => ⟨call.cuts, some (.error e)⟩
  | some (.ok t, after) =>
      if _inside : t.kind = .endOfInput then ⟨call.cuts, some (.ok [t])⟩
      else
        let later := cutTokens source after
        ⟨call.cuts ++ later.cuts, later.outcome.map (·.map (t :: ·))⟩
termination_by c.rest.length
decreasing_by exact cutNextShrinks _h _inside

def cutPull (source : String) (s : TokenStream) :
    Cutting (Option (Except LexError Token) × TokenStream) :=
  if s.finished then pure (none, s)
  else do
    let (r, after) ← cutNext source s.reader
    match r with
    | .ok t => return (some (.ok t), ⟨after, t.kind = .endOfInput⟩)
    | .error e => return (some (.error e), ⟨after, true⟩)

def cutPulls (source : String) : Nat → TokenStream → Cutting (List (Option (Except LexError Token)))
  | 0, _ => pure []
  | n + 1, s => do
      let (item, s) ← cutPull source s
      return item :: (← cutPulls source n s)

/- A reader that cuts its texts out comes to what a reader does that keeps the characters, and all
its cuts can be made: in one call, in any number of them, in reading on to the end, and in a stream
that starts there. The cut for a string leaves out the two quotes and nothing else. -/
structure CutsSoundly (source : String) (c : Cursor) : Prop where
  call : cutNext source c = ⟨cutsOf c.next.1, some c.next⟩
  sound : ∀ cut ∈ cutsOf c.next.1, cut.Sound source
  quoted : ∀ t, c.next.1 = .ok t → t.kind = .string →
    t.cuts = [⟨t.span.start.byte + 1, t.span.stop.byte - 1⟩] ∧
    t.span.start.byte + 1 ≤ t.span.stop.byte - 1 ∧
    slice? source (t.span.start.byte + 1) (t.span.stop.byte - 1) = some t.text ∧
    slice? source t.span.start.byte t.span.stop.byte = some ("\"" ++ t.text ++ "\"")
  further : ∀ k, Gives source (cutSteps source k c) (c.steps k)
  whole : Gives source (cutTokens source c) c.tokens
  stream : ∀ k finished,
    Gives source (cutPulls source k ⟨c, finished⟩) (TokenStream.pulls k ⟨c, finished⟩)

variable {source : String} {c : Cursor} {t : Token}

theorem cutNextGives (stands : Stands source c.position c.rest) :
    Gives source (cutNext source c) c.next := by
  rw [cutNextExact stands]
  exact ⟨rfl, cutsSound stands⟩

theorem cutStepsGives (k : Nat) (stands : Stands source c.position c.rest) :
    Gives source (cutSteps source k c) (c.steps k) := by
  induction k generalizing c with
  | zero => exact .pure source []
  | succ k ih => exact (cutNextGives stands).bind ((ih stands.next).bind (.pure source _))

theorem cutTokensFault {e : LexError} {after : Cursor}
    (call : (cutNext source c).outcome = some (.error e, after)) :
    cutTokens source c = ⟨(cutNext source c).cuts, some (.error e)⟩ := by
  rw [cutTokens]
  split <;> simp_all

theorem cutTokensEnd {after : Cursor} (call : (cutNext source c).outcome = some (.ok t, after))
    (last : t.kind = .endOfInput) :
    cutTokens source c = ⟨(cutNext source c).cuts, some (.ok [t])⟩ := by
  rw [cutTokens]
  split <;> simp_all

theorem cutTokensMore {after : Cursor} (call : (cutNext source c).outcome = some (.ok t, after))
    (inside : t.kind ≠ .endOfInput) : cutTokens source c =
      ⟨(cutNext source c).cuts ++ (cutTokens source after).cuts,
        (cutTokens source after).outcome.map (·.map (t :: ·))⟩ := by
  rw [cutTokens]
  split <;> simp_all

theorem cutTokensGives (stands : Stands source c.position c.rest) :
    Gives source (cutTokens source c) c.tokens := by
  obtain ⟨ts, r, reading⟩ := Reading.somehow c
  induction reading with
  | @stops c after r next final =>
    obtain ⟨call, sound⟩ := next ▸ cutNextGives stands
    cases final with
    | fault =>
      rw [cutTokensFault call, tokensFault next]
      exact ⟨rfl, sound⟩
    | ended last =>
      rw [cutTokensEnd call last, tokensEnd next last]
      exact ⟨rfl, sound⟩
  | @more c after t ts r next inside _ ih =>
    obtain ⟨call, sound⟩ := next ▸ cutNextGives stands
    have behind := stands.next
    rw [next] at behind
    have later := ih behind
    rw [cutTokensMore call inside, tokensMore next inside, later.outcome]
    exact ⟨rfl, List.forall_mem_append.mpr ⟨sound, later.sound⟩⟩

theorem cutPullGives (s : TokenStream) (stands : Stands source s.reader.position s.reader.rest) :
    Gives source (cutPull source s) s.next := by
  obtain ⟨reader, finished⟩ := s
  cases finished with
  | true => exact .pure source _
  | false =>
    have call := cutNextGives stands
    rcases next : reader.next with ⟨r, after⟩
    dsimp only at call
    rw [next] at call
    cases r with
    | ok t =>
      have item : (TokenStream.mk reader false).next =
        (some (.ok t), ⟨after, t.kind = .endOfInput⟩) := by simp [TokenStream.next, next]
      rw [item]
      exact call.bind (.pure source _)
    | error e =>
      rw [nextFinal next .fault]
      exact call.bind (.pure source _)

theorem TokenStream.nextStands (s : TokenStream)
    (stands : Stands source s.reader.position s.reader.rest) :
    Stands source s.next.2.reader.position s.next.2.reader.rest := by
  obtain ⟨reader, finished⟩ := s
  cases finished with
  | true => exact stands
  | false =>
    have behind : (TokenStream.mk reader false).next.2.reader = reader.next.2 := by
      unfold TokenStream.next
      rcases reader.next with ⟨_ | _, after⟩ <;> rfl
    rw [behind]
    exact stands.next

theorem cutPullsGives (k : Nat) (s : TokenStream)
    (stands : Stands source s.reader.position s.reader.rest) :
    Gives source (cutPulls source k s) (s.pulls k) := by
  induction k generalizing s with
  | zero => exact .pure source []
  | succ k ih =>
    exact (cutPullGives s stands).bind ((ih _ (s.nextStands stands)).bind (.pure source _))

theorem nextBody (stands : Stands source c.position c.rest) (ok : c.next.1 = .ok t)
    (string : t.kind = .string) :
    slice? source (t.span.start.byte + 1) (t.span.stop.byte - 1) = some t.text := by
  obtain ⟨taken, rest, gives, split, calls, next⟩ := c.calls
  rw [split] at stands
  rw [next] at ok
  cases calls with
  | @token skipped found rest =>
    cases ok
    rw [List.append_assoc] at stands
    have text := textSlice stands.past
    rw [textCut, if_pos string] at text
    exact congrArg Cutting.outcome text
  | ended =>
    cases ok
    cases string
  | unterminated | unrecognized => cases ok

theorem cutsSoundly (stands : Stands source c.position c.rest) : CutsSoundly source c where
  call := cutNextExact stands
  sound := cutsSound stands
  further k := cutStepsGives k stands
  whole := cutTokensGives stands
  stream k finished := cutPullsGives k ⟨c, finished⟩ stands
  quoted t ok string := by
    have cuts : t.cuts = [⟨t.span.start.byte + 1, t.span.stop.byte - 1⟩] := by
      rw [Token.cuts, string]
      rfl
    have sound := cutsSound stands
    rw [ok, cutsOf, cuts] at sound
    refine ⟨cuts, (List.forall_mem_singleton.mp sound).ordered, nextBody stands ok string, ?_⟩
    rw [nextText stands ok, Lexeme.sourceText, string]
    rfl

end runs

/-- Wherever any calls have left a reader of a text, faults among them, none of the cuts that it
goes on to make can fail, and it comes to the same as a reader that keeps the characters. -/
theorem cutsNeverFail (source : String) (n : Nat) :
    CutsSoundly source ((Cursor.ofString source).past n) :=
  cutsSoundly (pastStands source n)

example : (cutToken "\"\" é" (.ofString "\"\" é")).cuts = [⟨1, 1⟩] := by decide +kernel

end Scriptlet

import Scriptlet.Proofs.Lexical

/-! Scanning takes the longest lexeme.
It fails only where the grammar has a fault of the same kind, and what the grammar has at a place is
unique; so scanning finds exactly that. -/
namespace Scriptlet

inductive Shape : Char → List Char → Prop where
  | quoted {body} (inner : '"' ∉ body) : Shape '"' (body ++ ['"'])
  | digits {c cs} (first : c.isDigit) (others : ∀ d ∈ cs, d.isDigit) : Shape c cs
  | word {c cs} (first : isWordStart c) (others : ∀ d ∈ cs, isWordPart d) : Shape c cs
  | single {c} (sign : (sign? c).isSome) : Shape c []
  | pair {c d} (sign : (pairSign? c d).isSome) : Shape c [d]

theorem lexicalShape {kind text} (lexical : Lexical kind text) :
    ∃ c cs, text = c :: cs ∧ Shape c cs := by
  cases lexical with
  | @spelled kind text spelling =>
    cases kind <;> simp only [TokenKind.spelling?, Option.some.injEq, reduceCtorEq] at spelling <;>
      subst spelling <;> simp only [String.reduceToList] <;> refine ⟨_, _, rfl, ?_⟩ <;>
      first
      | exact .single (by decide)
      | exact .pair (by decide)
      | exact .word (by decide) (List.all_eq_true.mp (by decide))
  | name first others _ =>
    exact ⟨_, _, rfl, .word (nameStartIs.mpr first) fun d member => namePartIs.mpr (others d member)⟩
  | integer digits =>
    obtain ⟨first, others⟩ := List.forall_mem_cons.mp digits
    exact ⟨_, _, rfl, .digits (digitIs.mpr first) fun d member => digitIs.mpr (others d member)⟩
  | string inner => exact ⟨_, _, rfl, .quoted inner⟩

theorem prefixShape {kind longer} {c : Char} {cs : List Char} (lexical : Lexical kind longer)
    (within : longer <+: c :: cs) : ∃ ds, longer = c :: ds ∧ Shape c ds ∧ ds <+: cs := by
  obtain ⟨d, ds, rfl, shape⟩ := lexicalShape lexical
  obtain ⟨rfl, tail⟩ := List.cons_prefix_cons.mp within
  exact ⟨ds, rfl, shape, tail⟩

section signs

variable {c d : Char} {kind : TokenKind}

theorem pairSpelling (sign : pairSign? c d = some kind) :
    kind.spelling? = some (.ofList [c, d]) := by
  unfold pairSign? at sign
  split at sign <;> first | (cases sign; rfl) | cases sign

theorem signSpelling (sign : sign? c = some kind) : kind.spelling? = some (.ofList [c]) := by
  unfold sign? at sign
  split at sign <;> first | (cases sign; rfl) | cases sign

theorem signHead (sign : (sign? c).isSome ∨ ∃ d, (pairSign? c d).isSome) :
    c ≠ '"' ∧ c.isDigit = false ∧ isWordStart c = false := by
  rcases sign with sign | ⟨d, sign⟩
  · unfold sign? at sign
    split at sign <;> first | decide | cases sign
  · unfold pairSign? at sign
    split at sign <;> first | decide | cases sign

theorem wordNoDigit (word : isWordStart c) : c ≠ '"' ∧ c.isDigit = false := by
  constructor
  · rintro rfl
    exact absurd word (by decide)
  · have start := nameStartIs.mp word
    rw [← Bool.not_eq_true, digitIs]
    rintro ⟨low, high⟩
    simp only [NameStart, Char.le_def] at start low high
    rcases start with ⟨above, _⟩ | ⟨above, _⟩ | rfl | rfl
    · exact absurd (UInt32.le_trans above high) (by decide)
    · exact absurd (UInt32.le_trans above high) (by decide)
    · exact absurd high (by decide)
    · exact absurd low (by decide)

theorem keywordSpelling {text : String} (word : TokenKind.keyword? text = some kind) :
    kind.spelling? = some text := by
  unfold TokenKind.keyword? at word
  split at word <;> first | (cases word; rfl) | cases word

theorem spelledKeyword {text : String} {cs : List Char} (first : isWordStart c)
    (split : text.toList = c :: cs) (spelling : kind.spelling? = some text) :
    TokenKind.keyword? text = some kind := by
  cases kind <;> cases spelling <;> first
    | rfl
    | (simp only [String.reduceToList, List.cons.injEq] at split
       obtain ⟨rfl, _⟩ := split
       exact absurd first (by decide))

end signs

section scanning

variable {c : Char} {cs rest text : List Char} {kind : TokenKind} {found : Lexeme}

theorem takeWhileAll (p : Char → Bool) (cs : List Char) : ∀ d ∈ cs.takeWhile p, p d :=
  fun d member => List.all_eq_true.mp List.all_takeWhile d member

theorem dropWhileStops (p : Char → Bool) (cs : List Char) :
    ∀ d ∈ (cs.dropWhile p).head?, p d = false := by
  intro d head
  have stop := List.head?_dropWhile_not p cs
  rw [Option.mem_def.mp head] at stop
  simpa using stop

theorem takeWhilePrefix {p : Char → Bool} (within : text <+: cs) (all : ∀ d ∈ text, p d) :
    text.length ≤ (cs.takeWhile p).length := by
  obtain ⟨more, rfl⟩ := within
  rw [List.takeWhile_append_of_pos all, List.length_append]
  exact Nat.le_add_right _ _

theorem quotedPrefix (inner : '"' ∉ text) (within : text ++ ['"'] <+: cs) :
    text = cs.takeWhile (· ≠ '"') := by
  obtain ⟨more, rfl⟩ := within
  have all : ∀ d ∈ text, decide (d ≠ '"') = true := by
    intro d member
    exact decide_eq_true fun quote => inner (quote ▸ member)
  rw [List.append_assoc, List.takeWhile_append_of_pos all]
  simp

theorem spelledPlain {text : String} (spelling : kind.spelling? = some text) :
    Lexeme.sourceText ⟨kind, text⟩ = text := by
  cases kind <;> first | rfl | cases spelling

end scanning

section shapes

variable {c : Char} {cs : List Char}

theorem Shape.ofSign (shape : Shape c cs)
    (sign : (sign? c).isSome ∨ ∃ d, (pairSign? c d).isSome) :
    cs = [] ∨ ∃ d, cs = [d] ∧ (pairSign? c d).isSome := by
  obtain ⟨quote, digit, word⟩ := signHead sign
  cases shape with
  | single => exact .inl rfl
  | pair double => exact .inr ⟨_, rfl, double⟩
  | quoted | digits | word => simp_all

theorem Shape.ofQuote (shape : Shape '"' cs) : ∃ body, '"' ∉ body ∧ cs = body ++ ['"'] := by
  cases shape with
  | quoted inner => exact ⟨_, inner, rfl⟩
  | digits first | word first => exact absurd first (by decide)
  | single sign | pair sign => cases sign

theorem quotedOnce {ds rest : List Char} (one : Shape '"' cs) (other : Shape '"' ds)
    (within : ds <+: cs ++ rest) : ds = cs := by
  obtain ⟨body, inner, rfl⟩ := one.ofQuote
  obtain ⟨body', inner', rfl⟩ := other.ofQuote
  rw [quotedPrefix inner' within, ← quotedPrefix inner (List.prefix_append _ rest)]

theorem Shape.ofDigit (shape : Shape c cs) (digit : c.isDigit) : ∀ d ∈ cs, d.isDigit := by
  cases shape with
  | digits _ others => exact others
  | quoted => exact absurd digit (by decide)
  | word first => exact absurd digit (by simp [(wordNoDigit first).2])
  | single sign => exact absurd digit (by simp [(signHead (.inl sign)).2.1])
  | pair sign => exact absurd digit (by simp [(signHead (.inr ⟨_, sign⟩)).2.1])

theorem Shape.ofWord (shape : Shape c cs) (word : isWordStart c) : ∀ d ∈ cs, isWordPart d := by
  cases shape with
  | word _ others => exact others
  | quoted => exact absurd word (by decide)
  | digits first => exact absurd first (by simp [(wordNoDigit word).2])
  | single sign => exact absurd word (by simp [(signHead (.inl sign)).2.2])
  | pair sign => exact absurd word (by simp [(signHead (.inr ⟨_, sign⟩)).2.2])

end shapes

section longest

variable {c d : Char} {cs : List Char} {kind : TokenKind}

theorem longestPair (sign : pairSign? c d = some kind) : Longest ⟨kind, .ofList [c, d]⟩ cs := by
  have spelling := pairSpelling sign
  constructor
  · rw [spelledPlain spelling]
    exact .spelled spelling
  · intro other longer lexical within
    rw [spelledPlain spelling, String.toList_ofList] at within ⊢
    obtain ⟨ds, rfl, shape, _⟩ := prefixShape lexical within
    obtain rfl | ⟨e, rfl, _⟩ := shape.ofSign (.inr ⟨d, Option.isSome_of_mem sign⟩) <;> simp

theorem longestSingle (sign : sign? c = some kind) (alone : cs.head?.bind (pairSign? c) = none) :
    Longest ⟨kind, .ofList [c]⟩ cs := by
  have spelling := signSpelling sign
  constructor
  · rw [spelledPlain spelling]
    exact .spelled spelling
  · intro other longer lexical within
    rw [spelledPlain spelling, String.toList_ofList] at within ⊢
    obtain ⟨ds, rfl, shape, tail⟩ := prefixShape lexical within
    obtain rfl | ⟨e, rfl, double⟩ := shape.ofSign (.inl (Option.isSome_of_mem sign))
    · simp
    · obtain ⟨rest, rfl⟩ : [e] <+: cs := tail
      simp [show pairSign? c e = none from alone] at double

theorem stringText (body : List Char) :
    (Lexeme.sourceText ⟨.string, .ofList body⟩).toList = '"' :: (body ++ ['"']) := by
  simp [Lexeme.sourceText, toString]

theorem longestString {body : List Char} (inner : '"' ∉ body) :
    Longest ⟨.string, .ofList body⟩ cs := by
  constructor
  · rw [stringText]
    exact .string inner
  · intro other longer lexical within
    rw [stringText, List.cons_append] at within
    rw [stringText]
    obtain ⟨ds, rfl, shape, tail⟩ := prefixShape lexical within
    obtain rfl := quotedOnce (.quoted inner) shape tail
    exact Nat.le_refl _

theorem longestInteger (digit : c.isDigit) :
    Longest ⟨.integer, .ofList (c :: cs.takeWhile Char.isDigit)⟩ (cs.dropWhile Char.isDigit) := by
  constructor
  · simp only [Lexeme.sourceText, String.toList_ofList]
    refine .integer fun d member => digitIs.mp ?_
    rcases List.mem_cons.mp member with rfl | member
    · exact digit
    · exact takeWhileAll Char.isDigit cs d member
  · intro other longer lexical within
    simp only [Lexeme.sourceText, String.toList_ofList, List.cons_append,
      List.takeWhile_append_dropWhile, List.length_cons] at within ⊢
    obtain ⟨ds, rfl, shape, tail⟩ := prefixShape lexical within
    exact Nat.succ_le_succ (takeWhilePrefix tail (shape.ofDigit digit))

theorem wordPlain (text : String) : (Lexeme.ofWord text).sourceText = text := by
  unfold Lexeme.ofWord TokenKind.keyword?
  split <;> rfl

theorem wordLexical {text : String} (split : text.toList = c :: cs) (word : isWordStart c)
    (others : ∀ d ∈ cs, isWordPart d) : Lexical (Lexeme.ofWord text).kind text.toList := by
  cases reserved : TokenKind.keyword? text with
  | some kind =>
    simp only [Lexeme.ofWord, reserved, Option.getD_some]
    exact .spelled (keywordSpelling reserved)
  | none =>
    simp only [Lexeme.ofWord, reserved, Option.getD_none, split]
    refine .name (nameStartIs.mp word) (fun d member => namePartIs.mp (others d member)) ?_
    intro kind spelling
    rw [← split, String.ofList_toList] at spelling
    exact nomatch reserved.symm.trans (spelledKeyword word split spelling)

theorem longestWord (word : isWordStart c) :
    Longest (.ofWord (.ofList (c :: cs.takeWhile isWordPart))) (cs.dropWhile isWordPart) := by
  constructor
  · rw [wordPlain]
    exact wordLexical String.toList_ofList word (takeWhileAll isWordPart cs)
  · intro other longer lexical within
    simp only [wordPlain, String.toList_ofList, List.cons_append,
      List.takeWhile_append_dropWhile, List.length_cons] at within ⊢
    obtain ⟨ds, rfl, shape, tail⟩ := prefixShape lexical within
    exact Nat.succ_le_succ (takeWhilePrefix tail (shape.ofWord word))

end longest

section scans

variable {c : Char} {cs : List Char}

inductive Scanned (c : Char) (cs : List Char) : Scan → Prop where
  | lexeme {found rest} (split : c :: cs = found.sourceText.toList ++ rest)
      (longest : Longest found rest) : Scanned c cs (.lexeme found rest)
  | unterminated (quote : c = '"') (unclosed : '"' ∉ cs) : Scanned c cs .unterminated
  | unrecognized (foreign : Blank c ∨ Foreign c cs) : Scanned c cs .unrecognized

theorem doubledOnly {d : Char} (double : (pairSign? c d).isSome) (single : sign? c = none) :
    c = '&' ∨ c = '|' := by
  unfold pairSign? at double
  split at double <;> first | decide | cases single | cases double

theorem foreignOrBlank (alone : cs.head?.bind (pairSign? c) = none) (single : sign? c = none)
    (quote : c ≠ '"') (digit : ¬ c.isDigit) (word : ¬ isWordStart c) : Blank c ∨ Foreign c cs := by
  by_cases doubled : c = '&' ∨ c = '|'
  · refine .inr (.lone doubled fun head => ?_)
    rw [head] at alone
    rcases doubled with rfl | rfl <;> cases alone
  · by_cases blank : Blank c
    · exact .inl blank
    · refine .inr (.unknown ?_ ?_)
      · intro kind text lexical
        obtain ⟨_, _, same, shape⟩ := lexicalShape lexical
        obtain ⟨rfl, rfl⟩ := List.cons.inj same
        cases shape with
        | quoted => exact quote rfl
        | digits first => exact digit first
        | word first => exact word first
        | single sign => simp [single] at sign
        | pair double => exact doubled (doubledOnly double single)
      · intro text rest gap
        cases gap with
        | blank kind => exact blank kind
        | comment => cases single

theorem quoteSplit {d : Char} {rest : List Char}
    (closed : cs.dropWhile (· ≠ '"') = d :: rest) :
    cs = cs.takeWhile (· ≠ '"') ++ '"' :: rest := by
  have last := List.head?_dropWhile_not (· ≠ '"') cs
  rw [closed] at last
  obtain rfl : d = '"' := by simpa using last
  rw [← closed, List.takeWhile_append_dropWhile]

theorem quoteInner (cs : List Char) : '"' ∉ cs.takeWhile (· ≠ '"') := fun member => by
  simpa using takeWhileAll _ cs _ member

theorem scanned (c : Char) (cs : List Char) : Scanned c cs (scan c cs) := by
  unfold scan
  split
  · rename_i kind sign
    obtain ⟨d, head, sign⟩ := Option.bind_eq_some_iff.mp sign
    obtain ⟨rest, rfl⟩ := List.head?_eq_some_iff.mp head
    refine .lexeme ?_ (longestPair sign)
    rw [List.take_succ_cons, List.take_zero, spelledPlain (pairSpelling sign),
      String.toList_ofList]
    rfl
  · rename_i alone
    split
    · rename_i kind sign
      refine .lexeme ?_ (longestSingle sign alone)
      rw [spelledPlain (signSpelling sign), String.toList_ofList]
      rfl
    · rename_i single
      split
      · rename_i quote
        split
        · rename_i unclosed
          have whole := List.takeWhile_append_dropWhile (p := (· ≠ '"')) (l := cs)
          rw [unclosed, List.append_nil] at whole
          exact .unterminated quote (whole ▸ quoteInner cs)
        · rename_i closed
          refine .lexeme ?_ (longestString (quoteInner cs))
          rw [stringText, quote, List.cons_append, List.append_assoc]
          exact congrArg _ (quoteSplit closed)
      · rename_i quote
        split
        · rename_i digit
          refine .lexeme ?_ (longestInteger digit)
          simp [Lexeme.sourceText]
        · rename_i digit
          split
          · rename_i word
            refine .lexeme ?_ (longestWord word)
            simp [wordPlain]
          · rename_i word
            exact .unrecognized (foreignOrBlank alone single quote digit word)

end scans

section uniqueness

variable {c : Char} {cs rest rest' : List Char} {found found' : Lexeme} {text : List Char}

theorem spellingScan {kind : TokenKind} {text : String} (spelling : kind.spelling? = some text) :
    text.toList.head?.map (scan · text.toList.tail) = some (.lexeme ⟨kind, text⟩ []) := by
  cases kind <;> cases spelling <;> decide

theorem spellingOnce {kind kind' : TokenKind} {text : String} (one : kind.spelling? = some text)
    (other : kind'.spelling? = some text) : kind = kind' := by
  have same := (spellingScan one).symm.trans (spellingScan other)
  simpa using same

theorem spelledHead {kind : TokenKind} {text : String} (spelling : kind.spelling? = some text)
    (split : text.toList = c :: cs) : c ≠ '"' ∧ c.isDigit = false := by
  cases kind <;> cases spelling <;> simp only [String.reduceToList, List.cons.injEq] at split <;>
    obtain ⟨rfl, _⟩ := split <;> decide

def Spelled (kind : TokenKind) (text : List Char) : Prop := kind.spelling? = some (.ofList text)

theorem lexicalKind {kind : TokenKind} (lexical : Lexical kind (c :: cs)) :
    if c = '"' then kind = .string else if c.isDigit then kind = .integer
    else Spelled kind (c :: cs) ∨ kind = .identifier ∧ ∀ k, ¬ Spelled k (c :: cs) := by
  generalize whole : c :: cs = text at lexical
  cases lexical with
  | @spelled _ word spelling =>
    obtain ⟨quote, digit⟩ := spelledHead spelling whole.symm
    simp [quote, digit, Spelled, spelling]
  | name first _ free =>
    obtain ⟨rfl, rfl⟩ := List.cons.inj whole
    obtain ⟨quote, digit⟩ := wordNoDigit (nameStartIs.mpr first)
    rw [if_neg quote, if_neg (Bool.not_eq_true _ ▸ digit)]
    exact .inr ⟨rfl, free⟩
  | integer digits =>
    obtain ⟨rfl, rfl⟩ := List.cons.inj whole
    have digit := digitIs.mpr (digits c (by simp))
    have quote : c ≠ '"' := by
      rintro rfl
      cases digit
    simp [quote, digit]
  | string =>
    obtain ⟨rfl, rfl⟩ := List.cons.inj whole
    simp

theorem lexicalOnce {kind kind' : TokenKind} (one : Lexical kind text)
    (other : Lexical kind' text) : kind = kind' := by
  obtain ⟨c, cs, rfl, _⟩ := lexicalShape one
  have left := lexicalKind one
  have right := lexicalKind other
  by_cases quote : c = '"'
  · rw [if_pos quote] at left right
    exact left.trans right.symm
  by_cases digit : c.isDigit
  · rw [if_neg quote, if_pos digit] at left right
    exact left.trans right.symm
  rw [if_neg quote, if_neg digit] at left right
  rcases left with spelled | ⟨rfl, free⟩ <;> rcases right with spelled' | ⟨rfl, free'⟩
  · exact spellingOnce spelled spelled'
  · exact absurd spelled (free' kind)
  · exact absurd spelled' (free kind')
  · rfl

theorem lexemeOnce (kind : found.kind = found'.kind)
    (same : found.sourceText.toList = found'.sourceText.toList) : found = found' := by
  obtain ⟨k, text⟩ := found
  obtain ⟨k', text'⟩ := found'
  obtain rfl : k = k' := kind
  cases k <;> simp_all [Lexeme.sourceText, toString, String.toList_inj]

theorem longestOnce (one : Longest found rest) (other : Longest found' rest')
    (same : found.sourceText.toList ++ rest = found'.sourceText.toList ++ rest') :
    found = found' ∧ rest = rest' := by
  have below := one.most _ _ other.lexical (same ▸ List.prefix_append _ _)
  have above := other.most _ _ one.lexical (same ▸ List.prefix_append _ _)
  obtain ⟨text, rest⟩ := List.append_inj same (Nat.le_antisymm above below)
  exact ⟨lexemeOnce (lexicalOnce one.lexical (text ▸ other.lexical)) text, rest⟩

theorem blankBegins (blank : Blank c) (shape : Shape c cs) : False := by
  rcases blank with rfl | rfl | rfl | rfl <;> cases shape <;> contradiction

theorem pairDoubled {d : Char} (doubled : c = '&' ∨ c = '|') (sign : (pairSign? c d).isSome) :
    d = c := by
  unfold pairSign? at sign
  split at sign <;> first | rfl | exact absurd doubled (by decide) | cases sign

theorem foreignBegins {kind : TokenKind} (foreign : Foreign c cs)
    (lexical : Lexical kind text) (within : text <+: c :: cs) : False := by
  obtain ⟨ds, rfl, shape, tail⟩ := prefixShape lexical within
  cases foreign with
  | lone doubled alone =>
    cases shape with
    | pair sign =>
      obtain ⟨rest, rfl⟩ := tail
      exact alone (congrArg some (pairDoubled doubled sign))
    | quoted => exact absurd doubled (by decide)
    | digits first | word first | single first =>
      rcases doubled with rfl | rfl <;> cases first
  | unknown noLexeme => exact noLexeme _ _ lexical

end uniqueness

section exact

variable {c : Char} {cs rest : List Char} {found : Lexeme}

theorem quoteKnown (foreign : Foreign '"' cs) : False := by
  have quoted : Lexical .string ['"', '"'] := .string List.not_mem_nil
  cases foreign with
  | lone doubled => exact absurd doubled (by decide)
  | unknown noLexeme => exact noLexeme _ _ quoted

theorem scanLongest (longest : Longest found rest)
    (split : c :: cs = found.sourceText.toList ++ rest) : scan c cs = .lexeme found rest := by
  have within : found.sourceText.toList <+: c :: cs := split ▸ List.prefix_append _ rest
  obtain ⟨ds, _, shape, tail⟩ := prefixShape longest.lexical within
  have result := scanned c cs
  generalize scan c cs = outcome at result
  cases result with
  | lexeme split' longest' =>
    obtain ⟨rfl, rfl⟩ := longestOnce longest longest' (split ▸ split')
    rfl
  | unterminated quote unclosed =>
    subst quote
    obtain ⟨body, _, rfl⟩ := shape.ofQuote
    exact absurd (tail.subset (by simp)) unclosed
  | unrecognized foreign =>
    rcases foreign with blank | foreign
    · exact (blankBegins blank shape).elim
    · exact (foreignBegins foreign longest.lexical within).elim

theorem scanUnclosed (unclosed : '"' ∉ cs) : scan '"' cs = .unterminated := by
  have result := scanned '"' cs
  generalize scan '"' cs = outcome at result
  cases result with
  | lexeme split longest =>
    have within := split ▸ List.prefix_append _ _
    obtain ⟨ds, _, shape, tail⟩ := prefixShape longest.lexical within
    obtain ⟨body, _, rfl⟩ := shape.ofQuote
    exact absurd (tail.subset (by simp)) unclosed
  | unterminated => rfl
  | unrecognized foreign =>
    rcases foreign with blank | foreign
    · exact absurd blank (by simp [Blank])
    · exact (quoteKnown foreign).elim

theorem scanForeign (foreign : Foreign c cs) : scan c cs = .unrecognized := by
  have result := scanned c cs
  generalize scan c cs = outcome at result
  cases result with
  | lexeme split longest =>
    exact (foreignBegins foreign longest.lexical (split ▸ List.prefix_append _ _)).elim
  | unterminated quote => exact (quoteKnown (quote ▸ foreign)).elim
  | unrecognized => rfl

end exact

end Scriptlet

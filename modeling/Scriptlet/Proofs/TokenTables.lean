import Scriptlet.Command

/-! Tables of tokens.
A row tells the place of a token, filled up to seven characters from the left, its kind, filled up
to eighteen from the right, and its text. A table has one row for each token, in their order. -/
namespace Scriptlet

structure Fills (width : Nat) (blanks : List Char) (s : String) : Prop where
  blank : ∀ c ∈ blanks, c = ' '
  wide : blanks.length + s.length = max width s.length

inductive KindText : TokenKind → String → Prop where
  | spelled {kind text} (spelling : kind.spelling? = some text) : KindText kind ("`" ++ text ++ "`")
  | identifier : KindText .identifier "identifier"
  | integer : KindText .integer "integer literal"
  | string : KindText .string "string literal"
  | endOfInput : KindText .endOfInput "end of input"

inductive RowOf (t : Token) : String → Prop where
  | mk {place kind : String} {before behind}
      (located : place = toString t.span.start.line ++ ":" ++ toString t.span.start.column)
      (named : KindText t.kind kind) (left : Fills 7 before place) (right : Fills 18 behind kind) :
      RowOf t (.ofList before ++ place ++ "  " ++ kind ++ .ofList behind ++ " " ++ t.text ++ "\n")

inductive TableOf : List Token → String → Prop where
  | none : TableOf [] ""
  | more {t ts row table} (first : RowOf t row) (later : TableOf ts table) :
      TableOf (t :: ts) (row ++ table)

section fields

variable {width : Nat} {blanks : List Char} {s place kind : String} {k : TokenKind}

theorem fillsSpaces (width : Nat) (s : String) :
    Fills width (List.replicate (width - s.length) ' ') s where
  blank _ member := List.eq_of_mem_replicate member
  wide := by
    rw [List.length_replicate]
    omega

theorem Fills.spaces (fills : Fills width blanks s) :
    String.ofList blanks = spaces (width - s.length) := by
  have length : blanks.length = width - s.length := by
    have wide := fills.wide
    omega
  rw [Scriptlet.spaces, ← length, ← List.eq_replicate_of_mem fills.blank]

theorem kindText (k : TokenKind) : KindText k k.description := by
  cases k <;> first
    | exact .spelled rfl
    | exact .identifier
    | exact .integer
    | exact .string
    | exact .endOfInput

theorem KindText.description (named : KindText k kind) : kind = k.description := by
  cases named with
  | spelled spelling => cases k <;> cases spelling <;> rfl
  | _ => rfl

end fields

section tables

variable {t : Token} {ts : List Token} {row table : String}

theorem spanText (s : Span) :
    s.text = toString s.start.line ++ ":" ++ toString s.start.column := rfl

theorem rowFields (t : Token) : t.row =
    spaces (7 - t.span.text.length) ++ t.span.text ++ "  " ++ t.kind.description ++
      spaces (18 - t.kind.description.length) ++ " " ++ t.text ++ "\n" := by
  simp only [Token.row, padLeft, padRight, String.append_assoc]

theorem rowExactly : RowOf t row ↔ row = t.row := by
  constructor
  · rintro ⟨located, named, left, right⟩
    rw [left.spaces, right.spaces, named.description, located, ← spanText, rowFields]
  · rintro rfl
    have row := RowOf.mk (spanText t.span) (kindText t.kind) (fillsSpaces 7 _) (fillsSpaces 18 _)
    rwa [rowFields]

theorem tokenTableCons (t : Token) (ts : List Token) :
    tokenTable (t :: ts) = t.row ++ tokenTable ts := by
  simp [tokenTable]

theorem tableExactly : TableOf ts table ↔ table = tokenTable ts := by
  constructor
  · intro rows
    induction rows with
    | none => rfl
    | more first _ ih => rw [tokenTableCons, ← rowExactly.mp first, ← ih]
  · rintro rfl
    induction ts with
    | nil => exact .none
    | cons t ts ih =>
      rw [tokenTableCons]
      exact .more (rowExactly.mpr rfl) ih

end tables

end Scriptlet

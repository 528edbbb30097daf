import Mathlib.Data.String.Basic
import Scriptlet.Proofs.LexicalExact

/-! The tokens of a text and the gaps between them make up the text.
Places count bytes, so what lies between two of them is cut from the text by bytes. A reader that
stands somewhere in the text has read the bytes before its place, and stays so. -/
namespace Scriptlet

def Token.bounds (t : Token) : List Nat := [t.span.start.byte, t.span.stop.byte]

def stretches (start : Nat) : List Token → List (Nat × Nat)
  | [] => []
  | t :: ts => (start, t.span.start.byte) :: stretches t.span.stop.byte ts

def weave : List String → List Token → String
  | skipped :: more, t :: ts => skipped ++ t.sourceText ++ weave more ts
  | _, _ => ""

structure Tiling (source : String) (ts : List Token) : Prop where
  ends : ∃ inner last, ts = inner ++ [.endAt last] ∧ last.byte = source.utf8ByteSize ∧
    ∀ t ∈ inner, t.kind ≠ .endOfInput
  ordered : (ts.flatMap Token.bounds).Pairwise (· ≤ ·)
  texts : ∀ t ∈ ts, slice? source t.span.start.byte t.span.stop.byte = some t.sourceText
  gaps : ∀ s ∈ stretches 0 ts, ∃ skipped rest, slice? source s.1 s.2 = some skipped ∧
    slice? source s.2 source.utf8ByteSize = some rest ∧ Gap skipped.toList rest.toList
  rebuilt : ∃ skipped, (stretches 0 ts).map (fun s => slice? source s.1 s.2) = skipped.map some ∧
    weave skipped ts = source

section bytes

open String (utf8Len)

theorem afterByte (p : Position) (c : Char) : (p.after c).byte = p.byte + c.utf8Size := by
  unfold Position.after
  split <;> rfl

theorem afterAllByte (p : Position) (cs : List Char) :
    (p.afterAll cs).byte = p.byte + utf8Len cs := by
  induction cs generalizing p with
  | nil => rfl
  | cons c cs ih =>
    rw [Position.afterAllCons, ih, afterByte, String.utf8Len_cons]
    omega

theorem bytesCons (c : Char) (cs : List Char) : ∃ n, utf8Len (c :: cs) = n + 1 ∧
    c.utf8Size ≤ n + 1 ∧ n + 1 - c.utf8Size = utf8Len cs := by
  obtain ⟨n, size⟩ : ∃ n, utf8Len (c :: cs) = n + 1 :=
    Nat.exists_eq_add_one.mpr (Nat.add_pos_right _ c.utf8Size_pos)
  refine ⟨n, size, ?_⟩
  rw [String.utf8Len_cons] at size
  omega

theorem dropBytesExact (cs rest : List Char) :
    dropBytes? (utf8Len cs) (cs ++ rest) = some rest := by
  induction cs with
  | nil => rw [String.utf8Len_nil, dropBytes?, List.nil_append]
  | cons c cs ih =>
    obtain ⟨n, size, within, less⟩ := bytesCons c cs
    rw [size, List.cons_append, dropBytes?, if_pos within, less, ih]

theorem takeBytesExact (cs rest : List Char) :
    takeBytes? (utf8Len cs) (cs ++ rest) = some cs := by
  induction cs with
  | nil => rw [String.utf8Len_nil, takeBytes?]
  | cons c cs ih =>
    obtain ⟨n, size, within, less⟩ := bytesCons c cs
    rw [size, List.cons_append, takeBytes?, if_pos within, less, ih, Option.map_some]

/- Where a reader of a text stands, with what it has yet to read. -/
def Stands (source : String) (p : Position) (cs : List Char) : Prop :=
  ∃ before, source.toList = before ++ cs ∧ p.byte = utf8Len before

variable {source : String} {p : Position} {cs rest : List Char}

theorem standsAtStart (source : String) : Stands source .start source.toList := ⟨[], rfl, rfl⟩

theorem Stands.past (stands : Stands source p (cs ++ rest)) :
    Stands source (p.afterAll cs) rest := by
  obtain ⟨before, split, byte⟩ := stands
  refine ⟨before ++ cs, by rw [split, List.append_assoc], ?_⟩
  rw [afterAllByte, byte, String.utf8Len_append]

theorem Stands.slice (stands : Stands source p (cs ++ rest)) :
    slice? source p.byte (p.afterAll cs).byte = some (.ofList cs) := by
  obtain ⟨before, split, byte⟩ := stands
  rw [slice?, afterAllByte, if_pos (Nat.le_add_right _ _), Nat.add_sub_cancel_left, split, byte,
    dropBytesExact, Option.bind_some, takeBytesExact, Option.map_some]

theorem Stands.last (stands : Stands source p cs) :
    (p.afterAll cs).byte = source.utf8ByteSize := by
  obtain ⟨before, split, byte⟩ := stands
  rw [afterAllByte, byte, ← String.utf8Len_toList, split, String.utf8Len_append]

theorem Stands.remaining (stands : Stands source p cs) :
    slice? source p.byte source.utf8ByteSize = some (.ofList cs) := by
  have whole : Stands source p (cs ++ []) := by rwa [List.append_nil]
  rw [← stands.last, whole.slice]

end bytes

section layout

inductive Laid : Position → List Char → List Token → Prop where
  | ended {p skipped} (gap : Gap skipped []) : Laid p skipped [.endAt (p.afterAll skipped)]
  | token {p skipped t rest ts} (gap : Gap skipped (t.sourceText.toList ++ rest))
      (inside : t.kind ≠ .endOfInput) (starts : t.span.start = p.afterAll skipped)
      (stops : t.span.stop = t.span.start.afterAll t.sourceText.toList)
      (later : Laid t.span.stop rest ts) :
      Laid p (skipped ++ (t.sourceText.toList ++ rest)) (t :: ts)

variable {source : String} {p : Position} {cs : List Char} {ts : List Token}

theorem Lexes.laid (lexes : Lexes p cs (.ok ts)) : Laid p cs ts := by
  generalize result : Except.ok ts = r at lexes
  induction lexes generalizing ts with
  | ended gap =>
    cases result
    exact .ended gap
  | @token _ _ _ found _ _ r gap begins _ longest ends _ ih =>
    cases r with
    | error => cases result
    | ok later =>
      cases result
      exact .token (t := ⟨found, _⟩) gap longest.lexical.inside begins ends (ih rfl)
  | unterminated => cases result
  | unrecognized => cases result

theorem Laid.ends (laid : Laid p cs ts) : ∃ inner, ts = inner ++ [.endAt (p.afterAll cs)] ∧
    ∀ t ∈ inner, t.kind ≠ .endOfInput := by
  induction laid with
  | ended => exact ⟨[], rfl, fun _ member => nomatch member⟩
  | @token p skipped t rest ts _ inside starts stops _ ih =>
    obtain ⟨inner, split, all⟩ := ih
    refine ⟨t :: inner, ?_, List.forall_mem_cons.mpr ⟨inside, all⟩⟩
    rw [split, stops, starts, Position.afterAllAppend, Position.afterAllAppend, List.cons_append]

theorem Laid.ordered (laid : Laid p cs ts) :
    (p.byte :: ts.flatMap Token.bounds).IsChain (· ≤ ·) := by
  have grows (p : Position) (cs : List Char) : p.byte ≤ (p.afterAll cs).byte :=
    afterAllByte p cs ▸ Nat.le_add_right _ _
  induction laid with
  | @ended p skipped =>
    exact .cons_cons (grows p skipped) (.cons_cons (Nat.le_refl _) (.singleton _))
  | @token p skipped t rest ts _ _ starts stops _ ih =>
    exact .cons_cons (starts ▸ grows p skipped) (.cons_cons (stops ▸ grows t.span.start _) ih)

theorem Laid.texts (laid : Laid p cs ts) (stands : Stands source p cs) :
    ∀ t ∈ ts, slice? source t.span.start.byte t.span.stop.byte = some t.sourceText := by
  induction laid with
  | @ended p skipped =>
    intro t member
    obtain rfl := List.mem_singleton.mp member
    have past : Stands source (p.afterAll skipped) ([] ++ []) :=
      Stands.past (by rwa [List.append_nil, List.append_nil])
    exact past.slice
  | token _ _ starts stops _ ih =>
    have past := starts ▸ stands.past
    refine List.forall_mem_cons.mpr ⟨?_, ih (stops ▸ past.past)⟩
    rw [stops, past.slice, String.ofList_toList]

theorem Laid.gaps (laid : Laid p cs ts) (stands : Stands source p cs) :
    ∀ s ∈ stretches p.byte ts, ∃ skipped rest, slice? source s.1 s.2 = some skipped ∧
      slice? source s.2 source.utf8ByteSize = some rest ∧ Gap skipped.toList rest.toList := by
  induction laid with
  | @ended p skipped gap =>
    intro s member
    obtain rfl := List.mem_singleton.mp member
    rw [← List.append_nil skipped] at stands
    exact ⟨_, _, stands.slice, stands.past.remaining, by simpa using gap⟩
  | token gap _ starts stops _ ih =>
    have past := stands.past
    refine List.forall_mem_cons.mpr ⟨?_, ih (stops ▸ starts ▸ past.past)⟩
    rw [starts]
    exact ⟨_, _, stands.slice, past.remaining, by simpa using gap⟩

theorem Laid.rebuilt (laid : Laid p cs ts) (stands : Stands source p cs) :
    ∃ skipped, (stretches p.byte ts).map (fun s => slice? source s.1 s.2) = skipped.map some ∧
      weave skipped ts = .ofList cs := by
  induction laid with
  | @ended p skipped =>
    rw [← List.append_nil skipped] at stands
    refine ⟨[.ofList skipped], congrArg ([·]) stands.slice, ?_⟩
    simp [weave, Token.endAt, Lexeme.endOfInput, Lexeme.sourceText]
  | @token p skipped _ _ _ _ _ starts stops _ ih =>
    obtain ⟨more, cut, woven⟩ := ih (stops ▸ starts ▸ stands.past.past)
    refine ⟨.ofList skipped :: more, ?_, ?_⟩
    · rw [stretches, List.map_cons, starts, stands.slice, cut, List.map_cons]
    · rw [weave, woven, String.ofList_append, String.ofList_append, String.ofList_toList,
        String.append_assoc]

end layout

/-- Tokens and gaps make up every text that has tokens. -/
theorem tokensTile {source : String} {ts : List Token} (ok : tokenize source = .ok ts) :
    Tiling source ts := by
  have laid := (tokenizeLexes ok).laid
  have stands := standsAtStart source
  obtain ⟨inner, split, inside⟩ := laid.ends
  obtain ⟨skipped, cut, woven⟩ := laid.rebuilt stands
  exact {
    ends := ⟨inner, _, split, stands.last, inside⟩
    ordered := (List.isChain_iff_pairwise.mp laid.ordered).of_cons
    texts := laid.texts stands
    gaps := laid.gaps stands
    rebuilt := ⟨skipped, cut, woven.trans String.ofList_toList⟩ }

theorem accentTiles : ∃ ts, tokenize "a // +\n\t\"é\"" = .ok ts ∧ Tiling "a // +\n\t\"é\"" ts := by
  have ok : tokenize "a // +\n\t\"é\"" = .ok
      [⟨⟨.identifier, "a"⟩, ⟨⟨0, 1, 1⟩, ⟨1, 1, 2⟩⟩⟩,
       ⟨⟨.string, "é"⟩, ⟨⟨8, 2, 2⟩, ⟨12, 2, 5⟩⟩⟩, .endAt ⟨12, 2, 5⟩] := by
    decide +kernel
  exact ⟨_, ok, tokensTile ok⟩

end Scriptlet

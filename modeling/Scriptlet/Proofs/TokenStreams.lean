import Scriptlet.Proofs.LexicalExact

/-! Three ways to read a text.
Its tokens may be taken by one call after the other, or one at a time from a stream, or all at once.
Calls go on for ever, a stream is finished behind the first result that is no token of the text, and
all tokens at once are had only if that result is the end of input. -/
namespace Scriptlet

inductive Final : Except LexError Token → Prop where
  | fault {e} : Final (.error e)
  | ended {t : Token} (last : t.kind = .endOfInput) : Final (.ok t)

/- The tokens of the text behind a reader, and the result that follows them. -/
inductive Reading : Cursor → List Token → Except LexError Token → Prop where
  | stops {c after r} (next : c.next = (r, after)) (final : Final r) : Reading c [] r
  | more {c after t ts r} (next : c.next = (.ok t, after)) (inside : t.kind ≠ .endOfInput)
      (later : Reading after ts r) : Reading c (t :: ts) r

/- A stream gives these items and nothing behind them, however often it is asked. -/
def Yields (s : TokenStream) (items : List (Except LexError Token)) : Prop :=
  ∀ n, s.pulls (items.length + n) = items.map some ++ List.replicate n none

def EndsOnce (ts : List Token) : Prop := ∃ inner last, ts = inner ++ [last] ∧
  (∀ t ∈ inner, t.kind ≠ .endOfInput) ∧ last.kind = .endOfInput

section calls

variable {reader after : Cursor} {t : Token} {r : Except LexError Token}

theorem resultsFinal (next : reader.next = (r, after)) (final : Final r) :
    reader.results = [r] := by
  unfold Cursor.results
  cases final <;> split <;> simp_all

theorem resultsMore (next : reader.next = (.ok t, after)) (inside : t.kind ≠ .endOfInput) :
    reader.results = .ok t :: after.results := by
  rw [Cursor.results]
  split <;> simp_all

theorem nextFinished : (TokenStream.mk reader true).next = (none, ⟨reader, true⟩) := rfl

theorem nextFinal (next : reader.next = (r, after)) (final : Final r) :
    (TokenStream.mk reader false).next = (some r, ⟨after, true⟩) := by
  cases final with
  | fault => simp [TokenStream.next, next]
  | ended last => simp [TokenStream.next, next, last]

theorem nextMore (next : reader.next = (.ok t, after)) (inside : t.kind ≠ .endOfInput) :
    (TokenStream.mk reader false).next = (some (.ok t), ⟨after, false⟩) := by
  simp [TokenStream.next, next, inside]

theorem pullsFinished (n : Nat) :
    (TokenStream.mk reader true).pulls n = List.replicate n none := by
  induction n with
  | zero => rfl
  | succ n ih => rw [TokenStream.pulls, nextFinished, ih, List.replicate_succ]

end calls

theorem Yields.items {s : TokenStream} {items others : List (Except LexError Token)}
    (yields : Yields s items) (same : Yields s others) : items = others := by
  have pulled := yields others.length
  rw [Nat.add_comm, same] at pulled
  have given := congrArg (List.filterMap id) pulled
  simpa [List.filterMap_append, List.filterMap_map] using given.symm

namespace Reading

variable {c : Cursor} {ts : List Token} {r : Except LexError Token}

theorem somehow (c : Cursor) : ∃ ts r, Reading c ts r := by
  induction c using Cursor.results.induct with
  | case1 c e after next => exact ⟨[], _, .stops next .fault⟩
  | case2 c t after next last => exact ⟨[], _, .stops next (.ended last)⟩
  | case3 c t after next inside ih =>
    obtain ⟨ts, r, later⟩ := ih
    exact ⟨t :: ts, r, .more next inside later⟩

theorem inner (reading : Reading c ts r) : ∀ t ∈ ts, t.kind ≠ .endOfInput := by
  induction reading with
  | stops => exact fun _ => nofun
  | more _ inside _ ih => exact List.forall_mem_cons.mpr ⟨inside, ih⟩

theorem final (reading : Reading c ts r) : Final r := by
  induction reading with
  | stops _ final => exact final
  | more _ _ _ ih => exact ih

theorem results (reading : Reading c ts r) : c.results = ts.map .ok ++ [r] := by
  induction reading with
  | stops next final => exact resultsFinal next final
  | more next inside _ ih => rw [resultsMore next inside, ih, List.map_cons, List.cons_append]

theorem steps (reading : Reading c ts r) :
    Cursor.steps (ts.length + 1) c = ts.map .ok ++ [r] := by
  induction reading with
  | stops next => simp [Cursor.steps, next]
  | more next _ _ ih =>
    rw [List.length_cons, Cursor.steps, next, ih, List.map_cons, List.cons_append]

theorem tokens (reading : Reading c ts r) : c.tokens = r.map fun last => ts ++ [last] := by
  induction reading with
  | stops next final =>
    cases final with
    | fault => exact tokensFault next
    | ended last => exact tokensEnd next last
  | @more c after t ts r next inside _ ih =>
    rw [tokensMore next inside, ih]
    cases r <;> rfl

theorem yields (reading : Reading c ts r) : Yields ⟨c, false⟩ (ts.map .ok ++ [r]) := by
  intro n
  induction reading with
  | stops next final =>
    rw [Nat.add_comm]
    simp [TokenStream.pulls, nextFinal next final, pullsFinished]
  | more next inside _ ih =>
    rw [List.map_cons, List.cons_append, List.length_cons, Nat.add_right_comm, TokenStream.pulls,
      nextMore next inside, ih, List.map_cons, List.cons_append]

theorem yieldsExactly (reading : Reading c ts r) {items : List (Except LexError Token)} :
    Yields ⟨c, false⟩ items ↔ items = ts.map .ok ++ [r] :=
  ⟨fun yields => yields.items reading.yields, fun same => same ▸ reading.yields⟩

theorem tokensEnded (reading : Reading c ts r) (all : List Token) :
    c.tokens = .ok all ↔ Yields ⟨c, false⟩ (all.map .ok) ∧ EndsOnce all := by
  rw [reading.tokens, reading.yieldsExactly]
  cases reading.final with
  | fault =>
    refine ⟨nofun, fun ⟨same, _⟩ => ?_⟩
    have fault := congrArg List.getLast? same
    simp at fault
  | @ended t last =>
    have given : ts.map .ok ++ [.ok t] =
        (ts ++ [t]).map (.ok : Token → Except LexError Token) := by simp
    constructor
    · rintro ⟨⟩
      exact ⟨given.symm, ts, t, rfl, reading.inner, last⟩
    · rintro ⟨same, _⟩
      rw [(List.map_inj_right fun _ _ => Except.ok.inj).mp (same.trans given)]
      rfl

theorem tokensRefused (reading : Reading c ts r) (e : LexError) :
    c.tokens = .error e ↔ ∃ inner : List Token, Yields ⟨c, false⟩ (inner.map .ok ++ [.error e]) ∧
      ∀ t ∈ inner, t.kind ≠ .endOfInput := by
  simp only [reading.tokens, reading.yieldsExactly]
  constructor
  · intro refused
    cases r with
    | ok => cases refused
    | error =>
      cases refused
      exact ⟨ts, rfl, reading.inner⟩
  · rintro ⟨inner, same, _⟩
    obtain ⟨_, last⟩ := List.append_inj' same rfl
    cases last
    rfl

end Reading

/-- The three ways agree on every text. A stream yields what calls give one after the other, up to
and including the first fault or end of input, and nothing behind that. There are tokens if they are
all it yields, the end of input once and last, and there is a fault if it yields that one last. -/
theorem readersAgree (source : String) :
    (∃ (inner : List Token) (last : Except LexError Token),
      (∀ t ∈ inner, t.kind ≠ .endOfInput) ∧ Final last ∧
      Cursor.steps (inner.length + 1) (.ofString source) = inner.map .ok ++ [last] ∧
      Yields (.ofString source) (inner.map .ok ++ [last])) ∧
    Yields (.ofString source) (Cursor.ofString source).results ∧
    (∀ ts, tokenize source = .ok ts ↔ Yields (.ofString source) (ts.map .ok) ∧ EndsOnce ts) ∧
    ∀ e, tokenize source = .error e ↔
      ∃ inner : List Token, Yields (.ofString source) (inner.map .ok ++ [.error e]) ∧
        ∀ t ∈ inner, t.kind ≠ .endOfInput := by
  obtain ⟨ts, r, reading⟩ := Reading.somehow (.ofString source)
  exact ⟨⟨ts, r, reading.inner, reading.final, reading.steps, reading.yields⟩,
    reading.results ▸ reading.yields, reading.tokensEnded, reading.tokensRefused⟩

end Scriptlet

import Scriptlet.Proofs.Tiling

/-! Cuts of a text by its bytes.
A cut can be made if it begins and ends between characters of the text and in this order, and of no
others is there anything. A reader may ask for several, and gives nothing once one of them fails. -/
namespace Scriptlet

structure Slice where
  start : Nat
  stop : Nat
  deriving DecidableEq, Repr

structure Slice.Sound (source : String) (c : Slice) : Prop where
  ordered : c.start ≤ c.stop
  within : c.stop ≤ source.utf8ByteSize
  start : (String.Pos.Raw.mk c.start).IsValid source
  stop : (String.Pos.Raw.mk c.stop).IsValid source

/- The cuts asked for one after the other, and what comes of them, unless one of them fails. -/
structure Cutting (α : Type) where
  cuts : List Slice
  outcome : Option α

instance : Monad Cutting where
  pure a := ⟨[], some a⟩
  bind m next :=
    match m.outcome with
    | none => ⟨m.cuts, none⟩
    | some a => ⟨m.cuts ++ (next a).cuts, (next a).outcome⟩

def Slice.text (source : String) (c : Slice) : Cutting String := ⟨[c], slice? source c.start c.stop⟩

structure Gives {α : Type} (source : String) (m : Cutting α) (a : α) : Prop where
  outcome : m.outcome = some a
  sound : ∀ cut ∈ m.cuts, cut.Sound source

section outcomes

variable {α β : Type} {source : String} {m : Cutting α} {next : α → Cutting β} {a : α} {b : β}

theorem Gives.pure (source : String) (a : α) : Gives source (pure a) a :=
  ⟨rfl, List.forall_mem_nil _⟩

theorem Gives.bind (first : Gives source m a) (later : Gives source (next a) b) :
    Gives source (m >>= next) b := by
  obtain ⟨cuts, outcome⟩ := m
  obtain rfl : outcome = some a := first.outcome
  exact ⟨later.outcome, List.forall_mem_append.mpr ⟨first.sound, later.sound⟩⟩

theorem bindOutcome (gives : (m >>= next).outcome = some b) :
    ∃ a, m.outcome = some a ∧ (next a).outcome = some b := by
  obtain ⟨cuts, outcome⟩ := m
  cases outcome with
  | none => cases gives
  | some a => exact ⟨a, rfl, gives⟩

end outcomes

section bytes

open String (utf8Len)

variable {source : String} {p : Position} {cs rest taken : List Char} {c : Slice} {n : Nat}

theorem dropBytesSplits (dropped : dropBytes? n cs = some rest) :
    ∃ before, cs = before ++ rest ∧ n = utf8Len before := by
  fun_induction dropBytes? n cs with
  | case1 cs =>
    obtain rfl := Option.some.inj dropped
    exact ⟨[], rfl, rfl⟩
  | case2 => cases dropped
  | case3 n c cs within ih =>
    obtain ⟨before, rfl, size⟩ := ih dropped
    refine ⟨c :: before, rfl, ?_⟩
    rw [String.utf8Len_cons]
    omega
  | case4 => cases dropped

theorem takeBytesSplits (took : takeBytes? n cs = some taken) :
    ∃ rest, cs = taken ++ rest ∧ n = utf8Len taken := by
  fun_induction takeBytes? n cs generalizing taken with
  | case1 cs =>
    obtain rfl := Option.some.inj took
    exact ⟨cs, rfl, rfl⟩
  | case2 => cases took
  | case3 n c cs within ih =>
    obtain ⟨others, later, same⟩ := Option.map_eq_some_iff.mp took
    obtain ⟨rest, rfl, size⟩ := ih later
    refine ⟨rest, same ▸ rfl, ?_⟩
    rw [← same, String.utf8Len_cons]
    omega
  | case4 => cases took

theorem validExactly : (String.Pos.Raw.mk n).IsValid source ↔
    ∃ before rest, source.toList = before ++ rest ∧ n = utf8Len before := by
  rw [String.Pos.Raw.isValid_iff_exists_append]
  constructor
  · rintro ⟨before, rest, rfl, size⟩
    refine ⟨before.toList, rest.toList, String.toList_append, ?_⟩
    rw [String.utf8Len_toList]
    exact congrArg String.Pos.Raw.byteIdx size
  · rintro ⟨before, rest, split, rfl⟩
    refine ⟨.ofList before, .ofList rest, ?_, (String.rawEndPos_ofList before).symm⟩
    rw [← String.ofList_append, ← split, String.ofList_toList]

theorem sliceExactly : (slice? source c.start c.stop).isSome ↔ c.Sound source := by
  obtain ⟨start, stop⟩ := c
  constructor
  · intro some
    obtain ⟨text, cut⟩ := Option.isSome_iff_exists.mp some
    simp only [slice?, Option.ite_none_right_eq_some, Option.map_eq_some_iff,
      Option.bind_eq_some_iff] at cut
    obtain ⟨ordered, taken, ⟨rest, dropped, took⟩, _⟩ := cut
    obtain ⟨before, split, first⟩ := dropBytesSplits dropped
    obtain ⟨behind, rfl, size⟩ := takeBytesSplits took
    have last : stop = utf8Len (before ++ taken) := by
      rw [String.utf8Len_append]
      omega
    have whole : source.toList = (before ++ taken) ++ behind := by rw [split, List.append_assoc]
    refine ⟨ordered, ?_, validExactly.mpr ⟨_, _, split, first⟩,
      validExactly.mpr ⟨_, _, whole, last⟩⟩
    rw [last, ← String.utf8Len_toList, whole, String.utf8Len_append _ behind]
    exact Nat.le_add_right _ _
  · rintro ⟨ordered, _, first, last⟩
    obtain ⟨before, rest, split, size⟩ := validExactly.mp first
    obtain ⟨before', rest', split', size'⟩ := validExactly.mp last
    dsimp only at ordered size size'
    subst size size'
    -- What ends later begins with what ends earlier.
    obtain ⟨taken, rfl⟩ : ∃ taken, before' = before ++ taken := by
      rcases List.append_eq_append_iff.mp (split.symm.trans split') with
        ⟨more, same, _⟩ | ⟨more, rfl, _⟩
      · exact ⟨more, same⟩
      · rw [String.utf8Len_append] at ordered
        obtain rfl : more = [] := String.utf8Len_eq_zero.mp (by omega)
        exact ⟨[], by simp⟩
    rw [slice?, if_pos ordered, split', List.append_assoc, dropBytesExact, Option.bind_some,
      String.utf8Len_append, Nat.add_sub_cancel_left, takeBytesExact]
    rfl

end bytes

end Scriptlet

import Mathlib.Algebra.Group.End
import Scriptlet.Proofs.Lexical
import Scriptlet.Proofs.Relabeled

/-! Names mean nothing by themselves.
A program in which all names are exchanged one for one is evaluated to what the program is evaluated
to, with the names in it exchanged. Names are the texts that can be written where a name is due, so
no reserved word is one of them. -/
namespace Scriptlet

def IsName (text : String) : Prop := Lexical .identifier text.toList

def Name : Type := { text : String // IsName text }

open Classical in
/- What is no name stays as it is. -/
noncomputable def Name.exchange (names : Equiv.Perm Name) : Equiv.Perm String :=
  Equiv.Perm.ofSubtype (p := IsName) names

theorem eraseDupsMap {n : String → String} (distinct : n.Injective) :
    ∀ texts : List String, (texts.map n).eraseDups = texts.eraseDups.map n
  | [] => rfl
  | text :: texts => by
    have others : (texts.map n).filter (fun other => !other == n text) =
        (texts.filter fun other => !other == text).map n := by
      simp only [List.filter_map, Function.comp_def, Bool.beq_eq_decide_eq, distinct.eq_iff]
    have fewer := Nat.lt_succ_of_le (texts.length_filter_le fun other => !other == text)
    rw [List.map_cons, List.eraseDups_cons, List.eraseDups_cons, others, eraseDupsMap distinct,
      List.map_cons]
termination_by texts => texts.length

theorem Session.namesRelabel {n : String → String} (distinct : n.Injective) (g : Span → Span)
    (s : Session) : (s.relabel n g).globalNames.Perm (s.globalNames.map n) := by
  have frame : (s.relabel n g).machine.store.frame (s.relabel n g).globals.own =
      (s.machine.store.frame s.globals.own).relabel n g := s.machine.store.frameRelabel _
  have keys : ((s.machine.store.frame s.globals.own).relabel n g).map Prod.fst =
      ((s.machine.store.frame s.globals.own).map Prod.fst).map n := by
    simp only [Frame.relabel, List.map_map, Function.comp_def]
  simp only [globalNames, Store.localNames, frame, keys, eraseDupsMap distinct]
  exact (List.mergeSort_perm _ _).trans ((List.mergeSort_perm _ _).symm.map n)

/-- Whatever the limit is, to exchange the names of a program by a bijection on names exchanges them
in its value or error, which has the same span, and in the globals, which are bound to values with
names exchanged; so it does in all scopes. -/
theorem namesUniform (names : Equiv.Perm Name) (limit : Nat) (p : Program) :
    let n := Name.exchange names
    let plain := (Session.start limit).evaluate p
    let renamed := (Session.start limit).evaluate (p.relabel n id)
    renamed.1 = relabelAnswer n id plain.1 ∧
      renamed.2.globalNames.Perm (plain.2.globalNames.map n) ∧
      (∀ name, renamed.2.get? (n name) = (plain.2.get? name).map (Value.relabel n id)) ∧
      renamed.2 = plain.2.relabel n id := by
  intro n plain renamed
  have distinct : Function.Injective n := n.injective
  have start : (Session.start limit).relabel n id = Session.start limit := by
    simp [Session.relabel, Session.start, Store.openRoot, Store.openScope, Store.empty,
      Store.relabel, Frame.relabel]
  have ends := (Session.start limit).evaluateRelabel distinct id p
  rw [start] at ends
  have sessions : renamed.2 = plain.2.relabel n id := congrArg Prod.snd ends
  refine ⟨congrArg Prod.fst ends, ?_, fun name => ?_, sessions⟩
  · rw [sessions]
    exact plain.2.namesRelabel distinct id
  · rw [sessions]
    exact plain.2.getRelabel distinct id name

end Scriptlet

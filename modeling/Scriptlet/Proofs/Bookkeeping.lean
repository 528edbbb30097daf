import Scriptlet.Proofs.CallDepth

/-! The current scope and the number of active bodies.
Whatever is evaluated leaves both as it found them, with whatever outcome: a step that changes one
of them leaves work pending that changes it back, and no outcome passes over such work. So between
the steps of a session no body is active and the current scope is the global one. -/
namespace Scriptlet

open Outcome Job

structure Restored (m m' : Machine) : Prop where
  scope : m'.current = m.current
  active : m'.active = m.active

/- A state on the way. Any job that is next comes to an end, with the same work pending as before. -/
structure Config.Steady (limit : Nat) (c : Config) : Prop extends c.Counted limit where
  ends : ∀ job, c.focus = .todo job →
    ∃ o m', Reaches limit c ⟨.ended o, c.pending, m'⟩ ∧ Restored c.machine m'

inductive Session.Begins (s : Session) : Config → Prop where
  | program (p : Program) : s.Begins (s.evaluating p)
  | call (f : Closure) (vs : List Value) (span : Span) : s.Begins (s.calling f vs span)

theorem Job.execRestored {α : Type} (job : Job α) (n : Nat) (m : Machine) :
    Restored m (job.exec (applyWithin n) m).2 := by
  obtain ⟨o, store, _, ends⟩ := job.execEnds n m
  rw [ends]
  exact ⟨rfl, rfl⟩

theorem jobEnds {limit : Nat} {α : Type} (job : Job α) (k : Pending α) (m : Machine)
    (within : m.active ≤ limit) :
    ∃ o m', Reaches limit ⟨.todo job, k, m⟩ ⟨.ended o, k, m'⟩ ∧ Restored m m' := by
  obtain ⟨o, store, ran⟩ := settles within m.current m.store job
  exact ⟨o, _, ran.reaches k, ⟨rfl, rfl⟩⟩

theorem Config.Counted.steady {limit : Nat} {c : Config} (counted : c.Counted limit) :
    c.Steady limit := by
  obtain ⟨focus, k, m⟩ := c
  cases focus with
  | todo job => exact ⟨counted, fun _ _ => jobEnds job k m counted.within⟩
  | ended o => exact ⟨counted, nofun⟩

theorem Session.AtRest.begins {s : Session} {c : Config} (rest : s.AtRest) (begins : s.Begins c) :
    c.Counted s.limit := by
  cases begins with
  | program p => exact ⟨rfl, Nat.zero_le _⟩
  | call f vs span => exact ⟨rest.idle, rest.idle.trans_le (Nat.zero_le _)⟩

/-- Statements, expressions, blocks and calls leave the current scope and the number of active
bodies as they were. This holds in all states that any session comes through, and in all of them
at most as many bodies are active as its limit allows. -/
theorem bookkeepingRestored :
    (∀ (n : Nat) (m : Machine), (∀ t, Restored m (evalStmt (applyWithin n) t m).2) ∧
      (∀ e, Restored m (evalExpr (applyWithin n) e m).2) ∧
      (∀ b, Restored m (evalBlock (applyWithin n) b m).2) ∧
      ∀ f vs span, Restored m (applyWithin n f vs span m).2) ∧
    ∀ (limit : Nat) (actions : List Action), ((Session.start limit).after actions).AtRest ∧
      ∀ c d, ((Session.start limit).after actions).Begins c → Reaches limit c d →
        d.Steady limit := by
  refine ⟨fun n m => ⟨?_, ?_, ?_, ?_⟩, fun limit actions => ?_⟩
  · intro t
    exact (Job.stmt t).execRestored n m
  · intro e
    exact (Job.expr e).execRestored n m
  · intro b
    exact (Job.block b).execRestored n m
  · intro f vs span
    exact (Job.application f vs span).execRestored n m
  · have rest := Session.reachableAtRest limit actions
    refine ⟨rest, fun c d begins run => ?_⟩
    have counted := rest.begins begins
    rw [Session.reachableLimit] at counted
    exact (reachesCounted run counted).steady

def endless : Program :=
  let own : Ident := ⟨"f", .nowhere⟩
  let again : Expr := .call (.name own) [] .nowhere
  ⟨[.expression (.call (.function (some own) [] (.mk [.expression again .nowhere] .nowhere) .nowhere)
      [] .nowhere) .nowhere]⟩

def afterOverflow : Session := (Session.start 1).after [.evaluate endless]

theorem overflowRestored : ((Session.start 1).evaluate endless).1.isOk = false ∧
    afterOverflow.AtRest ∧ afterOverflow.Begins (afterOverflow.evaluating endless) ∧
    ∃ c, Reaches 1 (afterOverflow.evaluating endless) c ∧ c.machine.active = 1 ∧ c.Steady 1 := by
  have begins := Session.Begins.program (s := afterOverflow) endless
  have active : ((afterOverflow.evaluating endless).steps 1 8).map (·.machine.active) = some 1 := by
    decide +kernel
  obtain ⟨c, steps, one⟩ := Option.map_eq_some_iff.mp active
  have run := stepsReach steps
  have holds := bookkeepingRestored.2 1 [.evaluate endless]
  exact ⟨by decide +kernel, holds.1, begins, c, run, one, holds.2 _ c begins run⟩

end Scriptlet

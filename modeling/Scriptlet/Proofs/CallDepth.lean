import Mathlib.Order.Bounds.Basic
import Mathlib.Data.Nat.Find
import Scriptlet.Proofs.Termination

/-! What the limit decides.
A limit that is not run into decides nothing: every higher one leads through the same steps. The
limit a program needs is the greatest number of bodies that are entered and not yet left. Bodies
that were run for arguments are left before the call they are for enters its own. -/
namespace Scriptlet

open Outcome Job

def EvalError.TooDeep (e : EvalError) : Prop := ∃ depth, e.fault = .tooDeep depth

def Overflow (r : Except EvalError Value) : Prop := ∃ e : EvalError, r = .error e ∧ e.TooDeep

namespace Config

def Overflows (c : Config) : Prop :=
  match c.focus with
  | .ended (.failure e) => e.TooDeep
  | _ => False

inductive Full (limit : Nat) : Config → Prop where
  | application {f vs span k m} (arity : f.parameters.length = vs.length)
      (full : limit ≤ m.active) : Full limit ⟨.todo (application f vs span), k, m⟩

end Config

section steps

variable {limit higher : Nat} {c d e : Config}

theorem fullLower (lower : limit ≤ higher) (full : c.Full higher) : c.Full limit := by
  cases full with
  | application arity full => exact .application arity (Nat.le_trans lower full)

theorem stepFull (full : c.Full limit) : ∃ d, c.step limit = some d ∧ d.Overflows := by
  cases full with
  | @application f vs span k m arity full =>
    refine ⟨k.perform (Exec.fail (.tooDeep limit) span) m, ?_, ⟨limit, rfl⟩⟩
    simp only [Config.step, Job.begin, if_neg (not_not_intro arity), if_pos full]

theorem stepAlike (room : ¬ c.Full limit) (room' : ¬ c.Full higher) :
    c.step limit = c.step higher := by
  -- No other step looks at the limit.
  obtain ⟨focus, k, m⟩ := c
  cases focus with
  | ended o => cases o <;> rfl
  | todo job =>
    cases job with
    | application f vs span =>
      by_cases arity : f.parameters.length = vs.length
      · have below : ¬ limit ≤ m.active := fun full => room (.application arity full)
        have below' : ¬ higher ≤ m.active := fun full => room' (.application arity full)
        simp only [Config.step, Job.begin, if_neg below, if_neg below']
      · simp only [Config.step, Job.begin, if_pos arity]
    | expr e =>
      cases e with
      | conditional test first second span => cases second <;> rfl
      | _ => rfl
    | exprs es => cases es <;> rfl
    | stmt t =>
      cases t with
      | returning value span => cases value <;> rfl
      | _ => rfl
    | stmts last ts => cases ts <;> rfl
    | block b => cases b; rfl

theorem overflowStays (overflows : c.Overflows) (step : c.step limit = some d) : d.Overflows := by
  obtain ⟨focus, k, m⟩ := c
  cases focus with
  | todo job => cases overflows
  | ended o =>
    cases o with
    | failure e => cases k <;> cases step <;> exact overflows
    | _ => cases overflows

theorem overflowReaches (overflows : c.Overflows) (run : Reaches limit c d) : d.Overflows := by
  induction run with
  | here => exact overflows
  | next step _ ih => exact ih (overflowStays overflows step)

theorem roomOnTheWay (step : c.step limit = some d) (rest : Reaches limit d e)
    (fine : ¬ e.Overflows) : ¬ c.Full limit := by
  intro full
  obtain ⟨other, failed, overflows⟩ := stepFull full
  obtain rfl : other = d := Option.some.inj (failed.symm.trans step)
  exact fine (overflowReaches overflows rest)

theorem Reaches.raise (run : Reaches limit c d) (fine : ¬ d.Overflows) (lower : limit ≤ higher) :
    Reaches higher c d := by
  induction run with
  | here => exact .here _
  | next step rest ih =>
    have room := roomOnTheWay step rest fine
    have alike := stepAlike room fun full => room (fullLower lower full)
    exact .next (alike ▸ step) (ih fine)

theorem Reaches.lower (run : Reaches higher c d) (lower : limit ≤ higher)
    (room : ∀ e, Reaches higher c e → ¬ e.Full limit) : Reaches limit c d := by
  induction run with
  | here => exact .here _
  | @next c c' d step rest ih =>
    have here := room c (.here c)
    have alike := stepAlike here fun full => here (fullLower lower full)
    exact .next (alike ▸ step) (ih fun e run => room e (.next step run))

theorem roomBefore (way : Reaches limit c e) (fine : ¬ e.Overflows)
    (last : e.step limit = none) : ¬ c.Full limit := by
  intro full
  obtain ⟨d, failed, _⟩ := stepFull full
  cases way with
  | here => exact nomatch last.symm.trans failed
  | next step rest => exact roomOnTheWay step rest fine full

theorem Reaches.retrace (run : Reaches higher c d) (lower : limit ≤ higher)
    (way : Reaches limit c e) (fine : ¬ e.Overflows) (last : e.step limit = none) :
    Reaches limit c d ∧ Reaches limit d e := by
  induction run with
  | here => exact ⟨.here _, way⟩
  | next step rest ih =>
    have room := roomBefore way fine last
    have alike := stepAlike room fun full => room (fullLower lower full)
    cases way with
    | here => exact nomatch last.symm.trans (alike.trans step)
    | next step' way =>
      obtain rfl := Option.some.inj (step'.symm.trans (alike.trans step))
      obtain ⟨before, after⟩ := ih way
      exact ⟨.next step' before, after⟩

theorem endsOnce (one : Reaches limit c d) (other : Reaches limit c e)
    (last : d.step limit = none) (last' : e.step limit = none) : d = e := by
  induction one with
  | here =>
    cases other with
    | here => rfl
    | next step _ => exact nomatch last.symm.trans step
  | next step _ ih =>
    cases other with
    | here => exact nomatch last'.symm.trans step
    | next step' rest =>
      obtain rfl := Option.some.inj (step.symm.trans step')
      exact ih rest last

theorem stepsReach {n : Nat} (run : c.steps limit n = some d) : Reaches limit c d := by
  induction n generalizing c with
  | zero =>
    obtain rfl : c = d := Option.some.inj run
    exact .here _
  | succ n ih =>
    obtain ⟨next, step, rest⟩ := Option.bind_eq_some_iff.mp run
    exact .next step (ih rest)

end steps

section halts

variable {limit higher : Nat} {c d : Config} {r r' : Except EvalError Value} {m m' : Machine}

theorem stepEnded (limit : Nat) (o : Outcome Value) (m : Machine) :
    Config.step limit ⟨.ended o, .done, m⟩ = none := by
  cases o <;> rfl

theorem haltsReaches : Halts limit c r m ↔
    ∃ o, Reaches limit c ⟨.ended o, .done, m⟩ ∧ o.final = r := by
  constructor
  · rintro ⟨n, o, run, _, final⟩
    exact ⟨o, stepsReach run, final⟩
  · rintro ⟨o, run, final⟩
    obtain ⟨n, run⟩ := run.steps
    exact ⟨n, o, run, stepsLast run (stepEnded limit o m), final⟩

theorem overflowFinal {o : Outcome Value} :
    Overflow o.final ↔ Config.Overflows ⟨.ended o, .done, m⟩ := by
  cases o with
  | failure e => simp [Overflow, Outcome.final, Config.Overflows]
  | _ => simp [Overflow, Outcome.final, Config.Overflows]

theorem Halts.unique (one : Halts limit c r m) (other : Halts limit c r' m') : r = r' ∧ m = m' := by
  obtain ⟨o, run, rfl⟩ := haltsReaches.mp one
  obtain ⟨o', run', rfl⟩ := haltsReaches.mp other
  have same := endsOnce run run' (stepEnded limit o m) (stepEnded limit o' m')
  simp only [Config.mk.injEq, heq_eq_eq, true_and, Focus.ended.injEq] at same
  exact ⟨congrArg Outcome.final same.1, same.2⟩

theorem Halts.raise (halts : Halts limit c r m) (fine : ¬ Overflow r) (lower : limit ≤ higher) :
    Halts higher c r m := by
  obtain ⟨o, run, rfl⟩ := haltsReaches.mp halts
  exact haltsReaches.mpr ⟨o, run.raise (overflowFinal.not.mp fine) lower, rfl⟩

end halts

def Pending.bodies : {α : Type} → Pending α → Nat
  | _, done => 0
  | _, body k => k.bodies + 1
  | _, operand _ _ k | _, left _ _ _ k | _, right _ _ _ k | _, condition _ _ k | _, callee _ _ _ k
  | _, arguments _ _ k | _, head _ k | _, tail _ k | _, binding _ k | _, returning k
  | _, statements _ k | _, scope _ k => k.bodies

structure Config.Counted (limit : Nat) (c : Config) : Prop where
  exact : c.machine.active = c.pending.bodies
  within : c.machine.active ≤ limit

section counting

variable {limit : Nat} {c d : Config}

theorem performCounted {α : Type} {k : Pending α} {x : Exec α} {m : Machine}
    (counted : m.active = k.bodies ∧ m.active ≤ limit) (kept : (x m).2 = m) :
    (k.perform x m).Counted limit := by
  constructor
  · simpa only [Pending.perform, kept] using counted.1
  · simpa only [Pending.perform, kept] using counted.2

theorem lookupKept (name : Ident) (m : Machine) : (Exec.lookup name m).2 = m := by
  simp only [Exec.lookup]
  split <;> rfl

theorem liftKept {α : Type} (r : Except EvalFault α) (span : Span) (m : Machine) :
    (Exec.lift r span m).2 = m := by
  cases r <;> rfl

theorem beginCounted {α : Type} {job : Job α} {k : Pending α} {m : Machine}
    (counted : Config.Counted limit ⟨.todo job, k, m⟩) : (job.begin limit k m).Counted limit := by
  obtain ⟨exact, within⟩ := counted
  cases job with
  | application f vs span =>
    simp only [Job.begin]
    split
    · exact ⟨exact, within⟩
    · split
      · exact ⟨exact, within⟩
      · exact ⟨congrArg (· + 1) exact, by simp only [Pending.enter]; omega⟩
  | expr e =>
    cases e with
    | name ident => exact performCounted ⟨exact, within⟩ (lookupKept ident m)
    | function own parameters body span => cases own <;> exact ⟨exact, within⟩
    | conditional test first second span => cases second <;> exact ⟨exact, within⟩
    | _ => exact ⟨exact, within⟩
  | exprs es => cases es <;> exact ⟨exact, within⟩
  | stmt t =>
    cases t with
    | returning value span => cases value <;> exact ⟨exact, within⟩
    | _ => exact ⟨exact, within⟩
  | stmts last ts => cases ts <;> exact ⟨exact, within⟩
  | block b => cases b; exact ⟨exact, within⟩

theorem resumeCounted {α : Type} {a : α} {k : Pending α} {m : Machine}
    (counted : Config.Counted limit ⟨.ended (.result a), k, m⟩) (step : k.resume a m = some d) :
    d.Counted limit := by
  obtain ⟨exact, within⟩ := counted
  cases k with
  | done => cases step
  | operand op span k =>
    cases step
    exact performCounted ⟨exact, within⟩ (liftKept _ _ _)
  | right op left span k =>
    cases step
    exact performCounted ⟨exact, within⟩ (liftKept _ _ _)
  | condition first second k =>
    simp only [Pending.resume] at step
    split at step
    · cases step
      exact ⟨exact, within⟩
    · cases second <;> cases step <;> exact ⟨exact, within⟩
  | callee place es span k => cases a <;> cases step <;> exact ⟨exact, within⟩
  | body k =>
    cases step
    simp only [Pending.bodies] at exact
    exact ⟨by simp only; omega, by simp only at within ⊢; omega⟩
  | _ =>
    cases step
    exact ⟨exact, within⟩

theorem unwindCounted {α : Type} {focus : Focus α} {o : {β : Type} → Outcome β} {k : Pending α}
    {m : Machine} (counted : Config.Counted limit ⟨focus, k, m⟩) (step : k.unwind o m = some d) :
    d.Counted limit := by
  obtain ⟨exact, within⟩ := counted
  cases k with
  | done => cases step
  | body k =>
    cases step
    simp only [Pending.bodies] at exact
    exact ⟨by simp only; omega, by simp only at within ⊢; omega⟩
  | _ =>
    cases step
    exact ⟨exact, within⟩

theorem stepCounted (step : c.step limit = some d) (counted : c.Counted limit) :
    d.Counted limit := by
  obtain ⟨focus, k, m⟩ := c
  cases focus with
  | todo job =>
    cases step
    exact beginCounted counted
  | ended o =>
    cases o with
    | result a => exact resumeCounted counted step
    | leaving v => exact unwindCounted (o := .leaving v) counted step
    | failure e => exact unwindCounted (o := .failure e) counted step

theorem reachesCounted (run : Reaches limit c d) (counted : c.Counted limit) :
    d.Counted limit := by
  induction run with
  | here => exact counted
  | next step _ ih => exact ih (stepCounted step counted)

end counting

namespace Session

def bounded (limit : Nat) (s : Session) : Session := { s with limit := limit }

def answer (s : Session) : Action → Option (Except Failure Value)
  | .run source => some (s.run source).1
  | .evaluate p => some ((s.evaluate p).1.mapError .eval)
  | .runApart source => some (s.runApart source).1
  | .define .. => none
  | .call f arguments span => some ((s.call f arguments span).1.mapError .eval)

def history (s : Session) : List Action → List (Option (Except Failure Value) × Store)
  | [] => []
  | a :: rest => (s.answer a, (s.act a).machine.store) :: (s.act a).history rest

end Session

def TooDeep (answer : Option (Except Failure Value)) : Prop :=
  ∃ e : EvalError, answer = some (.error (.eval e)) ∧ e.TooDeep

section sessions

variable {s : Session} {limit higher : Nat}

theorem evaluateRaise (p : Program) (fine : ¬ Overflow ((s.bounded limit).evaluate p).1)
    (lower : limit ≤ higher) : (s.bounded higher).evaluate p =
      (((s.bounded limit).evaluate p).1, ((s.bounded limit).evaluate p).2.bounded higher) := by
  have below := ((s.bounded limit).evaluateHalts p).raise fine lower
  obtain ⟨same, machine⟩ := ((s.bounded higher).evaluateHalts p).unique below
  exact Prod.ext same (congrArg (Session.mk · s.globals higher) machine)

theorem callSession (s : Session) (f : Closure) (vs : List Value) (span : Span) :
    (s.call f vs span).2 = { s with machine := (s.call f vs span).2.machine } := by
  simp only [Session.call]
  split <;> rfl

theorem callRaise (rest : s.AtRest) (f : Closure) (vs : List Value) (span : Span)
    (fine : ¬ Overflow ((s.bounded limit).call f vs span).1) (lower : limit ≤ higher) :
    (s.bounded higher).call f vs span =
      (((s.bounded limit).call f vs span).1,
        ((s.bounded limit).call f vs span).2.bounded higher) := by
  have within (n : Nat) : (s.bounded n).machine.active ≤ n := rest.idle.trans_le (Nat.zero_le n)
  have below := (Session.callHalts (within limit) f vs span).raise fine lower
  obtain ⟨same, machine⟩ := (Session.callHalts (within higher) f vs span).unique below
  refine Prod.ext same ?_
  rw [callSession, callSession (s.bounded limit), machine]
  rfl

theorem overflowAnswer {r : Except EvalError Value} :
    TooDeep (some (r.mapError .eval)) ↔ Overflow r := by
  cases r <;> simp [TooDeep, Overflow, Except.mapError]

theorem actRaise (rest : s.AtRest) (a : Action)
    (fine : ¬ TooDeep ((s.bounded limit).answer a)) (lower : limit ≤ higher) :
    (s.bounded higher).answer a = (s.bounded limit).answer a ∧
      (s.bounded higher).act a = ((s.bounded limit).act a).bounded higher := by
  cases a with
  | run source =>
    cases read : readProgram source with
    | error f => simp [Session.answer, Session.act, Session.run, read, Session.bounded]
    | ok p =>
      simp only [Session.answer, Session.run, read, overflowAnswer] at fine
      simp [Session.answer, Session.act, Session.run, read, evaluateRaise p fine lower]
  | evaluate p =>
    simp only [Session.answer, overflowAnswer] at fine
    simp [Session.answer, Session.act, evaluateRaise p fine lower]
  | runApart source => exact ⟨rfl, rfl⟩
  | define name v => exact ⟨rfl, rfl⟩
  | call f vs span =>
    simp only [Session.answer, overflowAnswer] at fine
    simp [Session.answer, Session.act, callRaise rest f vs span fine lower]

theorem historyRaise (rest : s.AtRest) (lower : limit ≤ higher) (actions : List Action)
    (fine : ∀ seen ∈ (s.bounded limit).history actions, ¬ TooDeep seen.1) :
    (s.bounded higher).history actions = (s.bounded limit).history actions := by
  induction actions generalizing s with
  | nil => rfl
  | cons a actions ih =>
    obtain ⟨first, later⟩ := List.forall_mem_cons.mp fine
    obtain ⟨same, acted⟩ := actRaise rest a first lower
    have rest' : (s.bounded limit).AtRest := ⟨rest.idle, rest.outside⟩
    obtain ⟨store, kept⟩ := rest'.act a
    have next : (s.bounded limit).act a = (s.withStore store).bounded limit := kept
    rw [next] at acted later
    have tail := ih (rest.withStore store) later
    have acted' : (s.bounded higher).act a = (s.withStore store).bounded higher := acted
    simp only [Session.history, same, acted', next, tail]
    rfl

end sessions

def Session.activeCounts (s : Session) (limit : Nat) (p : Program) : Set Nat :=
  {n | ∃ c, Reaches limit (s.evaluating p) c ∧ c.pending.bodies = n}

section threshold

variable {s : Session} {p : Program} {limit least : Nat}

theorem activeWithin {n : Nat} (active : n ∈ s.activeCounts limit p) : n ≤ limit := by
  obtain ⟨c, run, rfl⟩ := active
  have counted := reachesCounted run ⟨rfl, Nat.zero_le limit⟩
  exact counted.exact ▸ counted.within

theorem entersLast {c : Config} (run : Reaches (limit + 1) (s.evaluating p) c)
    (full : c.Full limit) (room : ¬ c.Full (limit + 1)) :
    limit + 1 ∈ s.activeCounts (limit + 1) p := by
  have counted := reachesCounted run ⟨rfl, Nat.zero_le (limit + 1)⟩
  cases full with
  | @application f vs span k m arity full =>
    have below : ¬ limit + 1 ≤ m.active := fun full => room (.application arity full)
    have active : m.active = k.bodies := counted.exact
    refine ⟨_, run.trans (.next (congrArg some (if_neg (not_not_intro arity))) (.here _)), ?_⟩
    rw [if_neg below]
    simp only [Pending.enter, Pending.bodies]
    omega

theorem leastActive (fine : ¬ Overflow ((s.bounded least).evaluate p).1)
    (below : ∀ limit < least, Overflow ((s.bounded limit).evaluate p).1) :
    least ∈ s.activeCounts least p := by
  cases least with
  | zero => exact ⟨s.evaluating p, .here _, rfl⟩
  | succ limit =>
    obtain ⟨o, run, final⟩ := haltsReaches.mp ((s.bounded (limit + 1)).evaluateHalts p)
    generalize ((s.bounded (limit + 1)).evaluate p).2.machine = m at run
    have clean := (overflowFinal (m := m)).not.mp (final ▸ fine)
    by_contra absent
    have room : ∀ c, Reaches (limit + 1) (s.evaluating p) c → ¬ c.Full limit := by
      intro c reached full
      obtain ⟨_, onward⟩ := reached.retrace (Nat.le_refl _) run clean (stepEnded _ o m)
      exact absent (entersLast reached full (roomBefore onward clean (stepEnded _ o m)))
    have same := haltsReaches.mpr ⟨o, run.lower (Nat.le_succ limit) room, final⟩
    have halts := ((s.bounded limit).evaluateHalts p).unique same
    exact fine (halts.1 ▸ below limit (Nat.lt_succ_self limit))

theorem countsHigher (fine : ¬ Overflow ((s.bounded least).evaluate p).1) (lower : least ≤ limit) :
    s.activeCounts limit p = s.activeCounts least p := by
  obtain ⟨o, run, final⟩ := haltsReaches.mp ((s.bounded least).evaluateHalts p)
  generalize ((s.bounded least).evaluate p).2.machine = m at run
  have clean := (overflowFinal (m := m)).not.mp (final ▸ fine)
  ext n
  constructor
  · rintro ⟨c, reached, active⟩
    exact ⟨c, (reached.retrace lower run clean (stepEnded _ o m)).1, active⟩
  · rintro ⟨c, reached, active⟩
    obtain ⟨_, onward⟩ := reached.retrace (Nat.le_refl _) run clean (stepEnded _ o m)
    exact ⟨c, reached.raise (fun overflows => clean (overflowReaches overflows onward)) lower, active⟩

theorem leastGreatest (fine : ¬ Overflow ((s.bounded least).evaluate p).1)
    (below : ∀ limit < least, Overflow ((s.bounded limit).evaluate p).1) (lower : least ≤ limit) :
    IsGreatest (s.activeCounts limit p) least := by
  rw [countsHigher fine lower]
  exact ⟨leastActive fine below, fun _ active => activeWithin active⟩

end threshold

/-- As long as no step of a session runs into its limit, the session is the same under every
higher one. So a program either runs into every limit or needs a least one, below which it always
runs into the limit and from which on nothing changes; this is the greatest number of bodies that
are active at once. -/
theorem depthThreshold :
    (∀ (limit higher : Nat) (actions : List Action), limit ≤ higher →
      (∀ seen ∈ (Session.start limit).history actions, ¬ TooDeep seen.1) →
      (Session.start higher).history actions = (Session.start limit).history actions) ∧
    (∀ (s : Session) (p : Program),
      (∀ limit, Overflow ((s.bounded limit).evaluate p).1) ∨
      ∃ least, (∀ limit < least, Overflow ((s.bounded limit).evaluate p).1) ∧
        ∀ limit ≥ least, ¬ Overflow ((s.bounded limit).evaluate p).1 ∧
          (s.bounded limit).evaluate p = (((s.bounded least).evaluate p).1,
            ((s.bounded least).evaluate p).2.bounded limit) ∧
          IsGreatest (s.activeCounts limit p) least) ∧
    ∀ (s : Session) (p : Program) (limit : Nat) (c : Config),
      Reaches limit (s.evaluating p) c → c.machine.active = c.pending.bodies := by
  classical
  refine ⟨?_, ?_, ?_⟩
  · intro limit higher actions lower fine
    exact historyRaise (Session.startAtRest 0) lower actions fine
  · intro s p
    by_cases always : ∀ limit, Overflow ((s.bounded limit).evaluate p).1
    · exact .inl always
    · have some := not_forall.mp always
      have fine := Nat.find_spec some
      have below : ∀ limit < Nat.find some, Overflow ((s.bounded limit).evaluate p).1 :=
        fun limit lower => not_not.mp (Nat.find_min some lower)
      refine .inr ⟨Nat.find some, below, fun limit lower => ?_⟩
      have same := evaluateRaise p fine lower
      exact ⟨same ▸ fine, same, leastGreatest fine below lower⟩
  · intro s p limit c reached
    exact (reachesCounted reached ⟨rfl, Nat.zero_le limit⟩).exact

def appliedThrice : Program :=
  let name (text : String) : Ident := ⟨text, .nowhere⟩
  let apply (e : Expr) : Expr := .call (.name (name "f")) [e] .nowhere
  ⟨[.expression (.function (some (name "f")) [name "n"]
      (.mk [.expression (.name (name "n")) .nowhere] .nowhere) .nowhere) .nowhere,
    .expression (apply (apply (apply (.integer 1 .nowhere)))) .nowhere]⟩

theorem nestedArgumentsFit : 1 ≤ 2 ∧
    (∀ seen ∈ (Session.start 1).history [.evaluate appliedThrice], ¬ TooDeep seen.1) ∧
    (Session.start 2).history [.evaluate appliedThrice] =
      (Session.start 1).history [.evaluate appliedThrice] := by
  have answered : ((Session.start 1).answer (.evaluate appliedThrice)).map Except.isOk =
      some true := by decide +kernel
  have shallow : ¬ TooDeep ((Session.start 1).answer (.evaluate appliedThrice)) := by
    rintro ⟨e, failed, _⟩
    rw [failed] at answered
    cases answered
  have fine : ∀ seen ∈ (Session.start 1).history [.evaluate appliedThrice],
      ¬ TooDeep seen.1 := by
    intro seen member
    obtain rfl := List.mem_singleton.mp member
    exact shallow
  exact ⟨by decide, fine, depthThreshold.1 1 2 _ (by decide) fine⟩

end Scriptlet

import Scriptlet.Proofs.Covering
import Scriptlet.Proofs.ViablePrefix

/-! The spans of a tree that is read.
An open tree fits before a token if what it has covers earlier tokens, each part behind the one
before, and if it remembers the token that each unfinished node began with. What begins there then
covers all tokens up to the one that was read last, so reading keeps open trees fitting. -/
namespace Scriptlet

section fits

variable (spans : List Span)

mutual

inductive SlotFits : Slot → Nat → Prop where
  | goal {goal b} (around : GoalFits goal b) : SlotFits ⟨[], goal⟩ b
  | unary {op waiting goal i b} (around : SlotFits ⟨waiting, goal⟩ i) (before : i < b) :
      SlotFits ⟨.unary op (spanAt spans i) :: waiting, goal⟩ b
  | binary {op left waiting goal i j b} (around : SlotFits ⟨waiting, goal⟩ i)
      (first : Covers spans (.expr left) i j) (before : j ≤ b) :
      SlotFits ⟨.binary op left :: waiting, goal⟩ b

inductive GoalFits : Goal → Nat → Prop where
  | whole {b} : GoalFits .whole b
  | statement {body i b} (around : BodyFits body i) (before : i ≤ b) :
      GoalFits (.statement (spanAt spans i) body) b
  | binding {own body i b} (around : BodyFits body i)
      (name : Row (Covers spans) i [.introduced own] b) :
      GoalFits (.binding (spanAt spans i) own body) b
  | returning {body i b} (around : BodyFits body i) (before : i < b) :
      GoalFits (.returning (spanAt spans i) body) b
  | grouped {outer i b} (around : SlotFits outer i) (before : i ≤ b) : GoalFits (.grouped outer) b
  | argument {callee earlier outer i j b} (around : SlotFits outer i)
      (function : Covers spans (.expr callee) i j)
      (values : Row (Covers spans) j (earlier.reverse.map .expr) b) :
      GoalFits (.argument callee earlier outer) b
  | condition {outer i b} (around : SlotFits outer i) (before : i ≤ b) :
      GoalFits (.condition (spanAt spans i) outer) b

inductive BodyFits : Body → Nat → Prop where
  | program {earlier b} (statements : Row (Covers spans) 0 (earlier.reverse.map .stmt) b) :
      BodyFits (.program earlier) b
  | block {earlier owner i b} (around : OwnerFits owner i)
      (statements : Row (Covers spans) i (earlier.reverse.map .stmt) b) :
      BodyFits (.block (spanAt spans i) earlier owner) b

inductive OwnerFits : Owner → Nat → Prop where
  | statement {body i b} (around : BodyFits body i) (before : i ≤ b) :
      OwnerFits (.statement (spanAt spans i) body) b
  | consequence {test outer i b} (around : SlotFits outer i)
      (heading : Row (Covers spans) i [.expr test] b) :
      OwnerFits (.consequence (spanAt spans i) test outer) b
  | alternative {test first outer i b} (around : SlotFits outer i)
      (heading : Row (Covers spans) i [.expr test, .block first] b) :
      OwnerFits (.alternative (spanAt spans i) test first outer) b
  | function {own parameters outer i b} (around : SlotFits outer i)
      (heading : Row (Covers spans) i
        (own.toList.map .introduced ++ parameters.map .parameter) b) :
      OwnerFits (.function (spanAt spans i) own parameters outer) b

end

/- Before the token with number `k` is read. -/
inductive PhaseFits : Phase → Nat → Prop where
  | statement {body k} (around : BodyFits spans body k) : PhaseFits (.statement body) k
  | bindingName {body i k} (around : BodyFits spans body i) (before : i < k) :
      PhaseFits (.bindingName (spanAt spans i) body) k
  | bindingSign {start own body k} (around : GoalFits spans (.binding start own body) k) :
      PhaseFits (.bindingSign start own body) k
  | returnValue {start body k} (around : GoalFits spans (.returning start body) k) :
      PhaseFits (.returnValue start body) k
  | operand {slot k} (around : SlotFits spans slot k) : PhaseFits (.operand slot) k
  | connective {e slot i j k} (around : SlotFits spans slot i)
      (whole : Covers spans (.expr e) i j) (before : j ≤ k) : PhaseFits (.connective e slot) k
  | argument {callee earlier outer k} (around : GoalFits spans (.argument callee earlier outer) k) :
      PhaseFits (.argument callee earlier outer) k
  | condition {start outer k} (around : GoalFits spans (.condition start outer) k) :
      PhaseFits (.condition start outer) k
  | blockOpening {owner k} (around : OwnerFits spans owner k) : PhaseFits (.blockOpening owner) k
  | alternative {start test first outer k}
      (around : OwnerFits spans (.alternative start test first outer) k) :
      PhaseFits (.alternative start test first outer) k
  | functionName {start outer k} (around : OwnerFits spans (.function start none [] outer) k) :
      PhaseFits (.functionName start outer) k
  | parametersOpening {start own outer k}
      (around : OwnerFits spans (.function start (some own) [] outer) k) :
      PhaseFits (.parametersOpening start own outer) k
  | parameter {start own earlier outer k}
      (around : OwnerFits spans (.function start own earlier.reverse outer) k) :
      PhaseFits (.parameter start own earlier outer) k
  | parameterEnd {start own earlier outer k}
      (around : OwnerFits spans (.function start own earlier.reverse outer) k) :
      PhaseFits (.parameterEnd start own earlier outer) k
  | program {ss b k} (statements : Row (Covers spans) 0 (ss.map .stmt) b)
      (within : b ≤ spans.length) : PhaseFits (.program ss) k
  | expression {e k} : PhaseFits (.expression e) k

structure Next (k : Nat) (last : Span) (t : Token) : Prop where
  within : k ≤ spans.length
  last : 0 < k → last = spanAt spans (k - 1)
  real : t.kind ≠ .endOfInput → k < spans.length ∧ t.span = spanAt spans k

end fits

section reading

variable {spans : List Span} {a b i j k : Nat} {last : Span} {t : Token} {e : Expr}

theorem BodyFits.widen {body : Body} (fits : BodyFits spans body a) (further : a ≤ b) :
    BodyFits spans body b := by
  cases fits with
  | program statements => exact .program (statements.widen (Nat.le_refl _) further)
  | block around statements => exact .block around (statements.widen (Nat.le_refl _) further)

theorem GoalFits.widen {goal : Goal} (fits : GoalFits spans goal a) (further : a ≤ b) :
    GoalFits spans goal b := by
  cases fits with
  | whole => exact .whole
  | statement around before => exact .statement around (Nat.le_trans before further)
  | binding around name => exact .binding around (name.widen (Nat.le_refl _) further)
  | returning around before => exact .returning around (Nat.lt_of_lt_of_le before further)
  | grouped around before => exact .grouped around (Nat.le_trans before further)
  | argument around function values =>
    exact .argument around function (values.widen (Nat.le_refl _) further)
  | condition around before => exact .condition around (Nat.le_trans before further)

theorem OwnerFits.widen {owner : Owner} (fits : OwnerFits spans owner a) (further : a ≤ b) :
    OwnerFits spans owner b := by
  cases fits with
  | statement around before => exact .statement around (Nat.le_trans before further)
  | consequence around heading => exact .consequence around (heading.widen (Nat.le_refl _) further)
  | alternative around heading => exact .alternative around (heading.widen (Nat.le_refl _) further)
  | function around heading => exact .function around (heading.widen (Nat.le_refl _) further)

theorem SlotFits.widen {slot : Slot} (fits : SlotFits spans slot a) (further : a ≤ b) :
    SlotFits spans slot b := by
  cases fits with
  | goal around => exact .goal (around.widen further)
  | unary around before => exact .unary around (Nat.lt_of_lt_of_le before further)
  | binary around first before => exact .binary around first (Nat.le_trans before further)

theorem BodyFits.add {body : Body} {s : Stmt} (fits : BodyFits spans body i)
    (covers : Covers spans (.stmt s) i j) : BodyFits spans (body.add s) j := by
  have last := covers.alone (Nat.le_refl i) (Nat.le_refl j)
  cases fits with
  | program statements => exact .program (by simpa using statements.append last)
  | block around statements => exact .block around (by simpa using statements.append last)

theorem SlotFits.push {slot : Slot} {op : UnaryOp} (fits : SlotFits spans slot k) :
    SlotFits spans (slot.push (.unary op (spanAt spans k))) (k + 1) := by
  cases slot with
  | mk waiting goal => exact .unary fits (Nat.lt_succ_self k)

theorem startFits {slot : Slot} {phase : Phase} (fits : SlotFits spans slot k)
    (next : Next spans k last t) (ok : slot.start t = .ok phase) :
    PhaseFits spans phase (k + 1) := by
  have plain : t.kind ≠ .endOfInput := by
    intro stop
    simp [Slot.start, stop] at ok
  obtain ⟨within, place⟩ := next.real plain
  have later := Nat.le_succ k
  have leaf {e : Expr} (span : e.span = spanAt spans k) (alone : (Node.expr e).children = []) :
      PhaseFits spans (.connective e slot) (k + 1) :=
    .connective fits (.token within span alone) (Nat.le_refl _)
  simp only [Slot.start, place] at ok
  split at ok
  · cases ok
    exact .operand fits.push
  · cases ok
    exact .operand fits.push
  · split at ok
    · cases ok
      exact leaf rfl rfl
    · cases ok
  · cases ok
    exact leaf rfl rfl
  · cases ok
    exact leaf rfl rfl
  · cases ok
    exact leaf rfl rfl
  · cases ok
    exact leaf rfl rfl
  · cases ok
    exact .operand (.goal (.grouped fits later))
  · cases ok
    exact .condition (.condition fits later)
  · cases ok
    exact .functionName (.function fits (.none later))
  · cases ok

section ordered

variable (order : Orderly spans)
include order

theorem Next.ends (next : Next spans k last t) (some : i < j) (behind : j ≤ k) :
    (stretch spans i j).extend last = stretch spans i k := by
  rw [next.last (by omega)]
  exact order.extend some behind next.within

theorem receiveBlockFits {owner : Owner} {body : Block} (fits : OwnerFits spans owner i)
    (covers : Covers spans (.block body) i (k + 1)) :
    PhaseFits spans (owner.receive (spanAt spans k) body) (k + 1) := by
  have within := covers.self.within
  have alone := covers.alone (Nat.le_refl i) (Nat.le_refl (k + 1))
  have ends {a : Nat} (before : a ≤ i) :
      (spanAt spans a).extend (spanAt spans k) = stretch spans a (k + 1) :=
    order.extend (Nat.lt_succ_self a) (Nat.lt_of_le_of_lt before covers.self.some) within
  cases fits with
  | statement around before =>
    have row := alone.widen before (Nat.le_refl _)
    exact .statement (around.add (.node (row.filled (by simp)) within (ends before) row))
  | consequence around heading => exact .alternative (.alternative around (heading.append alone))
  | alternative around heading | function around heading =>
    have row := heading.append alone
    exact .connective around (.node (row.filled (by simp)) within (ends heading.order) row)
      (Nat.le_refl _)

theorem readBodyFits {body : Body} {phase : Phase} (fits : BodyFits spans body k)
    (next : Next spans k last t) (ok : body.read t = .ok phase) :
    PhaseFits spans phase (k + 1) := by
  have later := Nat.le_succ k
  by_cases stop : t.kind = .endOfInput
  · cases fits with
    | program statements =>
      simp only [Body.read, stop] at ok
      cases ok
      exact .program statements next.within
    | block => simp [Body.read, stop] at ok
  obtain ⟨within, place⟩ := next.real stop
  simp only [Body.read, place] at ok
  split at ok
  · cases ok
    exact .statement (fits.widen later)
  · cases ok
    exact .bindingName fits (Nat.lt_succ_self k)
  · cases ok
    exact .returnValue (.returning fits (Nat.lt_succ_self k))
  · cases ok
    exact .statement (.block (.statement fits (Nat.le_refl k)) (.none later))
  · cases fits with
    | program => cases ok
    | @block _ _ i _ around statements =>
      cases ok
      have row := statements.widen (Nat.le_refl i) later
      have span : (spanAt spans i).extend (spanAt spans k) = stretch spans i (k + 1) :=
        order.extend (Nat.lt_succ_self i) (Nat.succ_le_succ statements.order) within
      refine receiveBlockFits order around (.node ?_ within span row)
      exact Nat.lt_succ_of_le statements.order
  · rename_i kind
    exact absurd kind stop
  · exact startFits (.goal (.statement fits (Nat.le_refl k))) next ok

theorem applyFits {w : Waiting} {waiting : List Waiting} {goal : Goal}
    (fits : PhaseFits spans (.connective e ⟨w :: waiting, goal⟩) k)
    (next : Next spans k last t) :
    PhaseFits spans (.connective (w.apply last e) ⟨waiting, goal⟩) k := by
  cases fits with
  | connective around whole before =>
    have operand := whole.alone (Nat.le_refl _) before
    cases around with
    | unary around first =>
      have row := operand.widen (Nat.le_of_lt first) (Nat.le_refl k)
      have ends := next.ends order (Nat.lt_succ_self _) (Nat.lt_of_lt_of_le first operand.order)
      exact .connective around (.node (row.filled (by simp)) next.within ends row) (Nat.le_refl k)
    | binary around first behind =>
      have row := (first.alone (Nat.le_refl _) behind).append operand
      have ends := next.ends order first.self.some (Nat.le_trans behind operand.order)
      rw [← first.self.span] at ends
      exact .connective around (.node (row.filled (by simp)) next.within ends row) (Nat.le_refl k)

theorem reduceFits {p : Precedence} {waiting : List Waiting} {goal : Goal}
    (fits : PhaseFits spans (.connective e ⟨waiting, goal⟩) k) (next : Next spans k last t) :
    PhaseFits spans (.connective (reduce p last e waiting).1
      ⟨(reduce p last e waiting).2, goal⟩) k := by
  induction waiting generalizing e with
  | nil => exact fits
  | cons w waiting ih =>
    rw [reduce]
    split
    · exact fits
    · exact ih (applyFits order fits next)

theorem finishCallFits {callee : Expr} {earlier : List Expr} {outer : Slot}
    (fits : GoalFits spans (.argument callee earlier outer) (k + 1)) (within : k < spans.length) :
    PhaseFits spans (finishCall callee earlier (spanAt spans k) outer) (k + 1) := by
  cases fits with
  | argument around function values =>
    have row := (function.alone (Nat.le_refl _) (Nat.le_refl _)).append values
    have ends := order.extend function.self.some values.order within
    rw [← function.self.span] at ends
    exact .connective around (.node (row.filled (by simp)) within ends row) (Nat.le_refl _)

theorem receiveFits {goal : Goal} {phase : Phase}
    (fits : PhaseFits spans (.connective e ⟨[], goal⟩) k) (next : Next spans k last t)
    (ok : goal.receive last e t = .ok phase) : PhaseFits spans phase (k + 1) := by
  cases fits with
  | @connective _ _ i j _ outside whole before =>
  cases outside with
  | goal outside =>
  have later := Nat.le_succ k
  have alone := whole.alone (Nat.le_refl i) before
  have ends {a : Nat} (behind : a ≤ i) : (spanAt spans a).extend last = stretch spans a k :=
    next.ends order (Nat.lt_succ_self a) (Nat.lt_of_le_of_lt behind (alone.filled (by simp)))
  cases outside with
  | whole =>
    cases ok
    exact .expression
  | statement around behind =>
    have row := alone.widen behind (Nat.le_refl k)
    refine readBodyFits order (around.add ?_) next ok
    exact .node (row.filled (by simp)) next.within (ends behind) row
  | binding around name =>
    have row := name.append alone
    refine readBodyFits order (around.add ?_) next ok
    exact .node (row.filled (by simp)) next.within (ends name.order) row
  | returning around behind =>
    have row := alone.widen (Nat.le_of_lt behind) (Nat.le_refl k)
    refine readBodyFits order (around.add ?_) next ok
    exact .node (row.filled (by simp)) next.within (ends (Nat.le_of_lt behind)) row
  | grouped around behind =>
    simp only [Goal.receive] at ok
    split at ok
    · cases ok
      exact .connective (around.widen behind) whole (Nat.le_trans before later)
    · cases ok
  | argument around function values =>
    have row := values.append (alone.widen (Nat.le_refl i) later)
    simp only [Goal.receive] at ok
    split at ok
    · cases ok
      exact .argument (.argument around function (by simpa using row))
    · rename_i kind
      obtain ⟨within, place⟩ := next.real (by simp [kind])
      rw [place] at ok
      cases ok
      exact finishCallFits order (.argument around function (by simpa using row)) within
    · cases ok
  | condition around behind =>
    simp only [Goal.receive] at ok
    split at ok
    · cases ok
      exact .blockOpening (.consequence around (alone.widen behind later))
    · cases ok

theorem extendFits {slot : Slot} {phase : Phase} (fits : PhaseFits spans (.connective e slot) k)
    (next : Next spans k last t) (ok : slot.extend last e t = .ok phase) :
    PhaseFits spans phase (k + 1) := by
  cases slot with
  | mk waiting goal =>
  simp only [Slot.extend] at ok
  split at ok
  · rename_i op _
    have reduced := reduceFits order (p := op.precedence) fits next
    cases ok
    cases reduced with
    | connective around whole before =>
      exact .operand (.binary around whole (Nat.le_trans before (Nat.le_succ k)))
  · have reduced := reduceFits order (p := .call) fits next
    cases ok
    cases reduced with
    | connective around whole before =>
      exact .argument (.argument around whole (.none (Nat.le_trans before (Nat.le_succ k))))
  · have reduced := reduceFits order (p := .lowest) fits next
    simp only [reduceAllReduce] at reduced
    exact receiveFits order reduced next ok

theorem returnFits {start : Span} {body : Body} {phase : Phase}
    (fits : GoalFits spans (.returning start body) k) (next : Next spans k last t)
    (ok : (Phase.returnValue start body).read last t = .ok phase) :
    PhaseFits spans phase (k + 1) := by
  cases id fits with
  | @returning _ i _ around before =>
    have ends := next.ends order (Nat.lt_succ_self i) before
    have node : Covers spans (.stmt (.returning none ((spanAt spans i).extend last))) i k :=
      .node before next.within ends (.none (Nat.le_of_lt before))
    simp only [Phase.read] at ok
    split at ok
    · exact readBodyFits order (around.add node) next ok
    · exact readBodyFits order (around.add node) next ok
    · exact readBodyFits order (around.add node) next ok
    · exact startFits (.goal fits) next ok

theorem noAlternativeFits {start : Span} {test : Expr} {first : Block} {outer : Slot}
    (fits : OwnerFits spans (.alternative start test first outer) k) (next : Next spans k last t) :
    PhaseFits spans (.connective (.conditional test first none (start.extend last)) outer) k := by
  cases fits with
  | @alternative _ _ _ i _ around heading =>
    have some := heading.filled (by simp)
    have ends := next.ends order (Nat.lt_succ_self i) some
    exact .connective around (.node some next.within ends heading) (Nat.le_refl k)

end ordered

theorem Next.name (own : Ident → Node) (next : Next spans k last t) (kind : t.kind = .identifier)
    (span : ∀ i, (own i).span = i.span) (leaf : ∀ i, (own i).children = []) (before : a ≤ k) :
    Row (Covers spans) a [own ⟨t.text, t.span⟩] (k + 1) := by
  obtain ⟨within, place⟩ := next.real (by simp [kind])
  have covers := Covers.token within ((span ⟨t.text, t.span⟩).trans place) (leaf _)
  exact covers.alone before (Nat.le_refl _)

theorem OwnerFits.named {start : Span} {outer : Slot}
    (fits : OwnerFits spans (.function start none [] outer) k) (next : Next spans k last t)
    (kind : t.kind = .identifier) :
    OwnerFits spans (.function start (some ⟨t.text, t.span⟩) [] outer) (k + 1) := by
  cases fits with
  | function around heading =>
    have name := next.name .introduced kind (fun _ => rfl) (fun _ => rfl) (Nat.le_refl k)
    exact .function around (by simpa using heading.append name)

theorem OwnerFits.parameter {start : Span} {own : Option Ident} {earlier : List Ident}
    {outer : Slot} (fits : OwnerFits spans (.function start own earlier.reverse outer) k)
    (next : Next spans k last t) (kind : t.kind = .identifier) :
    OwnerFits spans (.function start own (⟨t.text, t.span⟩ :: earlier).reverse outer) (k + 1) := by
  cases fits with
  | function around heading =>
    have name := next.name .parameter kind (fun _ => rfl) (fun _ => rfl) (Nat.le_refl k)
    exact .function around (by simpa using heading.append name)

theorem readFits {phase later : Phase} (order : Orderly spans) (fits : PhaseFits spans phase k)
    (next : Next spans k last t) (ok : phase.read last t = .ok later) :
    PhaseFits spans later (k + 1) := by
  have further := Nat.le_succ k
  cases fits with
  | statement around => exact readBodyFits order around next ok
  | bindingName around before =>
    simp only [Phase.read] at ok
    split at ok
    · rename_i kind
      have name := next.name .introduced kind (fun _ => rfl) (fun _ => rfl)
        (Nat.le_of_lt before)
      cases ok
      exact .bindingSign (.binding around name)
    · cases ok
  | bindingSign around | condition around =>
    simp only [Phase.read] at ok
    split at ok
    · cases ok
      exact .operand (.goal (around.widen further))
    · cases ok
  | returnValue around => exact returnFits order around next ok
  | operand around => exact startFits around next ok
  | connective around whole before =>
    exact extendFits order (.connective around whole before) next ok
  | argument around =>
    simp only [Phase.read] at ok
    split at ok
    · rename_i kind
      obtain ⟨within, place⟩ := next.real (by simp [kind])
      rw [place] at ok
      cases ok
      exact finishCallFits order (around.widen further) within
    · exact startFits (.goal around) next ok
  | blockOpening around =>
    simp only [Phase.read] at ok
    split at ok
    · rename_i kind
      obtain ⟨_, place⟩ := next.real (by simp [kind])
      rw [place] at ok
      cases ok
      exact .statement (.block around (.none further))
    · cases ok
  | alternative around =>
    simp only [Phase.read] at ok
    split at ok
    · cases ok
      exact .blockOpening (around.widen further)
    · exact extendFits order (noAlternativeFits order around next) next ok
  | functionName around =>
    simp only [Phase.read] at ok
    split at ok
    · rename_i kind
      cases ok
      exact .parametersOpening (around.named next kind)
    · cases ok
      exact .parameter (around.widen further)
    · cases ok
  | parametersOpening around =>
    simp only [Phase.read] at ok
    split at ok
    · cases ok
      exact .parameter (around.widen further)
    · cases ok
  | parameter around =>
    simp only [Phase.read] at ok
    split at ok
    · cases ok
      exact .blockOpening (around.widen further)
    · rename_i kind
      cases ok
      exact .parameterEnd (around.parameter next kind)
    · cases ok
  | parameterEnd around =>
    simp only [Phase.read] at ok
    split at ok
    · cases ok
      exact .blockOpening (around.widen further)
    · cases ok
      exact .parameter (around.widen further)
    · cases ok
  | program statements within =>
    cases ok
    exact .program statements within
  | expression =>
    cases ok
    exact .expression

theorem runFits {done rest : List Token} {q r : Parser} (order : Orderly spans)
    (split : spans = (done ++ rest).map Token.span) (fits : PhaseFits spans q.phase done.length)
    (last : 0 < done.length → q.last = spanAt spans (done.length - 1))
    (run : rest.foldlM Parser.read q = .ok r) : PhaseFits spans r.phase spans.length ∧
      (0 < spans.length → r.last = spanAt spans (spans.length - 1)) := by
  induction rest generalizing done q with
  | nil =>
    cases run
    have whole : done.length = spans.length := by simp [split]
    rw [whole] at fits last
    exact ⟨fits, last⟩
  | cons t rest ih =>
    simp only [List.foldlM_cons, bind, Except.bind] at run
    split at run
    · cases run
    · rename_i next read
      have inside : done.length < spans.length := by simp [split]
      have place : t.span = spanAt spans done.length := by simp [spanAt, split]
      have here : Next spans done.length q.last t :=
        ⟨Nat.le_of_lt inside, last, fun _ => ⟨inside, place⟩⟩
      refine @ih (done ++ [t]) _ (by simpa using split) ?_ (fun _ => ?_) run
      · simpa using readFits order fits here (parserRead read)
      · simpa [readLast read] using place

end reading

theorem parseCovers {inner : List Token} {last : Position} {p : Program}
    (order : Orderly (inner.map Token.span)) (parsed : parse (inner ++ [.endAt last]) = .ok p) :
    ∃ b ≤ (inner.map Token.span).length,
      Row (Covers (inner.map Token.span)) 0 (p.statements.map .stmt) b := by
  -- The end of input closes the tree, and nothing behind it is looked at.
  obtain ⟨q, before, read⟩ := parsedBefore rfl parsed
  have start : PhaseFits (inner.map Token.span) Parser.ofProgram.phase 0 :=
    .statement (.program (.none (Nat.le_refl 0)))
  obtain ⟨fits, place⟩ := @runFits _ [] inner _ _ order rfl start nofun before
  have next : Next (inner.map Token.span) _ q.last (.endAt last) :=
    ⟨Nat.le_refl _, place, fun real => absurd rfl real⟩
  cases readFits order fits next read with
  | program statements within => exact ⟨_, within, statements⟩

theorem nodePlaced {source : String} {ts : List Token} {p : Program} {n : Node}
    (lexed : tokenize source = .ok ts) (parsed : parse ts = .ok p) (inside : p.Has n) :
    n.Placed ts := by
  obtain ⟨inner, last, rfl, order, real⟩ := (tokenizeLexes lexed).orderly
  obtain ⟨b, _, row⟩ := parseCovers order parsed
  obtain ⟨t, statement, inside⟩ := inside
  obtain ⟨_, _, _, _, _, covers⟩ := row.member (List.mem_map_of_mem statement)
  obtain ⟨i, j, nested⟩ := covers.below n inside
  exact nested.placed order fun t member => ⟨List.mem_append_left _ member, (real t member).1⟩

/-- In every source that is read, each node of the tree begins where a token does and stops where
one does, has text in it and all its children, and these stand one behind the other, as do the
statements of the program. -/
theorem spansNest {source : String} {ts : List Token} {p : Program}
    (lexed : tokenize source = .ok ts) (parsed : parse ts = .ok p) :
    (∀ n, p.Has n → n.Placed ts) ∧
      p.statements.Pairwise fun s t => s.span.stop.UpTo t.span.start := by
  refine ⟨fun n inside => nodePlaced lexed parsed inside, ?_⟩
  obtain ⟨inner, last, rfl, order, real⟩ := (tokenizeLexes lexed).orderly
  obtain ⟨b, within, row⟩ := parseCovers order parsed
  have apart := (row.imp fun _ _ _ covers => covers.self.span).apart order within
  exact List.pairwise_map.mp apart

def groupedCall : Program :=
  ⟨[.expression (.call (.name ⟨"f", ⟨⟨1, 1, 2⟩, ⟨2, 1, 3⟩⟩⟩)
      [.name ⟨"x", ⟨⟨4, 1, 5⟩, ⟨5, 1, 6⟩⟩⟩] ⟨⟨1, 1, 2⟩, ⟨6, 1, 7⟩⟩) ⟨⟨0, 1, 1⟩, ⟨6, 1, 7⟩⟩,
    .returning none ⟨⟨7, 1, 8⟩, ⟨13, 1, 14⟩⟩]⟩

theorem groupedCallNests : ∃ ts, tokenize "(f)(x);return" = .ok ts ∧ parse ts = .ok groupedCall ∧
    (∀ n, groupedCall.Has n → n.Placed ts) ∧
    groupedCall.statements.Pairwise fun s t => s.span.stop.UpTo t.span.start := by
  have tokens : tokenize "(f)(x);return" = .ok
      [⟨⟨.leftParen, "("⟩, ⟨⟨0, 1, 1⟩, ⟨1, 1, 2⟩⟩⟩, ⟨⟨.identifier, "f"⟩, ⟨⟨1, 1, 2⟩, ⟨2, 1, 3⟩⟩⟩,
       ⟨⟨.rightParen, ")"⟩, ⟨⟨2, 1, 3⟩, ⟨3, 1, 4⟩⟩⟩, ⟨⟨.leftParen, "("⟩, ⟨⟨3, 1, 4⟩, ⟨4, 1, 5⟩⟩⟩,
       ⟨⟨.identifier, "x"⟩, ⟨⟨4, 1, 5⟩, ⟨5, 1, 6⟩⟩⟩, ⟨⟨.rightParen, ")"⟩, ⟨⟨5, 1, 6⟩, ⟨6, 1, 7⟩⟩⟩,
       ⟨⟨.semicolon, ";"⟩, ⟨⟨6, 1, 7⟩, ⟨7, 1, 8⟩⟩⟩,
       ⟨⟨.returnWord, "return"⟩, ⟨⟨7, 1, 8⟩, ⟨13, 1, 14⟩⟩⟩, .endAt ⟨13, 1, 14⟩] := by
    decide +kernel
  exact ⟨_, tokens, rfl, spansNest tokens rfl⟩

end Scriptlet

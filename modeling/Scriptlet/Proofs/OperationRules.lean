import Scriptlet.Operation

/-! The rules of the operators, and that operators follow them.
Truth and equality are of all values, functions being equal by their creation. Arithmetic and order
are of integers alone, and exact: a number out of range is no result but an overflow. -/
namespace Scriptlet

inductive Falsy : Value → Prop where
  | zero : Falsy (.integer 0)
  | no : Falsy (.boolean false)
  | empty : Falsy (.string "")
  | unit : Falsy .unit

inductive Equal : Value → Value → Prop where
  | integers (n : Int) : Equal (.integer n) (.integer n)
  | booleans (b : Bool) : Equal (.boolean b) (.boolean b)
  | strings (text : String) : Equal (.string text) (.string text)
  | functions {f g : Closure} (same : f.creation = g.creation) :
      Equal (.function f) (.function g)
  | units : Equal .unit .unit

def InRange (n : Int) : Prop := -9223372036854775808 ≤ n ∧ n ≤ 9223372036854775807

inductive Arithmetic : BinaryOp → Int → Int → Int → Prop where
  | sum (m n : Int) : Arithmetic .add m n (m + n)
  | difference (m n : Int) : Arithmetic .subtract m n (m - n)
  | product (m n : Int) : Arithmetic .multiply m n (m * n)
  | quotient {m n : Int} (divisor : n ≠ 0) : Arithmetic .divide m n (m.tdiv n)

inductive Order : BinaryOp → (Int → Int → Prop) → Prop where
  | less : Order .less fun m n => m < n
  | lessEqual : Order .lessEqual fun m n => m ≤ n
  | greater : Order .greater fun m n => m > n
  | greaterEqual : Order .greaterEqual fun m n => m ≥ n

def BinaryOp.ofIntegers : BinaryOp → Prop
  | equal | notEqual | and | or => False
  | _ => True

inductive UnaryRule : UnaryOp → Value → Except EvalFault Value → Prop where
  | not {v b} (holds : b = true ↔ Falsy v) : UnaryRule .not v (.ok (.boolean b))
  | negate {n} (range : InRange (-n)) : UnaryRule .negate (.integer n) (.ok (.integer (-n)))
  | overflow {n} (beyond : ¬ InRange (-n)) :
      UnaryRule .negate (.integer n) (.error (.integerOverflow UnaryOp.negate.symbol))
  | illegal {v} (other : ∀ n, v ≠ .integer n) :
      UnaryRule .negate v (.error (.illegalUnary .negate v))

inductive BinaryRule : BinaryOp → Value → Value → Except EvalFault Value → Prop where
  | exact {op m n k} (value : Arithmetic op m n k) (range : InRange k) :
      BinaryRule op (.integer m) (.integer n) (.ok (.integer k))
  | overflow {op m n k} (value : Arithmetic op m n k) (beyond : ¬ InRange k) :
      BinaryRule op (.integer m) (.integer n) (.error (.integerOverflow op.symbol))
  | byZero (m : Int) : BinaryRule .divide (.integer m) (.integer 0) (.error .divisionByZero)
  | ordered {op p m n b} (order : Order op p) (holds : b = true ↔ p m n) :
      BinaryRule op (.integer m) (.integer n) (.ok (.boolean b))
  | illegal {op v w} (kind : op.ofIntegers) (other : ∀ m n, v = .integer m → w ≠ .integer n) :
      BinaryRule op v w (.error (.illegalBinary op v w))
  | equal {v w b} (holds : b = true ↔ Equal v w) : BinaryRule .equal v w (.ok (.boolean b))
  | notEqual {v w b} (holds : b = true ↔ ¬ Equal v w) :
      BinaryRule .notEqual v w (.ok (.boolean b))
  | and {v w b} (holds : b = true ↔ ¬ Falsy v ∧ ¬ Falsy w) :
      BinaryRule .and v w (.ok (.boolean b))
  | or {v w b} (holds : b = true ↔ ¬ Falsy v ∨ ¬ Falsy w) :
      BinaryRule .or v w (.ok (.boolean b))

theorem falsyTruthy {v : Value} : Falsy v ↔ v.truthy = false := by
  constructor
  · intro falsy
    cases falsy <;> rfl
  · intro untrue
    cases v with
    | integer n =>
      obtain rfl : n = 0 := by simpa [Value.truthy] using untrue
      exact .zero
    | boolean b =>
      obtain rfl : b = false := untrue
      exact .no
    | string text =>
      obtain rfl : text = "" := by simpa [Value.truthy] using untrue
      exact .empty
    | function f => cases untrue
    | unit => exact .unit

theorem truthyFalsy {v : Value} : v.truthy = true ↔ ¬ Falsy v := by
  simp [falsyTruthy]

theorem sameEqual {v w : Value} : v.same w = true ↔ Equal v w := by
  constructor
  · intro same
    cases v <;> cases w <;> simp [Value.same] at same
    · exact same ▸ .integers _
    · exact same ▸ .booleans _
    · exact same ▸ .strings _
    · exact .functions same
    · exact .units
  · intro equal
    cases equal <;> simp [Value.same, *]

theorem notTruthy {v : Value} : (!v.truthy) = true ↔ Falsy v := by
  simp [falsyTruthy]

theorem bothTruthy {v w : Value} : (v.truthy && w.truthy) = true ↔ ¬ Falsy v ∧ ¬ Falsy w := by
  simp [truthyFalsy]

theorem eitherTruthy {v w : Value} : (v.truthy || w.truthy) = true ↔ ¬ Falsy v ∨ ¬ Falsy w := by
  simp [truthyFalsy]

theorem differentEqual {v w : Value} : (!v.same w) = true ↔ ¬ Equal v w := by
  simp [← sameEqual]

theorem checkedInRange {n : Int} (range : InRange n) : checked? n = some n := by
  have inside : fits n = true := by simp [fits, InRange] at *; omega
  simp [checked?, inside]

theorem checkedBeyond {n : Int} (beyond : ¬ InRange n) : checked? n = none := by
  have outside : fits n = false := by simp [fits, InRange] at *; omega
  simp [checked?, outside]

theorem sameTest {a b : Bool} {p : Prop} (left : a = true ↔ p) (right : b = true ↔ p) : a = b :=
  Bool.eq_iff_iff.mpr (left.trans right.symm)

theorem UnaryRule.apply {op : UnaryOp} {v : Value} {r : Except EvalFault Value}
    (h : UnaryRule op v r) : op.apply v = r := by
  cases h with
  | not holds =>
    have same := sameTest notTruthy holds
    simp only [UnaryOp.apply, same]
  | negate range => simp only [UnaryOp.apply, checkedInRange range]
  | overflow beyond => simp only [UnaryOp.apply, checkedBeyond beyond]
  | illegal other =>
    cases v with
    | integer n => exact absurd rfl (other n)
    | _ => rfl

theorem BinaryRule.apply {op : BinaryOp} {v w : Value} {r : Except EvalFault Value}
    (h : BinaryRule op v w r) : op.apply v w = r := by
  cases h with
  | exact value range =>
    cases value with
    | quotient divisor => simp [BinaryOp.apply, BinaryOp.arithmetic, checkedInRange range, divisor]
    | _ => simp only [BinaryOp.apply, BinaryOp.arithmetic, checkedInRange range]
  | overflow value beyond =>
    cases value with
    | quotient divisor => simp [BinaryOp.apply, BinaryOp.arithmetic, checkedBeyond beyond, divisor]
    | _ => simp only [BinaryOp.apply, BinaryOp.arithmetic, checkedBeyond beyond]
  | byZero => rfl
  | ordered order holds =>
    cases order <;> simp only [BinaryOp.apply, BinaryOp.comparison] <;>
      rw [sameTest decide_eq_true_iff holds]
  | illegal kind other =>
    cases v with
    | integer m =>
      cases w with
      | integer n => exact absurd rfl (other m n rfl)
      | _ => cases op <;> first | rfl | cases kind
    | _ => cases op <;> first | rfl | cases kind
  | equal holds => simp only [BinaryOp.apply, sameTest sameEqual holds]
  | notEqual holds => simp only [BinaryOp.apply, sameTest differentEqual holds]
  | and holds => simp only [BinaryOp.apply, sameTest bothTruthy holds]
  | or holds => simp only [BinaryOp.apply, sameTest eitherTruthy holds]

theorem applyUnary (op : UnaryOp) (v : Value) : UnaryRule op v (op.apply v) := by
  cases op with
  | not => exact .not notTruthy
  | negate =>
    cases v with
    | integer n =>
      by_cases range : InRange (-n)
      · simpa only [UnaryOp.apply, checkedInRange range] using UnaryRule.negate range
      · simpa only [UnaryOp.apply, checkedBeyond range] using UnaryRule.overflow range
    | _ => exact .illegal (by simp)

theorem applyArithmetic {op : BinaryOp} {f : Int → Int → Int} {v w : Value}
    (kind : op.ofIntegers)
    (value : ∀ m n, v = .integer m → w = .integer n → Arithmetic op m n (f m n)) :
    BinaryRule op v w (op.arithmetic f v w) := by
  cases v with
  | integer m =>
    cases w with
    | integer n =>
      by_cases range : InRange (f m n)
      · simpa only [BinaryOp.arithmetic, checkedInRange range] using
          BinaryRule.exact (value m n rfl rfl) range
      · simpa only [BinaryOp.arithmetic, checkedBeyond range] using
          BinaryRule.overflow (value m n rfl rfl) range
    | _ => exact .illegal kind (by simp)
  | _ => exact .illegal kind (by simp)

theorem applyOrder {op : BinaryOp} {p : Int → Int → Prop} {test : Int → Int → Bool} {v w : Value}
    (order : Order op p) (holds : ∀ m n, test m n = true ↔ p m n) :
    BinaryRule op v w (op.comparison test v w) := by
  have kind : op.ofIntegers := by cases order <;> trivial
  cases v with
  | integer m =>
    cases w with
    | integer n => exact .ordered order (holds m n)
    | _ => exact .illegal kind (by simp)
  | _ => exact .illegal kind (by simp)

theorem applyQuotient (v w : Value) : BinaryRule .divide v w (BinaryOp.divide.apply v w) := by
  by_cases zero : ∃ m, v = .integer m ∧ w = .integer 0
  · obtain ⟨m, rfl, rfl⟩ := zero
    exact .byZero m
  · have plain : BinaryOp.divide.apply v w = BinaryOp.divide.arithmetic Int.tdiv v w := by
      cases v with
      | integer m =>
        simp only [BinaryOp.apply]
        split
        · exact absurd ⟨_, rfl, rfl⟩ zero
        · rfl
      | _ => rfl
    rw [plain]
    refine applyArithmetic trivial fun m n left right => .quotient fun none => ?_
    exact zero ⟨m, left, none ▸ right⟩

theorem applyBinary (op : BinaryOp) (v w : Value) : BinaryRule op v w (op.apply v w) := by
  cases op with
  | add => exact applyArithmetic trivial fun m n _ _ => .sum m n
  | subtract => exact applyArithmetic trivial fun m n _ _ => .difference m n
  | multiply => exact applyArithmetic trivial fun m n _ _ => .product m n
  | divide => exact applyQuotient v w
  | equal => exact .equal sameEqual
  | notEqual => exact .notEqual differentEqual
  | less => exact applyOrder .less (by simp)
  | lessEqual => exact applyOrder .lessEqual (by simp)
  | greater => exact applyOrder .greater (by simp)
  | greaterEqual => exact applyOrder .greaterEqual (by simp)
  | and => exact .and bothTruthy
  | or => exact .or eitherTruthy

end Scriptlet

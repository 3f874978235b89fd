import Mathlib.Data.Rat.Defs
import ProtoEmb.Lib.MachineInt

/-!
# Integer expressions and the operations they perform

An expression over a value and literals has two readings here. In C the operands have
types, and an operation is done in the common one. In Rust all operands have one type, `i32`
or `u32`; `+` and `-` on `i32` are checked, and everything else wraps.

`ops` lists what the evaluation does that 32 bits may be too few for: the signed 32-bit
operations with their exact results, and the divisions. A `wrapping_mul` on `i32` is one of
them: it has a result, but not the product. An operation whose operands have no value is
not reached and not listed.

* `evalC_isSome_iff`: as long as 64 bits are enough for what C does in `long`, a C expression
  has a value if and only if none of its operations is bad.
* `evalRust_isSome`: a Rust expression whose literals compile has a value if none is bad.
-/

namespace ProtoEmb.Lib

/-! ## Operations -/

/-- An operation that can go wrong, with the operand that decides it. -/
inductive Op where
  /-- `value >> count`, `1 << count` on a 32-bit number -/
  | shift (count : Nat)
  /-- a signed 32-bit operation, with its exact result -/
  | signed (result : Int)
  | div (divisor : Rat)
  deriving DecidableEq

/-- Undefined in C; a panic or a wrong number in Rust. -/
def Op.Bad : Op → Prop
  | shift count => 32 ≤ count
  | signed result => ¬ Fits false result
  | div divisor => divisor = 0

instance : (o : Op) → Decidable o.Bad
  | .shift count => inferInstanceAs (Decidable (32 ≤ count))
  | .signed result => inferInstanceAs (Decidable (¬ Fits false result))
  | .div divisor => inferInstanceAs (Decidable (divisor = 0))

/-- Nothing goes wrong. -/
def Clean (ops : List Op) : Prop := ∀ o ∈ ops, ¬ o.Bad

instance (ops : List Op) : Decidable (Clean ops) := inferInstanceAs (Decidable (∀ o ∈ ops, ¬ o.Bad))

section Clean

variable {o : Op} {xs ys : List Op} {r : Int} {k : Rat}

@[simp] theorem clean_nil : Clean [] := fun _ h => absurd h List.not_mem_nil

@[simp] theorem clean_cons : Clean (o :: xs) ↔ ¬ o.Bad ∧ Clean xs := List.forall_mem_cons

@[simp] theorem clean_append : Clean (xs ++ ys) ↔ Clean xs ∧ Clean ys := List.forall_mem_append

@[simp] theorem not_bad_signed : ¬ (Op.signed r).Bad ↔ Fits false r := not_not

@[simp] theorem not_bad_div : ¬ (Op.div k).Bad ↔ k ≠ 0 := Iff.rfl

/-- A list of operations put together from parts is clean if every part is. -/
theorem clean_flatMap {α : Type} {l : List α} {f : α → List Op} :
    Clean (l.flatMap f) ↔ ∀ a ∈ l, Clean (f a) := by
  constructor
  · intro h a ha o ho
    exact h o (List.mem_flatMap.mpr ⟨a, ha, ho⟩)
  · intro h o ho
    obtain ⟨a, ha, hoa⟩ := List.mem_flatMap.mp ho
    exact h a ha o hoa

/-- Shifts by every number below `n`. -/
theorem clean_shifts {n : Nat} : Clean ((List.range n).map .shift) ↔ n ≤ 32 := by
  constructor
  · intro h
    by_contra hn
    exact h (.shift 32) (List.mem_map.mpr ⟨32, List.mem_range.mpr (by omega), rfl⟩) (le_refl 32)
  · intro hn o ho
    obtain ⟨i, hi, rfl⟩ := List.mem_map.mp ho
    have hlt := List.mem_range.mp hi
    exact fun hbad => absurd (show 32 ≤ i from hbad) (by omega)

end Clean

/-! ## Expressions -/

/-- The operators of ring arithmetic; division is apart, since it can fail. -/
inductive Arith where
  | add
  | sub
  | mul
  deriving DecidableEq

def Arith.eval : Arith → Int → Int → Int
  | add => (· + ·)
  | sub => (· - ·)
  | mul => (· * ·)

/-- `val` is the run's own value, of the type of the expression; a `lit` is typed by its language.
-/
inductive Expr where
  | val (n : Int)
  | lit (n : Int)
  | arith (f : Arith) (x y : Expr)
  | div (x y : Expr)

namespace Expr

/-! ## In C -/

/-- The value in C, where the operands that are no literals have type `t`. -/
def evalC (t : CTy) : Expr → Option CInt
  | val n => some ⟨t, n⟩
  | lit n => CInt.lit n
  | arith f x y => do
    let a ← x.evalC t
    let b ← y.evalC t
    CInt.op f.eval a b
  | div x y => do
    let a ← x.evalC t
    let b ← y.evalC t
    CInt.div a b

/-- A C operation is a signed 32-bit one if it is done in `int`. -/
def intOp (f : Int → Int → Int) (a b : CInt) : List Op :=
  if CInt.common a.ty b.ty = .int then [.signed (f a.val b.val)] else []

/-- What is done with two operands, if both have a value. -/
def onBoth {α β : Type} (f : α → α → List β) : Option α → Option α → List β
  | some a, some b => f a b
  | _, _ => []

/-- The operations that C performs, innermost first. -/
def opsC (t : CTy) : Expr → List Op
  | val _ | lit _ => []
  | arith f x y => x.opsC t ++ y.opsC t ++ onBoth (intOp f.eval) (x.evalC t) (y.evalC t)
  | div x y =>
    x.opsC t ++ y.opsC t
      ++ onBoth (fun a b => .div b.val :: intOp Int.tdiv a b) (x.evalC t) (y.evalC t)

@[simp] theorem opsC_val (t : CTy) (n : Int) : (val n).opsC t = [] := rfl

@[simp] theorem opsC_lit (t : CTy) (n : Int) : (lit n).opsC t = [] := rfl

/-- An operation in `long` stays in 64 bits. -/
def LongFits (f : Int → Int → Int) (a b : CInt) : Prop :=
  CInt.common a.ty b.ty = .long →
    -9223372036854775808 ≤ f a.val b.val ∧ f a.val b.val < 9223372036854775808

/-- 64 bits are enough for the literals and for what is done in `long`. -/
def Fits64 (t : CTy) : Expr → Prop
  | val _ => True
  | lit n => ∃ a, CInt.lit n = some a
  | arith f x y => x.Fits64 t ∧ y.Fits64 t ∧
    ∀ a b, x.evalC t = some a → y.evalC t = some b → LongFits f.eval a b
  | div x y => x.Fits64 t ∧ y.Fits64 t ∧
    ∀ a b, x.evalC t = some a → y.evalC t = some b → LongFits Int.tdiv a b

/-- One operation has a result exactly if it is not bad. -/
theorem op_isSome_iff {f : Int → Int → Int} {a b : CInt} (h : LongFits f a b) :
    (∃ c, CInt.op f a b = some c) ↔ Clean (intOp f a b) := by
  unfold CInt.op intOp
  cases hty : CInt.common a.ty b.ty with
  | int =>
    simp only [if_true, CInt.norm, CInt.conv, reduceCtorEq, if_false, clean_cons, clean_nil,
      and_true, not_bad_signed, fits_signed]
    split <;> simp_all
  | uint => simp [CInt.norm]
  | long =>
    have hfits := h hty
    simp [CInt.norm, CInt.conv, hfits]

/-- **A C expression has a value exactly if none of its operations is bad.** -/
theorem evalC_isSome_iff {t : CTy} : ∀ {x : Expr}, x.Fits64 t →
    ((∃ c, x.evalC t = some c) ↔ Clean (x.opsC t))
  | val n, _ => by simp [evalC, opsC]
  | lit n, h => by simpa [evalC, opsC, Fits64] using h
  | arith f x y, ⟨hx, hy, hlong⟩ => by
    have ihx := evalC_isSome_iff hx
    have ihy := evalC_isSome_iff hy
    simp only [evalC, opsC, clean_append, ← ihx, ← ihy]
    cases hxv : x.evalC t with
    | none => simp
    | some a =>
      cases hyv : y.evalC t with
      | none => simp
      | some b => simp [onBoth, ← op_isSome_iff (hlong a b hxv hyv)]
  | div x y, ⟨hx, hy, hlong⟩ => by
    have ihx := evalC_isSome_iff hx
    have ihy := evalC_isSome_iff hy
    simp only [evalC, opsC, clean_append, ← ihx, ← ihy]
    cases hxv : x.evalC t with
    | none => simp
    | some a =>
      cases hyv : y.evalC t with
      | none => simp
      | some b =>
        simp only [onBoth, clean_cons, not_bad_div, ← op_isSome_iff (hlong a b hxv hyv), CInt.div,
          Option.bind_eq_bind, Option.bind_some, ne_eq, Rat.intCast_eq_zero_iff]
        split <;> simp_all

/-! ### Operations in `int` -/

/-- A literal of type `int`. The sign is an operator, so `-2147483648` is none. -/
def IntLit (n : Int) : Prop := -2147483648 < n ∧ n < 2147483648

instance (n : Int) : Decidable (IntLit n) := inferInstanceAs (Decidable (_ ∧ _))

section Int

variable {t : CTy} {x y : Expr} {n r : Int}

/-- The usual conversions end in `int` only where both operands are `int`. -/
theorem common_eq_int {s t : CTy} : CInt.common s t = .int ↔ s = .int ∧ t = .int := by
  cases s <;> cases t <;> simp [CInt.common]

/-- The value itself is an `int` if that is its type. -/
theorem evalC_val_int : (val n).evalC t = some ⟨.int, r⟩ ↔ t = .int ∧ n = r := by
  simp [evalC]

/-- A literal is an `int` if it fits one. -/
theorem evalC_lit_int : (lit n).evalC t = some ⟨.int, r⟩ ↔ IntLit n ∧ n = r := by
  unfold evalC CInt.lit IntLit
  split
  next h => simp [h]
  next h =>
    split
    next => simp [h]
    next => simp [h]

/-- An operation gives an `int` if both operands are, and then its exact result fits. -/
theorem op_int {f : Int → Int → Int} {a b : CInt} :
    CInt.op f a b = some ⟨.int, r⟩ ↔
      a.ty = .int ∧ b.ty = .int ∧ Fits false (f a.val b.val) ∧ f a.val b.val = r := by
  rw [← and_assoc, ← common_eq_int]
  unfold CInt.op
  cases hty : CInt.common a.ty b.ty with
  | int =>
    simp only [CInt.norm, CInt.conv, reduceCtorEq, if_false, fits_signed, true_and]
    split
    next h => simp [h]
    next h => simp [h]
  | uint => simp [CInt.norm]
  | long =>
    simp only [CInt.norm, reduceCtorEq, false_and, iff_false]
    split <;> simp

/-- An operation in `int` has operands in `int`. -/
theorem evalC_arith_int {f : Arith} :
    (arith f x y).evalC t = some ⟨.int, r⟩ ↔
      ∃ a b, x.evalC t = some ⟨.int, a⟩ ∧ y.evalC t = some ⟨.int, b⟩ ∧
        Fits false (f.eval a b) ∧ f.eval a b = r := by
  simp only [evalC, Option.bind_eq_bind, Option.bind_eq_some_iff, op_int]
  constructor
  · rintro ⟨⟨ta, a⟩, ha, ⟨tb, b⟩, hb, rfl, rfl, hr⟩
    exact ⟨a, b, ha, hb, hr⟩
  · rintro ⟨a, b, ha, hb, hr⟩
    exact ⟨_, ha, _, hb, rfl, rfl, hr⟩

/-- A quotient is an `int` if both operands are and the divisor is not zero. -/
theorem evalC_div_int :
    (div x y).evalC t = some ⟨.int, r⟩ ↔
      ∃ a b, x.evalC t = some ⟨.int, a⟩ ∧ y.evalC t = some ⟨.int, b⟩ ∧ b ≠ 0 ∧
        Fits false (a.tdiv b) ∧ a.tdiv b = r := by
  simp only [evalC, Option.bind_eq_bind, Option.bind_eq_some_iff, CInt.div]
  constructor
  · rintro ⟨⟨ta, a⟩, ha, ⟨tb, b⟩, hb, h⟩
    split at h
    next => cases h
    next hne =>
      obtain ⟨rfl, rfl, hr⟩ := op_int.mp h
      exact ⟨a, b, ha, hb, hne, hr⟩
  · rintro ⟨a, b, ha, hb, hne, hr⟩
    exact ⟨_, ha, _, hb, by rw [if_neg hne]; exact op_int.mpr ⟨rfl, rfl, hr⟩⟩

/-- An operation on two values is listed, and can be bad, only between two `int`s. -/
theorem clean_onBoth_intOp {f : Int → Int → Int} {a b : Option CInt} :
    Clean (onBoth (intOp f) a b) ↔
      ∀ p q, a = some ⟨.int, p⟩ → b = some ⟨.int, q⟩ → Fits false (f p q) := by
  cases a with
  | none => simp [onBoth]
  | some a =>
    cases b with
    | none => simp [onBoth]
    | some b =>
      obtain ⟨ta, a⟩ := a
      obtain ⟨tb, b⟩ := b
      simp only [onBoth, intOp, common_eq_int, Option.some.injEq, CInt.mk.injEq]
      split
      next h =>
        obtain ⟨rfl, rfl⟩ := h
        simp
      next h =>
        simp only [clean_nil, true_iff]
        rintro p q ⟨rfl, rfl⟩ ⟨rfl, rfl⟩
        exact absurd ⟨rfl, rfl⟩ h

/-- A sum, difference or product is clean if its operands are and its result fits. -/
theorem clean_opsC_arith {f : Arith} :
    Clean ((arith f x y).opsC t) ↔ Clean (x.opsC t) ∧ Clean (y.opsC t) ∧
      ∀ a b, x.evalC t = some ⟨.int, a⟩ → y.evalC t = some ⟨.int, b⟩ →
        Fits false (f.eval a b) := by
  rw [opsC, clean_append, clean_append, clean_onBoth_intOp, and_assoc]

/-- For a quotient the divisor must not be zero as well. -/
theorem clean_opsC_div :
    Clean ((div x y).opsC t) ↔ Clean (x.opsC t) ∧ Clean (y.opsC t) ∧
      (∀ a b, x.evalC t = some a → y.evalC t = some b → b.val ≠ 0) ∧
      ∀ a b, x.evalC t = some ⟨.int, a⟩ → y.evalC t = some ⟨.int, b⟩ →
        Fits false (a.tdiv b) := by
  have hsplit : Clean (onBoth (fun a b => Op.div b.val :: intOp Int.tdiv a b) (x.evalC t)
      (y.evalC t)) ↔ (∀ a b, x.evalC t = some a → y.evalC t = some b → b.val ≠ 0) ∧
        Clean (onBoth (intOp Int.tdiv) (x.evalC t) (y.evalC t)) := by
    cases x.evalC t with
    | none => simp [onBoth]
    | some a =>
      cases y.evalC t with
      | none => simp [onBoth]
      | some b => simp [onBoth]
  rw [opsC, clean_append, clean_append, hsplit, clean_onBoth_intOp, and_assoc]

end Int

/-! ## In Rust -/

/-- The value in Rust, in `u32` if `u` and in `i32` otherwise. -/
def evalRust (u : Bool) : Expr → Option Int
  | val n => some n
  | lit n => if Fits u n then some n else none
  | arith f x y => do
    let a ← x.evalRust u
    let b ← y.evalRust u
    let r := f.eval a b
    if u then some (wrapU 32 r)
    else if f = .mul then some (wrapS 32 r)
    else if Fits false r then some r else none
  | div x y => do
    let a ← x.evalRust u
    let b ← y.evalRust u
    let q := a.tdiv b
    if b = 0 then none else if Fits u q then some q else none

/-- The operations that Rust performs, innermost first; unsigned ones wrap and cannot go wrong. -/
def opsRust (u : Bool) : Expr → List Op
  | val _ | lit _ => []
  | arith f x y =>
    x.opsRust u ++ y.opsRust u
      ++ onBoth (fun a b => if u then [] else [.signed (f.eval a b)]) (x.evalRust u) (y.evalRust u)
  | div x y =>
    x.opsRust u ++ y.opsRust u
      ++ onBoth (fun a b => .div b :: if u then [] else [.signed (a.tdiv b)]) (x.evalRust u)
        (y.evalRust u)

@[simp] theorem opsRust_val (u : Bool) (n : Int) : (val n).opsRust u = [] := rfl

@[simp] theorem opsRust_lit (u : Bool) (n : Int) : (lit n).opsRust u = [] := rfl

section Rust

variable {u : Bool} {x y : Expr}

/-- In Rust only an `i32` result has to fit. -/
theorem clean_opsRust_arith {f : Arith} :
    Clean ((arith f x y).opsRust u) ↔ Clean (x.opsRust u) ∧ Clean (y.opsRust u) ∧
      ∀ a b, x.evalRust u = some a → y.evalRust u = some b → u = false →
        Fits false (f.eval a b) := by
  rw [opsRust, clean_append, clean_append, and_assoc]
  cases x.evalRust u with
  | none => simp [onBoth]
  | some a =>
    cases y.evalRust u with
    | none => simp [onBoth]
    | some b => cases u <;> simp [onBoth]

/-- A divisor must not be zero in either type. -/
theorem clean_opsRust_div :
    Clean ((div x y).opsRust u) ↔ Clean (x.opsRust u) ∧ Clean (y.opsRust u) ∧
      ∀ a b, x.evalRust u = some a → y.evalRust u = some b →
        b ≠ 0 ∧ (u = false → Fits false (a.tdiv b)) := by
  rw [opsRust, clean_append, clean_append, and_assoc]
  cases x.evalRust u with
  | none => simp [onBoth]
  | some a =>
    cases y.evalRust u with
    | none => simp [onBoth]
    | some b => cases u <;> simp [onBoth]

end Rust

/-- The operands and the literals are of the type. -/
def Fits32 (u : Bool) : Expr → Prop
  | val n | lit n => Fits u n
  | arith _ x y | div x y => x.Fits32 u ∧ y.Fits32 u

theorem fits_wrapU (r : Int) : Fits true (wrapU 32 r) := by
  rw [fits_unsigned]
  simp only [wrapU, Int.reducePow]
  omega

theorem fits_wrapS (r : Int) : Fits false (wrapS 32 r) := by
  rw [fits_signed]
  simp only [wrapS, Nat.reduceSub, Int.reducePow]
  split <;> omega

/-- **A Rust expression has a value if none of its operations is bad.** -/
theorem evalRust_isSome {u : Bool} : ∀ {x : Expr}, x.Fits32 u → Clean (x.opsRust u) →
    ∃ c, x.evalRust u = some c ∧ Fits u c
  | val n, h, _ => ⟨n, rfl, h⟩
  | lit n, h, _ => ⟨n, if_pos h, h⟩
  | arith f x y, ⟨hx, hy⟩, hc => by
    simp only [opsRust, clean_append] at hc
    obtain ⟨a, ha, -⟩ := evalRust_isSome hx hc.1.1
    obtain ⟨b, hb, -⟩ := evalRust_isSome hy hc.1.2
    have hop := hc.2
    simp only [evalRust, ha, hb, onBoth, Option.bind_eq_bind, Option.bind_some] at hop ⊢
    cases u with
    | true => exact ⟨_, rfl, fits_wrapU _⟩
    | false =>
      simp only [Bool.false_eq_true, if_false, clean_cons, not_bad_signed, clean_nil,
        and_true] at hop ⊢
      by_cases hf : f = .mul
      · exact ⟨_, if_pos hf, fits_wrapS _⟩
      · exact ⟨_, by rw [if_neg hf, if_pos hop], hop⟩
  | div x y, ⟨hx, hy⟩, hc => by
    simp only [opsRust, clean_append] at hc
    obtain ⟨a, ha, hafits⟩ := evalRust_isSome hx hc.1.1
    obtain ⟨b, hb, hbfits⟩ := evalRust_isSome hy hc.1.2
    have hop := hc.2
    simp only [evalRust, ha, hb, onBoth, Option.bind_eq_bind, Option.bind_some, clean_cons,
      not_bad_div, ne_eq, Rat.intCast_eq_zero_iff] at hop ⊢
    rw [if_neg hop.1]
    have hq : Fits u (a.tdiv b) := by
      cases u with
      | false => simpa using hop.2
      | true =>
        rw [fits_unsigned] at hbfits
        exact fits_tdiv hafits (by omega)
    exact ⟨_, if_pos hq, hq⟩

end Expr

end ProtoEmb.Lib

import Mathlib.Algebra.Order.Ring.Int
import Mathlib.Data.Nat.Bitwise
import Mathlib.Tactic.Common

/-!
# 32-bit integer expressions

Generated code computes with 32-bit integers, in C under the usual arithmetic
conversions and in other languages with wrapping operations. A machine integer is
its mathematical value (`Int`) here, and the width enters only where a result is
brought back into range.

`CInt` follows C: an operand has one of the three types that occur (`int`,
`uint32_t` and a 64-bit `long`, which an unsuffixed literal takes when it does not
fit `int`), the operation is done in the common type, unsigned results wrap and a
signed overflow is undefined behaviour, `none`. The rule `CInt.op_exact` says that an
operation whose exact result fits the 32-bit type is exact, whatever type the
literals take.
-/

namespace ProtoEmb.Lib

/-- `n` is a value of the 32-bit type: unsigned if `u`, two's complement if not. -/
def Fits (u : Bool) (n : Int) : Prop :=
  if u then 0 ≤ n ∧ n < 4294967296 else -2147483648 ≤ n ∧ n < 2147483648

instance (u : Bool) (n : Int) : Decidable (Fits u n) := by
  unfold Fits
  cases u <;> infer_instance

theorem fits_signed {n : Int} : Fits false n ↔ -2147483648 ≤ n ∧ n < 2147483648 := Iff.rfl

theorem fits_unsigned {n : Int} : Fits true n ↔ 0 ≤ n ∧ n < 4294967296 := Iff.rfl

/-- Conversion to an unsigned type of `w` bits. -/
def wrapU (w : Nat) (n : Int) : Int := n % 2 ^ w

/-- Conversion to a two's complement type of `w` bits. -/
def wrapS (w : Nat) (n : Int) : Int :=
  if n % 2 ^ w < 2 ^ (w - 1) then n % 2 ^ w else n % 2 ^ w - 2 ^ w

/-- The bit pattern of a 32-bit value: `(uint32_t)n`, `n as u32`. -/
def toU32 (n : Int) : Nat := (n % 4294967296).toNat

theorem toU32_lt (n : Int) : toU32 n < 4294967296 := by
  unfold toU32
  omega

theorem toU32_congr {m n : Int} (h : m % 4294967296 = n % 4294967296) : toU32 m = toU32 n := by
  unfold toU32
  rw [h]

theorem toU32_of_nonneg {n : Int} (h0 : 0 ≤ n) (h : n < 4294967296) : toU32 n = n.toNat := by
  unfold toU32
  rw [Int.emod_eq_of_lt h0 h]

theorem toU32_natCast {n : Nat} (h : n < 4294967296) : toU32 n = n := by
  rw [toU32_of_nonneg (Int.natCast_nonneg n) (by omega), Int.toNat_natCast]

/-- A bit pattern read back as a signed value. -/
theorem wrapS_toU32 {n : Int} (h : Fits false n) : wrapS 32 (toU32 n) = n := by
  rw [fits_signed] at h
  unfold wrapS toU32
  simp only [Nat.reduceSub, Int.reducePow]
  omega

theorem wrapS32_eq {n : Int} (h0 : 0 ≤ n) (h : n < 4294967296) :
    wrapS 32 n = if n < 2147483648 then n else n - 4294967296 := by
  unfold wrapS
  simp only [Nat.reduceSub, Int.reducePow]
  rw [Int.emod_eq_of_lt h0 h]

theorem two_pow_le_word {b : Nat} (h : b ≤ 32) : (2 : Int) ^ b ≤ 4294967296 := by
  calc (2 : Int) ^ b ≤ 2 ^ 32 := pow_le_pow_right₀ (by decide) h
    _ = 4294967296 := by decide

/-- The `b` low bits of a 32-bit pattern are the number modulo `2 ^ b`. -/
theorem toU32_mod_cast {b : Nat} (h : b ≤ 32) (n : Int) :
    ((toU32 n % 2 ^ b : Nat) : Int) = n % 2 ^ b := by
  have hdvd : (2 : Int) ^ b ∣ 4294967296 := by
    refine ⟨2 ^ (32 - b), ?_⟩
    rw [← pow_add, show b + (32 - b) = 32 by omega]
    rfl
  rw [Int.natCast_mod, Nat.cast_pow, Nat.cast_ofNat, toU32, Int.toNat_of_nonneg (by omega),
    Int.emod_emod_of_dvd _ hdvd]

/-- A number that is not negative is not made larger by cutting it. -/
theorem emod_two_pow_bounds {n : Int} (b : Nat) (h : 0 ≤ n) :
    0 ≤ n % 2 ^ b ∧ n % 2 ^ b ≤ n := by
  have hpow : (0 : Int) < 2 ^ b := Int.pow_pos (by decide)
  refine ⟨Int.emod_nonneg n (by omega), ?_⟩
  rcases Int.lt_or_le n (2 ^ b) with hlt | hge
  · rw [Int.emod_eq_of_lt h hlt]
  · have := Int.emod_lt_of_pos n hpow
    omega

/-- Quotients by a positive number stay in the type. -/
theorem fits_tdiv {u : Bool} {n k : Int} (h : Fits u n) (hk : 1 ≤ k) : Fits u (n.tdiv k) := by
  have hnonneg : ∀ x : Int, 0 ≤ x → 0 ≤ x.tdiv k ∧ x.tdiv k ≤ x := fun x hx =>
    ⟨Int.tdiv_nonneg hx (by omega), Int.tdiv_le_self k hx⟩
  cases u with
  | true =>
    rw [fits_unsigned] at h ⊢
    have := hnonneg n h.1
    omega
  | false =>
    rw [fits_signed] at h ⊢
    rcases Int.le_total 0 n with h0 | h0
    · have := hnonneg n h0
      omega
    · have hneg := hnonneg (-n) (by omega)
      rw [Int.neg_tdiv] at hneg
      omega

/-- **Truncation is seen in the quotient.** A multiple of `k` that is cut to `b` bits
gives the right quotient only if nothing was cut off. -/
theorem tdiv_trunc_iff {q k : Int} {b : Nat} (hk : 1 ≤ k) (h0 : 0 ≤ q * k) :
    (q * k % 2 ^ b).tdiv k = q ↔ q * k < 2 ^ b := by
  have hpow : (0 : Int) < 2 ^ b := Int.pow_pos (by decide)
  have hcut := Int.emod_nonneg (q * k) (by omega : (2 : Int) ^ b ≠ 0)
  constructor
  · intro h
    by_contra hge
    have hlt : q * k % 2 ^ b < q * k := by
      have := Int.emod_lt_of_pos (q * k) hpow
      omega
    have hdiv : (q * k % 2 ^ b).tdiv k < q := by
      rw [Int.tdiv_eq_ediv_of_nonneg hcut]
      exact Int.ediv_lt_of_lt_mul (by omega) hlt
    omega
  · intro hlt
    rw [Int.emod_eq_of_lt h0 hlt]
    exact Int.mul_tdiv_cancel q (by omega)

/-- The sign bit of a `k + 1`-bit pattern. -/
theorem and_two_pow_ne_zero_iff {r k : Nat} (hr : r < 2 ^ (k + 1)) :
    r &&& 2 ^ k ≠ 0 ↔ 2 ^ k ≤ r := by
  rw [Nat.and_two_pow, Nat.testBit_eq_decide_div_mod_eq]
  have hdiv : r / 2 ^ k < 2 := by
    rw [Nat.div_lt_iff_lt_mul (Nat.two_pow_pos k)]
    rw [Nat.pow_succ] at hr
    omega
  constructor
  · intro hne
    by_contra hlt
    rw [Nat.div_eq_of_lt (by omega)] at hne
    simp at hne
  · intro hge
    have hone : r / 2 ^ k = 1 := by
      have := (Nat.one_le_div_iff (Nat.two_pow_pos k)).mpr hge
      omega
    rw [hone]
    simp

/-! ## C expressions -/

/-- The types the usual arithmetic conversions choose from, in rank order. -/
inductive CTy where
  | int
  | uint
  | long
  deriving DecidableEq, Repr

/-- A typed operand. -/
structure CInt where
  ty : CTy
  val : Int
  deriving DecidableEq, Repr

namespace CInt

/-- The type an operation on two operands is done in. -/
def common : CTy → CTy → CTy
  | .long, _ => .long
  | _, .long => .long
  | .uint, _ => .uint
  | _, .uint => .uint
  | .int, .int => .int

/-- A result brought into its type; `none` for a signed overflow. -/
def norm : CTy → Int → Option CInt
  | .int, n => if -2147483648 ≤ n ∧ n < 2147483648 then some ⟨.int, n⟩ else none
  | .uint, n => some ⟨.uint, n % 4294967296⟩
  | .long, n =>
    if -9223372036854775808 ≤ n ∧ n < 9223372036854775808 then some ⟨.long, n⟩ else none

/-- The operand as a value of the common type. -/
def conv (t : CTy) (a : CInt) : Int := if t = .uint then a.val % 4294967296 else a.val

/-- A binary operator. -/
def op (f : Int → Int → Int) (a b : CInt) : Option CInt :=
  norm (common a.ty b.ty) (f (a.conv (common a.ty b.ty)) (b.conv (common a.ty b.ty)))

/-- An unsuffixed decimal literal; a negative one is a minus sign before a literal. -/
def lit (n : Int) : Option CInt :=
  if -2147483648 < n ∧ n < 2147483648 then some ⟨.int, n⟩
  else if -9223372036854775808 < n ∧ n < 9223372036854775808 then some ⟨.long, n⟩ else none

/-- Division truncates towards zero and is undefined for a zero divisor. -/
def div (a b : CInt) : Option CInt := if b.val = 0 then none else op Int.tdiv a b

/-- The operand holds `n`, a value of the 32-bit type, in that type or wider. -/
def Is (u : Bool) (n : Int) (a : CInt) : Prop :=
  a.val = n ∧ Fits u n ∧ (a.ty = .long ∨ a.ty = if u then .uint else .int)

/-- The operand is a literal: signed, whatever type the other operand has. -/
def IsLit (u : Bool) (n : Int) (a : CInt) : Prop :=
  a.val = n ∧ Fits u n ∧ (a.ty = .long ∨ a.ty = .int)

theorem lit_is {u : Bool} {n : Int} (h : Fits u n) : ∃ a, lit n = some a ∧ IsLit u n a := by
  unfold lit
  by_cases hint : -2147483648 < n ∧ n < 2147483648
  · exact ⟨⟨.int, n⟩, if_pos hint, rfl, h, Or.inr rfl⟩
  · have hlong : -9223372036854775808 < n ∧ n < 9223372036854775808 := by
      cases u with
      | false => rw [fits_signed] at h; omega
      | true => rw [fits_unsigned] at h; omega
    exact ⟨⟨.long, n⟩, by rw [if_neg hint, if_pos hlong], rfl, h, Or.inl rfl⟩

theorem lit_val {n : Int} {a : CInt} (h : lit n = some a) : a.val = n := by
  unfold lit at h
  split at h
  · cases h
    rfl
  · split at h
    · cases h
      rfl
    · cases h

/-- **Congruence.** An operation that is defined computes the exact result modulo
`2 ^ 32`, whatever type it is done in. -/
theorem op_emod {f : Int → Int → Int}
    (hf : ∀ x y, f (x % 4294967296) (y % 4294967296) % 4294967296 = f x y % 4294967296)
    {a b c : CInt} (h : op f a b = some c) :
    c.val % 4294967296 = f a.val b.val % 4294967296 := by
  unfold op at h
  cases hty : common a.ty b.ty with
  | int | long =>
    simp only [hty, conv, norm, reduceCtorEq, if_false] at h
    split at h
    · cases h
      rfl
    · cases h
  | uint =>
    simp only [hty, conv, norm, if_true] at h
    cases h
    rw [Int.emod_emod_of_dvd _ (dvd_refl _), hf]

/-- An operation whose exact result fits `int`, or fits `unsigned` with an unsigned
operand, is defined. -/
theorem op_defined {f : Int → Int → Int} {a b : CInt}
    (h : Fits false (f a.val b.val) ∨ a.ty = .uint ∧ Fits true (f a.val b.val)) :
    ∃ c, op f a b = some c := by
  unfold op
  cases hty : common a.ty b.ty with
  | uint => exact ⟨_, rfl⟩
  | int =>
    have hsigned : Fits false (f a.val b.val) := by
      rcases h with h | ⟨hu, _⟩
      · exact h
      · rw [hu] at hty
        cases hb : b.ty <;> rw [hb] at hty <;> cases hty
    rw [fits_signed] at hsigned
    exact ⟨⟨.int, f a.val b.val⟩, by simp [conv, norm, hsigned]⟩
  | long =>
    have hwide : -9223372036854775808 ≤ f a.val b.val ∧ f a.val b.val < 9223372036854775808 := by
      rcases h with h | ⟨_, h⟩
      · rw [fits_signed] at h
        omega
      · rw [fits_unsigned] at h
        omega
    exact ⟨⟨.long, f a.val b.val⟩, by simp [conv, norm, hwide]⟩

/-- **Exactness.** If the exact result of an operation with a literal fits the 32-bit
type, the operation computes it. -/
theorem op_exact {u : Bool} {x y : Int} {a b : CInt} {f : Int → Int → Int} (ha : Is u x a)
    (hb : IsLit u y b) (hr : Fits u (f x y)) : ∃ c, op f a b = some c ∧ Is u (f x y) c := by
  obtain ⟨aty, aval⟩ := a
  obtain ⟨bty, bval⟩ := b
  obtain ⟨rfl, hx, hat⟩ := ha
  obtain ⟨rfl, hy, hbt⟩ := hb
  simp only at hat hbt hr
  have hrange := hr
  -- in 64 bits nothing can overflow
  have hlong : -9223372036854775808 ≤ f aval bval ∧ f aval bval < 9223372036854775808 := by
    cases u with
    | false => rw [fits_signed] at hrange; omega
    | true => rw [fits_unsigned] at hrange; omega
  cases u with
  | false =>
    rw [fits_signed] at hrange
    rcases hat with rfl | hat
    · refine ⟨⟨.long, f aval bval⟩, ?_, rfl, hr, Or.inl rfl⟩
      simp [op, common, conv, norm, hlong]
    · simp only [Bool.false_eq_true, if_false] at hat
      subst hat
      rcases hbt with rfl | rfl
      · refine ⟨⟨.long, f aval bval⟩, ?_, rfl, hr, Or.inl rfl⟩
        simp [op, common, conv, norm, hlong]
      · refine ⟨⟨.int, f aval bval⟩, ?_, rfl, hr, Or.inr rfl⟩
        simp [op, common, conv, norm, hrange]
  | true =>
    rw [fits_unsigned] at hrange hx hy
    rcases hat with rfl | hat
    · refine ⟨⟨.long, f aval bval⟩, ?_, rfl, hr, Or.inl rfl⟩
      simp [op, common, conv, norm, hlong]
    · simp only [if_true] at hat
      subst hat
      rcases hbt with rfl | rfl
      · refine ⟨⟨.long, f aval bval⟩, ?_, rfl, hr, Or.inl rfl⟩
        simp [op, common, conv, norm, hlong]
      · refine ⟨⟨.uint, f aval bval⟩, ?_, rfl, hr, Or.inr rfl⟩
        simp only [op, common, conv, norm, if_true]
        rw [Int.emod_eq_of_lt hx.1 hx.2, Int.emod_eq_of_lt hy.1 hy.2,
          Int.emod_eq_of_lt hrange.1 hrange.2]

theorem div_exact {u : Bool} {x y : Int} {a b : CInt} (ha : Is u x a) (hb : IsLit u y b)
    (hy : y ≠ 0) (hr : Fits u (x.tdiv y)) : ∃ c, div a b = some c ∧ Is u (x.tdiv y) c := by
  have hne : b.val ≠ 0 := by rw [hb.1]; exact hy
  unfold div
  rw [if_neg hne]
  exact op_exact ha hb hr

/-- An addition outside of `int` is exact modulo `2 ^ 32`, wherever it wraps. -/
theorem add_mod {x y : Int} {a b : CInt} (ha : Is true x a) (hb : lit y = some b)
    (hy : -4294967296 < y ∧ y < 4294967296) :
    ∃ c, op (· + ·) a b = some c ∧ c.val % 4294967296 = (x + y) % 4294967296 := by
  obtain ⟨aty, aval⟩ := a
  obtain ⟨rfl, hx, hat⟩ := ha
  simp only [if_true, fits_unsigned] at hat hx ⊢
  have hlong : -9223372036854775808 ≤ aval + y ∧ aval + y < 9223372036854775808 := by omega
  have hwide : -9223372036854775808 < y ∧ y < 9223372036854775808 := by omega
  unfold lit at hb
  by_cases hint : -2147483648 < y ∧ y < 2147483648
  · rw [if_pos hint, Option.some.injEq] at hb
    subst hb
    rcases hat with rfl | rfl
    · exact ⟨⟨.long, aval + y⟩, by simp [op, common, conv, norm, hlong], rfl⟩
    · refine ⟨⟨.uint, (aval % 4294967296 + y % 4294967296) % 4294967296⟩, ?_, ?_⟩
      · simp [op, common, conv, norm]
      · show _ % 4294967296 % 4294967296 = _
        omega
  · rw [if_neg hint, if_pos hwide, Option.some.injEq] at hb
    subst hb
    rcases hat with rfl | rfl
    · exact ⟨⟨.long, aval + y⟩, by simp [op, common, conv, norm, hlong], rfl⟩
    · exact ⟨⟨.long, aval + y⟩, by simp [op, common, conv, norm, hlong], rfl⟩

/-- An addition to an `int` is exact if the literal is wider than `int` or the sum fits. -/
theorem int_add {x y : Int} (hx : Fits false x) {b : CInt} (hb : lit y = some b)
    (hsum : Fits false y → Fits false (x + y)) (hy : -4294967296 < y ∧ y < 4294967296) :
    ∃ c, op (· + ·) ⟨.int, x⟩ b = some c ∧ c.val = x + y := by
  rw [fits_signed] at hx
  have hlong : -9223372036854775808 ≤ x + y ∧ x + y < 9223372036854775808 := by omega
  unfold lit at hb
  by_cases hint : -2147483648 < y ∧ y < 2147483648
  · rw [if_pos hint, Option.some.injEq] at hb
    subst hb
    have hs := hsum (by rw [fits_signed]; omega)
    rw [fits_signed] at hs
    exact ⟨⟨.int, x + y⟩, by simp [op, common, conv, norm, hs], rfl⟩
  · rw [if_neg hint, if_pos (by omega), Option.some.injEq] at hb
    subst hb
    exact ⟨⟨.long, x + y⟩, by simp [op, common, conv, norm, hlong], rfl⟩

end CInt

end ProtoEmb.Lib

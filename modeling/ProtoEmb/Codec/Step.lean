import ProtoEmb.Codec.Remap

/-!
# The wire step of an integer leaf

The meaning that `docs/wire-format.md` gives to `min`, `scale` and `raw_storage`: a packed integer
is sent as `(v - min) * scale`, or `v - min_wire` if the field holds the scaled integer itself. A
signed leaf without `min` is sent in two's complement, every other one as an unsigned number.

The generated code computes the step in 32-bit arithmetic; `NoOverflow` says that the
exact values stay in the 32-bit type it uses.
-/

namespace ProtoEmb.Schema

open ProtoEmb.Lib

namespace Elem

/-- The `min` the packed templates print: for an unsigned type a zero is left out. -/
def packedMin (e : Elem) : Option Num :=
  if e.isSigned then e.min else e.min.filter fun m => m.toRat ≠ 0

/-- What is subtracted from a value. -/
def base (e : Elem) : Int :=
  if e.rawStorage then e.minWire.getD 0 else (e.packedMin.map Num.toInt).getD 0

/-- What the difference is multiplied by. -/
def factor (e : Elem) : Int := if e.rawStorage then 1 else e.scale.toInt

/-- **The documented wire step of a value.** -/
def wireStep (e : Elem) (n : Int) : Int := (n - e.base) * e.factor

/-- The wire value of a number: its step, cut to the leaf's bits. -/
def wireBits (e : Elem) (n : Int) : Int := e.wireStep n % 2 ^ e.size

/-- **What a wire value stands for**, in exact arithmetic: `u / scale + min`. -/
def quotient (e : Elem) (u : Int) : Int := u / e.factor + e.base

/-- The templates print a floating-point expression: a `float` member, or a scale with
a decimal point where the scale is used. -/
def isFloatExpr (e : Elem) : Bool :=
  e.isFloat || (!e.rawStorage && match e.scale with
    | .int _ => false
    | .float _ => true)

/-- A leaf that is sent in two's complement. -/
def isTwos (e : Elem) : Bool := e.isSigned && e.min.isNone

/-- The step fits the leaf's bits. -/
def FitsBits (e : Elem) (s : Int) : Prop :=
  if e.isTwos then -2 ^ (e.size - 1) ≤ s ∧ s < 2 ^ (e.size - 1) else 0 ≤ s ∧ s < 2 ^ e.size

instance (e : Elem) (s : Int) : Decidable (e.FitsBits s) := by
  unfold FitsBits
  cases e.isTwos <;> infer_instance

/-- An integer leaf, with integer `min` and `scale`. -/
structure Integral (e : Elem) : Prop where
  not_bool : e.isBool = false
  not_enum : e.isEnum = false
  not_string : e.isString = false
  not_float : e.isFloat = false
  scale_int : ∃ k, e.scale = .int k ∧ 1 ≤ k
  min_int : ∀ m, e.min = some m → ∃ i, m = .int i

instance (e : Elem) : Decidable e.Integral :=
  decidable_of_iff (e.isBool = false ∧ e.isEnum = false ∧ e.isString = false ∧
      e.isFloat = false ∧ (∃ k ∈ some e.scale.toInt, e.scale = .int k ∧ 1 ≤ k) ∧
      ∀ m ∈ e.min, m = .int m.toInt) <| by
    constructor
    · rintro ⟨hb, he, hs, hf, ⟨k, _, hk⟩, hm⟩
      exact ⟨hb, he, hs, hf, ⟨k, hk⟩, fun m h => ⟨_, hm m h⟩⟩
    · rintro ⟨hb, he, hs, hf, ⟨k, hk, hpos⟩, hm⟩
      refine ⟨hb, he, hs, hf, ⟨k, by rw [hk]; rfl, hk, hpos⟩, fun m h => ?_⟩
      obtain ⟨i, rfl⟩ := hm m h
      rfl

/-- Nothing in `(n - base) * factor` leaves the 32-bit type, unsigned if `u`. -/
structure NoOverflow (u : Bool) (e : Elem) (n : Int) : Prop where
  value : Fits u n
  base : Fits u e.base
  diff : Fits u (n - e.base)
  factor : Fits u e.factor
  step : Fits u (e.wireStep n)

instance (u : Bool) (e : Elem) (n : Int) : Decidable (e.NoOverflow u n) :=
  decidable_of_iff (Fits u n ∧ Fits u e.base ∧ Fits u (n - e.base) ∧ Fits u e.factor ∧
      Fits u (e.wireStep n))
    ⟨fun ⟨h₁, h₂, h₃, h₄, h₅⟩ => ⟨h₁, h₂, h₃, h₄, h₅⟩,
      fun h => ⟨h.value, h.base, h.diff, h.factor, h.step⟩⟩

variable {e : Elem}

theorem Integral.not_floatExpr (h : e.Integral) : e.isFloatExpr = false := by
  obtain ⟨k, hk, _⟩ := h.scale_int
  unfold isFloatExpr
  rw [h.not_float, hk]
  simp

/-- A `min` that is subtracted is an integer, and is what `base` says. -/
theorem Integral.packedMin_cases (h : e.Integral) (hraw : e.rawStorage = false) :
    (e.packedMin = none ∧ e.base = 0) ∨ ∃ m, e.packedMin = some (.int m) ∧ e.base = m := by
  unfold base
  rw [hraw, if_neg Bool.false_ne_true]
  cases hp : e.packedMin with
  | none => exact Or.inl ⟨rfl, rfl⟩
  | some m =>
    have hmin : e.min = some m := by
      unfold packedMin at hp
      split at hp
      · exact hp
      · exact (Option.filter_eq_some_iff.mp hp).1
    obtain ⟨i, rfl⟩ := h.min_int m hmin
    exact Or.inr ⟨i, rfl, rfl⟩

theorem Integral.factor_pos (h : e.Integral) : 1 ≤ e.factor := by
  unfold factor
  split
  · exact le_refl 1
  · obtain ⟨k, hk, hpos⟩ := h.scale_int
    rw [hk]
    exact hpos

/-- The step of a value, divided again. -/
theorem Integral.wireStep_div (h : e.Integral) (n : Int) :
    (e.wireStep n).tdiv e.factor = n - e.base := by
  have hpos := h.factor_pos
  exact Int.mul_tdiv_cancel _ (by omega)

theorem Integral.quotient_wireStep (h : e.Integral) (n : Int) : e.quotient (e.wireStep n) = n := by
  have hpos := h.factor_pos
  rw [quotient, wireStep, Int.mul_ediv_cancel _ (by omega)]
  omega

/-- The wire value stands for the number that was sent exactly if nothing was cut off. -/
theorem Integral.quotient_wireBits_iff (h : e.Integral) {n : Int} (h0 : 0 ≤ e.wireStep n) :
    e.quotient (e.wireBits n) = n ↔ e.wireStep n < 2 ^ e.size := by
  have hcut := (emod_two_pow_bounds e.size h0).1
  have hiff : e.wireBits n / e.factor = n - e.base ↔ e.wireStep n < 2 ^ e.size := by
    rw [wireBits, ← Int.tdiv_eq_ediv_of_nonneg hcut]
    exact tdiv_trunc_iff h.factor_pos h0
  rw [← hiff, quotient]
  omega

/-- A wire value that is cut stands for a number between `min` and the one that was sent. -/
theorem Integral.quotient_bounds (h : e.Integral) {u n : Int} (h0 : 0 ≤ u)
    (hle : u ≤ e.wireStep n) : e.base ≤ e.quotient u ∧ e.quotient u ≤ n := by
  have hpos := h.factor_pos
  have hquot : 0 ≤ u / e.factor := Int.ediv_nonneg h0 (by omega)
  have hmono : u / e.factor ≤ e.wireStep n / e.factor := Int.ediv_le_ediv (by omega) hle
  have hback := h.quotient_wireStep n
  unfold quotient at hback ⊢
  omega

end Elem

end ProtoEmb.Schema

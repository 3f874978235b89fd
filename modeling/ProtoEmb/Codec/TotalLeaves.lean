import ProtoEmb.Codec.Rust

/-!
# The leaf expressions of the Rust decoder on any pattern

A leaf of `n` bits is decoded by the expressions of `protocol.rs.j2` from whatever `n` bits the
wire carries, inside the declared range or not. With overflow checks on, `i32` addition and a
division can panic. What the expression does on the least and the greatest pattern decides what it
does on all of them: `/ scale` is monotone, up to the sign of the scale, and `+ min` is monotone
(`forall_wrap_iff`).
-/

namespace ProtoEmb.Codec.Rust

open ProtoEmb.Lib ProtoEmb.Schema

/-! ## The condition -/

/-- The least `i32` that so many bits become with `as i32`. -/
def lowest (bits : Nat) : Int := if bits = 32 then -2147483648 else 0

/-- The greatest. -/
def highest (bits : Nat) : Int := if bits = 32 then 2147483647 else 2 ^ bits - 1

/-- What is divided by: the scale, if it is printed. -/
def divisor (u : Bool) (e : Elem) : Option Int := if e.hasScale then scaleLit u e else some 1

/-- An `i32` leaf whose sum and quotient stay in range at both ends. -/
def SignedTotal (e : Elem) : Prop :=
  if e.rawStorage then
    ∀ m ∈ e.minWire, Fits false m ∧ Fits false (lowest e.size + m) ∧
      Fits false (highest e.size + m)
  else ∃ k ∈ divisor false e, k ≠ 0 ∧ ∀ w ∈ [lowest e.size, highest e.size],
    Fits false (w.tdiv k) ∧
      ∀ m ∈ e.min, Fits false m.toInt ∧ Fits false (w.tdiv k + m.toInt)

/-- A `u32` leaf that does not divide by zero. The scalar expression divides by
`scale.wrapping_add(min)`. -/
def UnsignedTotal (scalar : Bool) (e : Elem) : Prop :=
  if e.rawStorage then ∀ m ∈ e.minWire, Fits true m
  else
    match e.packedMin with
    | some m => Fits true m.toInt ∧
        if scalar then e.hasScale = true → ∃ k ∈ scaleLit true e, (k + m.toInt) % 4294967296 ≠ 0
        else ∃ k ∈ divisor true e, k ≠ 0
    | none => ∃ k ∈ divisor true e, k ≠ 0

/-- The leaf has a value for every pattern of its bits. -/
def LeafTotal (scalar : Bool) (e : Elem) : Prop :=
  if e.isBool then True
  else if e.isEnum then ∃ t ∈ e.enum, t.count ≤ 256
  else if e.isFloat then True
  else if e.isString then False
  else if e.isSigned then SignedTotal e
  else UnsignedTotal scalar e

instance (e : Elem) : Decidable (SignedTotal e) := by
  unfold SignedTotal
  infer_instance

instance (scalar : Bool) (e : Elem) : Decidable (UnsignedTotal scalar e) := by
  unfold UnsignedTotal
  split
  · infer_instance
  · split <;> infer_instance

instance (scalar : Bool) (e : Elem) : Decidable (LeafTotal scalar e) := by
  unfold LeafTotal
  infer_instance

/-! ## Patterns as `i32` -/

section Wrap

variable {bits : Nat} {P : Int → Prop}

theorem wrap_between {u : Nat} (h32 : bits ≤ 32) (hu : u < 2 ^ bits) :
    lowest bits ≤ wrapS 32 u ∧ wrapS 32 u ≤ highest bits := by
  have hint : (u : Int) < 2 ^ bits := by exact_mod_cast hu
  have hle := two_pow_le_word h32
  rw [wrapS32_eq (by omega) (by omega)]
  unfold lowest highest
  by_cases hfull : bits = 32
  · rw [if_pos hfull, if_pos hfull]
    split <;> omega
  · have hhalf : (2 : Int) ^ bits ≤ 2147483648 := by
      calc (2 : Int) ^ bits ≤ 2 ^ 31 := pow_le_pow_right₀ (by norm_num) (by omega)
        _ = 2147483648 := by norm_num
    rw [if_neg hfull, if_neg hfull]
    split <;> omega

theorem wrap_lowest (bits : Nat) : ∃ u < 2 ^ bits, wrapS 32 (u : Nat) = lowest bits := by
  unfold lowest
  by_cases hfull : bits = 32
  · exact ⟨2147483648, by rw [hfull]; norm_num, by rw [if_pos hfull]; rfl⟩
  · exact ⟨0, Nat.two_pow_pos _, by rw [if_neg hfull]; rfl⟩

theorem wrap_highest (h32 : bits ≤ 32) :
    ∃ u < 2 ^ bits, wrapS 32 (u : Nat) = highest bits := by
  unfold highest
  by_cases hfull : bits = 32
  · exact ⟨2147483647, by rw [hfull]; norm_num, by rw [if_pos hfull]; rfl⟩
  · have hpos := Nat.two_pow_pos bits
    refine ⟨2 ^ bits - 1, by omega, ?_⟩
    have hhalf : (2 : Int) ^ bits ≤ 2147483648 := by
      calc (2 : Int) ^ bits ≤ 2 ^ 31 := pow_le_pow_right₀ (by norm_num) (by omega)
        _ = 2147483648 := by norm_num
    have hcast : ((2 ^ bits - 1 : Nat) : Int) = 2 ^ bits - 1 := by
      rw [Nat.cast_sub hpos]
      push_cast
      rfl
    have hone : (1 : Int) ≤ 2 ^ bits := by exact_mod_cast hpos
    rw [if_neg hfull, hcast, wrapS32_eq (by omega) (by omega), if_pos (by omega)]

/-- What is between two numbers that have a property, and so has it, is every pattern if
the two are the extremes. -/
theorem forall_wrap_iff (h32 : bits ≤ 32)
    (hP : ∀ w, lowest bits ≤ w → w ≤ highest bits → P (lowest bits) → P (highest bits) → P w) :
    (∀ u < 2 ^ bits, P (wrapS 32 (u : Nat))) ↔ P (lowest bits) ∧ P (highest bits) := by
  constructor
  · intro h
    obtain ⟨u, hu, hlow⟩ := wrap_lowest bits
    obtain ⟨u', hu', hhigh⟩ := wrap_highest h32
    exact ⟨hlow ▸ h u hu, hhigh ▸ h u' hu'⟩
  · intro h u hu
    obtain ⟨h₁, h₂⟩ := wrap_between h32 hu
    exact hP _ h₁ h₂ h.1 h.2

theorem wrapS_fits (u : Nat) : Fits false (wrapS 32 u) := by
  rw [fits_signed]
  unfold wrapS
  split <;> omega

/-- What lies between two numbers that fit fits. -/
theorem fits_between {b : Bool} {x y z : Int} (hx : Fits b x) (hy : Fits b y)
    (h : x ≤ z ∧ z ≤ y ∨ y ≤ z ∧ z ≤ x) : Fits b z := by
  cases b with
  | false =>
    rw [fits_signed] at *
    omega
  | true =>
    rw [fits_unsigned] at *
    omega

/-- The quotient lies between the quotients of the ends. -/
theorem tdiv_between {k lo hi w : Int} (hk : k ≠ 0) (h₁ : lo ≤ w) (h₂ : w ≤ hi) :
    lo.tdiv k ≤ w.tdiv k ∧ w.tdiv k ≤ hi.tdiv k ∨ hi.tdiv k ≤ w.tdiv k ∧ w.tdiv k ≤ lo.tdiv k := by
  rcases lt_or_gt_of_ne hk with hneg | hpos
  · right
    have hswap : ∀ x : Int, x.tdiv k = -(x.tdiv (-k)) := by
      intro x
      rw [Int.tdiv_neg, Int.neg_neg]
    have hle₁ := Int.tdiv_le_tdiv (show 0 < -k by omega) h₁
    have hle₂ := Int.tdiv_le_tdiv (show 0 < -k by omega) h₂
    rw [hswap lo, hswap w, hswap hi]
    omega
  · exact Or.inl ⟨Int.tdiv_le_tdiv hpos h₁, Int.tdiv_le_tdiv hpos h₂⟩

end Wrap

/-! ## When an expression is defined -/

section Defined

variable {e : Elem} {n : Int} {b : Bool}

theorem lit_eq_some_iff {k : Int} : lit b n = some k ↔ Fits b n ∧ n = k := by
  unfold lit
  split
  next h => simp [h]
  next h => simp [h]

theorem checked_defined_iff : (∃ v, checked b n = some v) ↔ Fits b n := by
  unfold checked
  split
  next h => simp [h]
  next h => simp [h]

theorem div_defined_iff {k : Int} : (∃ q, div b n k = some q) ↔ k ≠ 0 ∧ Fits b (n.tdiv k) := by
  unfold div
  split
  next h => simp [h]
  next h => rw [checked_defined_iff]; simp [h]

theorem div_val {k q : Int} (h : div b n k = some q) : q = n.tdiv k := by
  unfold div checked at h
  split at h
  · cases h
  · split at h
    · cases h
      rfl
    · cases h

/-- A division by the scale, whether it is printed or is 1. -/
theorem divScale_eq_div (hn : Fits b n) : divScale b e n = (divisor b e).bind (div b n) := by
  unfold divScale divisor
  split
  next => rfl
  next =>
    rw [Option.bind_some, div, if_neg (by decide), Int.tdiv_one]
    exact (checked_eq hn).symm

theorem divisor_fits {k : Int} (h : divisor true e = some k) : 0 ≤ k := by
  unfold divisor scaleLit at h
  split at h
  · split at h
    · obtain ⟨hfits, rfl⟩ := lit_eq_some_iff.mp h
      exact (fits_unsigned.mp hfits).1
    · cases h
  · cases h
    decide

/-- The scaled `i32` and the sum with `min`. -/
theorem unstepSigned_defined_iff {u : Nat} (hraw : e.rawStorage = false) :
    (∃ v, unstepSigned e u = some v) ↔ ∃ k ∈ divisor false e, k ≠ 0 ∧
      Fits false ((wrapS 32 u).tdiv k) ∧
        ∀ m ∈ e.min, Fits false m.toInt ∧ Fits false ((wrapS 32 u).tdiv k + m.toInt) := by
  have hdiv := divScale_eq_div (e := e) (wrapS_fits u)
  unfold unstepSigned
  simp only [hraw, Bool.false_eq_true, if_false, hdiv, Option.bind_eq_bind]
  cases hm : e.min with
  | none =>
    simp only [Option.bind_eq_some_iff]
    constructor
    · intro h
      obtain ⟨v, k, hk, hq⟩ := h
      obtain ⟨hk0, hfits⟩ := div_defined_iff.mp ⟨v, hq⟩
      exact ⟨k, hk, hk0, hfits, fun m hm => by cases hm⟩
    · intro h
      obtain ⟨k, hk, hk0, hfits, _⟩ := h
      obtain ⟨q, hq⟩ := div_defined_iff.mpr ⟨hk0, hfits⟩
      exact ⟨q, k, hk, hq⟩
  | some m =>
    simp only [Option.bind_eq_some_iff, lit_eq_some_iff]
    constructor
    · intro h
      obtain ⟨v, q, ⟨k, hk, hq⟩, _, ⟨hfit, rfl⟩, hv⟩ := h
      obtain ⟨hk0, hfits⟩ := div_defined_iff.mp ⟨q, hq⟩
      refine ⟨k, hk, hk0, hfits, fun m' hm' => ?_⟩
      cases hm'
      rw [div_val hq] at hv
      exact ⟨hfit, checked_defined_iff.mp ⟨v, hv⟩⟩
    · intro h
      obtain ⟨k, hk, hk0, hfits, hsum⟩ := h
      obtain ⟨hfit, hfits'⟩ := hsum m rfl
      obtain ⟨q, hq⟩ := div_defined_iff.mpr ⟨hk0, hfits⟩
      obtain ⟨v, hv⟩ := checked_defined_iff.mpr hfits'
      exact ⟨v, q, ⟨k, hk, hq⟩, _, ⟨hfit, rfl⟩, by rw [div_val hq]; exact hv⟩

/-- **An `i32` leaf is decoded from every pattern exactly if it is from both extremes.** -/
theorem signed_total_iff (h32 : e.size ≤ 32) :
    (∀ u < 2 ^ e.size, ∃ v, unstepSigned e u = some v) ↔ SignedTotal e := by
  unfold SignedTotal
  by_cases hraw : e.rawStorage = true
  · rw [if_pos hraw]
    cases hm : e.minWire with
    | none =>
      constructor
      · intro _ m h
        cases h
      · intro _ u _
        exact ⟨wrapS 32 u, by simp [unstepSigned, hraw, hm]⟩
    | some m =>
      -- only the sum depends on the pattern
      have hdef : ∀ u : Nat, (∃ v, unstepSigned e u = some v) ↔
          Fits false m ∧ Fits false (wrapS 32 u + m) := by
        intro u
        simp only [unstepSigned, hraw, if_true, hm, Option.bind_eq_bind, Option.bind_eq_some_iff,
          lit_eq_some_iff]
        constructor
        · intro h
          obtain ⟨v, _, ⟨hfit, rfl⟩, hv⟩ := h
          exact ⟨hfit, checked_defined_iff.mp ⟨v, hv⟩⟩
        · intro h
          obtain ⟨v, hv⟩ := checked_defined_iff.mpr h.2
          exact ⟨v, m, ⟨h.1, rfl⟩, hv⟩
      simp only [hdef]
      rw [forall_wrap_iff (P := fun w => Fits false m ∧ Fits false (w + m)) h32 fun w h₁ h₂ hl hh =>
        ⟨hl.1, fits_between hl.2 hh.2 (Or.inl ⟨by omega, by omega⟩)⟩]
      constructor
      · intro h m' hm'
        cases hm'
        exact ⟨h.1.1, h.1.2, h.2.2⟩
      · intro h
        obtain ⟨hfit, hlo, hhi⟩ := h m rfl
        exact ⟨⟨hfit, hlo⟩, hfit, hhi⟩
  · rw [if_neg hraw]
    have hraw' : e.rawStorage = false := by simpa using hraw
    simp only [unstepSigned_defined_iff hraw']
    -- a scale that is no literal does not compile, and no pattern has a value
    cases hd : divisor false e with
    | none =>
      constructor
      · intro h
        obtain ⟨k, hk, -⟩ := h 0 (Nat.two_pow_pos _)
        cases hk
      · intro h
        obtain ⟨k, hk, -⟩ := h
        cases hk
    | some k =>
      simp only [Option.mem_def, Option.some.injEq, exists_eq_left']
      rw [forall_wrap_iff (P := fun w => k ≠ 0 ∧ Fits false (w.tdiv k) ∧ ∀ m, e.min = some m →
        Fits false m.toInt ∧ Fits false (w.tdiv k + m.toInt)) h32]
      · simp only [List.forall_mem_cons, List.not_mem_nil, false_implies, implies_true, and_true]
        constructor
        · intro h
          exact ⟨h.1.1, h.1.2, h.2.2⟩
        · intro h
          exact ⟨⟨h.1, h.2.1⟩, h.1, h.2.2⟩
      · -- between the extremes: the quotient is, and with it the sum
        intro w h₁ h₂ hl hh
        have hbetween := tdiv_between hl.1 h₁ h₂
        refine ⟨hl.1, fits_between hl.2.1 hh.2.1 hbetween, fun m hm => ?_⟩
        obtain ⟨hfit, hlo⟩ := hl.2.2 m hm
        refine ⟨hfit, fits_between hlo (hh.2.2 m hm).2 ?_⟩
        rcases hbetween with hb | hb
        · exact Or.inl ⟨by omega, by omega⟩
        · exact Or.inr ⟨by omega, by omega⟩

/-- A division of a `u32`: only the divisor zero panics. -/
theorem divScale_total_iff {u : Nat} (hu : Fits true u) :
    (∃ v, divScale true e u = some v) ↔ ∃ k ∈ divisor true e, k ≠ 0 := by
  rw [divScale_eq_div hu]
  simp only [Option.bind_eq_some_iff]
  constructor
  · intro h
    obtain ⟨v, k, hk, hq⟩ := h
    exact ⟨k, hk, (div_defined_iff.mp ⟨v, hq⟩).1⟩
  · intro h
    obtain ⟨k, hk, hk0⟩ := h
    have hpos := divisor_fits hk
    obtain ⟨q, hq⟩ := div_defined_iff.mpr ⟨hk0, fits_tdiv hu (by omega)⟩
    exact ⟨q, k, hk, hq⟩

/-- **A `u32` leaf is decoded from every pattern, or from none.** -/
theorem unsigned_total_iff {scalar : Bool} {u : Nat} (hu : Fits true u) :
    (∃ v, unstepUnsigned scalar e u = some v) ↔ UnsignedTotal scalar e := by
  unfold unstepUnsigned UnsignedTotal
  by_cases hraw : e.rawStorage = true
  · rw [if_pos hraw, if_pos hraw]
    cases hm : e.minWire with
    | none => simp
    | some m => simp [Option.bind_eq_some_iff, lit_eq_some_iff]
  rw [if_neg hraw, if_neg hraw]
  cases hm : e.packedMin with
  | none => exact divScale_total_iff hu
  | some m =>
    simp only [Option.bind_eq_bind, Option.bind_eq_some_iff, lit_eq_some_iff]
    cases scalar with
    | false =>
      simp only [Bool.false_eq_true, if_false, Option.bind_eq_some_iff, Option.pure_def,
        ← divScale_total_iff hu]
      constructor
      · intro h
        obtain ⟨v, b, ⟨hfit, rfl⟩, q, hq, _⟩ := h
        exact ⟨hfit, q, hq⟩
      · intro h
        obtain ⟨hfit, q, hq⟩ := h
        exact ⟨_, _, ⟨hfit, rfl⟩, q, hq, rfl⟩
    | true =>
      simp only [if_true]
      -- with a scale, `scale.wrapping_add(min)` is what is divided by
      by_cases hs : e.hasScale = true
      · simp only [if_pos hs, Option.bind_eq_some_iff]
        constructor
        · intro h
          obtain ⟨v, b, ⟨hfit, rfl⟩, k, hk, hv⟩ := h
          exact ⟨hfit, fun _ => ⟨k, hk, (div_defined_iff.mp ⟨v, hv⟩).1⟩⟩
        · intro h
          obtain ⟨hfit, hrest⟩ := h
          obtain ⟨k, hk, hne⟩ := hrest hs
          have hpos : 1 ≤ wrapping true (k + m.toInt) := by
            have hmod : wrapping true (k + m.toInt) = (k + m.toInt) % 4294967296 := rfl
            rw [hmod]
            omega
          obtain ⟨v, hv⟩ := (div_defined_iff (b := true) (n := u)).mpr
            ⟨by omega, fits_tdiv hu hpos⟩
          exact ⟨v, _, ⟨hfit, rfl⟩, k, hk, hv⟩
      · simp only [if_neg hs, Option.pure_def, Option.some.injEq]
        constructor
        · intro h
          obtain ⟨v, b, ⟨hfit, rfl⟩, _⟩ := h
          exact ⟨hfit, fun h => absurd h hs⟩
        · intro h
          exact ⟨_, _, ⟨h.1, rfl⟩, rfl⟩

/-- `f32` arithmetic does not panic. -/
def FloatsTotal (fl : FloatExprs) : Prop := ∀ e u, ∃ v, fl.unstep e u = some v

/-- **When a leaf has a value for every pattern.** -/
theorem leaf_total_iff {fl : FloatExprs} (hfl : FloatsTotal fl) {scalar : Bool}
    (h32 : e.size ≤ 32) :
    (∀ u < 2 ^ e.size, ∃ v, unstep fl scalar e u = some v) ↔ LeafTotal scalar e := by
  have hmap : ∀ o : Option Int, (∃ v, o.map Value.int = some v) ↔ ∃ n, o = some n := by
    intro o
    cases o <;> simp
  have hzero := Nat.two_pow_pos e.size
  unfold unstep LeafTotal
  by_cases hb : e.isBool = true
  · simp [if_pos hb]
  simp only [if_neg hb]
  by_cases he : e.isEnum = true
  · simp only [if_pos he]
    cases ht : e.enum with
    | none => simpa using ⟨0, hzero⟩
    | some t =>
      by_cases hc : t.count ≤ 256
      · simp [fromWire, hc]
      · simpa [fromWire, hc] using ⟨0, hzero⟩
  simp only [if_neg he]
  by_cases hf : e.isFloat = true
  · simp [if_pos hf, hfl e]
  simp only [if_neg hf]
  by_cases hs : e.isString = true
  · simpa [if_pos hs] using ⟨0, hzero⟩
  simp only [if_neg hs]
  by_cases hsg : e.isSigned = true
  · simp only [if_pos hsg, hmap]
    exact signed_total_iff h32
  · simp only [if_neg hsg, hmap]
    have hfit : ∀ u < 2 ^ e.size, Fits true (u : Nat) := by
      intro u hu
      have hint : (u : Int) < 2 ^ e.size := by exact_mod_cast hu
      have hle := two_pow_le_word h32
      exact ⟨by omega, by omega⟩
    constructor
    · intro h
      exact (unsigned_total_iff (hfit 0 hzero)).mp (h 0 hzero)
    · intro h u hu
      exact (unsigned_total_iff (hfit u hu)).mpr h

end Defined

end ProtoEmb.Codec.Rust

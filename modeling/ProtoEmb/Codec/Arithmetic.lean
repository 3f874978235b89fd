import ProtoEmb.Codec.Decoders
import ProtoEmb.Codec.Traces

/-!
# When the 32-bit arithmetic of a packed type is right

`validate_schema` of `generate.py` checks that a declared range lies inside the type's and that it
fits the bits; neither says that 32 bits are enough for the difference, the product or the sum,
that the scale is not zero, or that there are at most 32 bits. `arithmetic_clean_iff` is what has
to hold besides, leaf by leaf.

A width is a number of the schema, and `bits` may be negative; what the helper gets then is a
`uint32_t` of `2 ^ 31` and more, and it shifts by 32.

For a value in range and a positive scale it is enough to look at the encoder: what the
decoder computes lies between `min` and the value. Two cases are left. A raw `uint32` is
decoded in `int`, whatever its size; and Rust's scalar decoder divides by the sum of `scale`
and `min`, which may wrap to zero.
-/

namespace ProtoEmb.Codec

open ProtoEmb.Lib ProtoEmb.Schema

/-- The integers in the declared range, in the units the member is stored in. -/
def Declared (e : Elem) (n : Int) : Prop :=
  if e.rawStorage then (∀ m ∈ e.minWire, m ≤ n) ∧ ∀ m ∈ e.maxWire, n ≤ m
  else (∀ m ∈ e.min, m.toRat ≤ n) ∧ ∀ m ∈ e.max, n ≤ m.toRat

/-- A leaf that both languages can hold; an integer lies in the declared range. -/
structure Held (e : Elem) (v : Value) : Prop where
  int : isNumber e = true → e.isFloat = false → ∃ n, v = .int n ∧ C.MemberFits e.type n ∧
    Fits (!e.isSigned) n ∧ Declared e n

instance (e : Elem) (n : Int) : Decidable (Declared e n) := by
  unfold Declared
  infer_instance

instance (e : Elem) (v : Value) : Decidable (Held e v) :=
  decidable_of_iff (isNumber e = true → e.isFloat = false → ∃ n ∈ v.int?, C.MemberFits e.type n ∧
      Fits (!e.isSigned) n ∧ Declared e n)
    ⟨fun h => ⟨fun hnum hf => let ⟨n, hn, hrest⟩ := h hnum hf; ⟨n, int?_eq_some hn, hrest⟩⟩,
      fun h hnum hf => let ⟨n, hn, hrest⟩ := h.int hnum hf; ⟨n, by rw [hn]; rfl, hrest⟩⟩

/-! ## Expressions in `int` -/

section Int

variable {min : Option Int} {n k w r : Int}

theorem intLit_zero : Expr.IntLit 0 := by decide

/-- `val - min` in `int`. -/
theorem diffExpr_int_iff (hn : Fits false n) :
    (diffExpr min n).evalC .int = some ⟨.int, r⟩ ↔
      Expr.IntLit (min.getD 0) ∧ Fits false (n - min.getD 0) ∧ n - min.getD 0 = r := by
  cases min with
  | none => simp [diffExpr, Expr.evalC_val_int, intLit_zero, hn]
  | some m =>
    simp only [diffExpr, Expr.evalC_arith_int, Expr.evalC_val_int, Expr.evalC_lit_int, true_and,
      Arith.eval, Option.getD_some]
    constructor
    · rintro ⟨a, b, rfl, ⟨hlit, rfl⟩, hr⟩
      exact ⟨hlit, hr⟩
    · rintro ⟨hlit, hr⟩
      exact ⟨n, m, rfl, ⟨hlit, rfl⟩, hr⟩

theorem clean_diffExpr_int (hn : Fits false n) :
    Clean ((diffExpr min n).opsC .int) ↔
      (Expr.IntLit (min.getD 0) → Fits false (n - min.getD 0)) := by
  cases min with
  | none => simp [diffExpr, hn]
  | some m =>
    simp only [diffExpr, Expr.clean_opsC_arith, Expr.opsC_val, Expr.opsC_lit, clean_nil, true_and,
      Expr.evalC_val_int, Expr.evalC_lit_int, Arith.eval, Option.getD_some]
    constructor
    · intro h hlit
      exact h n m rfl ⟨hlit, rfl⟩
    · rintro h a b rfl ⟨hlit, rfl⟩
      exact h hlit

/-- `(val - min) * scale` in `int`. -/
theorem clean_scaledExpr_int (hn : Fits false n) :
    Clean ((Expr.arith .mul (diffExpr min n) (.lit k)).opsC .int) ↔
      (Expr.IntLit (min.getD 0) → Fits false (n - min.getD 0) ∧
        (Expr.IntLit k → Fits false ((n - min.getD 0) * k))) := by
  simp only [Expr.clean_opsC_arith, clean_diffExpr_int hn, diffExpr_int_iff hn, Expr.opsC_lit,
    clean_nil, true_and, Expr.evalC_lit_int, Arith.eval]
  constructor
  · rintro ⟨hdiff, hmul⟩ hlit
    exact ⟨hdiff hlit, fun hk => hmul _ k ⟨hlit, hdiff hlit, rfl⟩ ⟨hk, rfl⟩⟩
  · intro h
    refine ⟨fun hlit => (h hlit).1, ?_⟩
    rintro a b ⟨hlit, -, rfl⟩ ⟨hk, rfl⟩
    exact (h hlit).2 hk

/-- Nothing is done in `int` with an unsigned value. -/
theorem diffExpr_uint : (diffExpr min n).evalC .uint ≠ some ⟨.int, r⟩ := by
  cases min with
  | none => simp [diffExpr, Expr.evalC_val_int]
  | some m => simp [diffExpr, Expr.evalC_arith_int, Expr.evalC_val_int]

theorem clean_diffExpr_uint : Clean ((diffExpr min n).opsC .uint) := by
  cases min with
  | none => simp [diffExpr]
  | some m => simp [diffExpr, Expr.clean_opsC_arith, Expr.evalC_val_int]

theorem clean_scaledExpr_uint :
    Clean ((Expr.arith .mul (diffExpr min n) (.lit k)).opsC .uint) := by
  simp [Expr.clean_opsC_arith, clean_diffExpr_uint, diffExpr_uint]

/-- `wire + min` in `int`. -/
theorem clean_sumExpr_int (hw : Fits false w) :
    Clean ((sumExpr min (.val w)).opsC .int) ↔
      (Expr.IntLit (min.getD 0) → Fits false (w + min.getD 0)) := by
  cases min with
  | none => simp [sumExpr, hw]
  | some m =>
    simp only [sumExpr, Expr.clean_opsC_arith, Expr.opsC_val, Expr.opsC_lit, clean_nil, true_and,
      Expr.evalC_val_int, Expr.evalC_lit_int, Arith.eval, Option.getD_some]
    constructor
    · intro h hlit
      exact h w m rfl ⟨hlit, rfl⟩
    · rintro h a b rfl ⟨hlit, rfl⟩
      exact h hlit

/-- A zero is a literal, so it is divided by. -/
theorem lit_nonzero_iff {t : CTy} :
    (∀ a b, (Expr.val w).evalC t = some a → (Expr.lit k).evalC t = some b → b.val ≠ 0) ↔ k ≠ 0 := by
  constructor
  · rintro h rfl
    exact h ⟨t, w⟩ ⟨.int, 0⟩ rfl rfl rfl
  · intro hk a b _ hb
    rw [CInt.lit_val hb]
    exact hk

/-- `wire / scale + min` in `int`. -/
theorem clean_quotExpr_int :
    Clean ((sumExpr min (.div (.val w) (.lit k))).opsC .int) ↔
      k ≠ 0 ∧ (Expr.IntLit k → Fits false (w.tdiv k) ∧
        (Expr.IntLit (min.getD 0) → Fits false (w.tdiv k + min.getD 0))) := by
  have hdiv : Clean ((Expr.div (.val w) (.lit k)).opsC .int) ↔
      k ≠ 0 ∧ (Expr.IntLit k → Fits false (w.tdiv k)) := by
    simp only [Expr.clean_opsC_div, Expr.opsC_val, Expr.opsC_lit, clean_nil, true_and,
      lit_nonzero_iff,
      Expr.evalC_val_int, Expr.evalC_lit_int]
    refine and_congr_right fun _ => ⟨fun h hk => h w k rfl ⟨hk, rfl⟩, ?_⟩
    rintro h a b rfl ⟨hk, rfl⟩
    exact h hk
  cases min with
  | none =>
    rw [sumExpr, hdiv]
    simp only [Option.getD_none, Int.add_zero, intLit_zero, true_implies, and_self]
  | some m =>
    simp only [sumExpr, Expr.clean_opsC_arith, hdiv, Expr.opsC_lit, clean_nil, true_and,
      Expr.evalC_div_int, Expr.evalC_val_int, Expr.evalC_lit_int, Arith.eval, Option.getD_some]
    constructor
    · rintro ⟨⟨hk, hq⟩, hsum⟩
      exact ⟨hk, fun hlit => ⟨hq hlit, fun hm =>
        hsum _ m ⟨w, k, rfl, ⟨hlit, rfl⟩, hk, hq hlit, rfl⟩ ⟨hm, rfl⟩⟩⟩
    · rintro ⟨hk, h⟩
      refine ⟨⟨hk, fun hlit => (h hlit).1⟩, ?_⟩
      rintro a b ⟨w', k', rfl, ⟨hlit, rfl⟩, -, -, rfl⟩ ⟨hm, rfl⟩
      exact (h hlit).2 hm

theorem clean_quotExpr_uint :
    Clean ((sumExpr min (.div (.val w) (.lit k))).opsC .uint) ↔ k ≠ 0 := by
  have hdiv : Clean ((Expr.div (.val w) (.lit k)).opsC .uint) ↔ k ≠ 0 := by
    simp [Expr.clean_opsC_div, lit_nonzero_iff, Expr.evalC_val_int]
  cases min with
  | none => rw [sumExpr, hdiv]
  | some m =>
    simp [sumExpr, Expr.clean_opsC_arith, hdiv, Expr.evalC_div_int, Expr.evalC_val_int]

end Int

/-! ## Steps in range -/

section Range

variable {rnd : Rat → Rat} {ctx : Context} {e : Elem} {v : Value} {n b k : Int} {bits : Nat}

theorem memberFits_int (h : C.MemberFits e.type n) (hu : C.isUnsigned e.type = false) :
    Fits false n := by
  have htype : e.type ≠ "uint32" := by simpa [C.isUnsigned] using hu
  have hm : C.memberType e.type ∈
      [(8, true), (8, false), (16, true), (16, false), (32, false)] := by
    unfold C.memberType
    repeat' split
    all_goals simp_all
  rw [fits_signed]
  unfold C.MemberFits at h
  simp only [List.mem_cons, List.not_mem_nil, or_false] at hm
  rcases hm with hm | hm | hm | hm | hm <;> rw [hm] at h <;>
    simp only [Bool.false_eq_true, if_false, if_true, Nat.reduceSub, Int.reducePow] at h <;> omega

/-- What is subtracted, if anything. -/
def subtrahend (e : Elem) : Option Int :=
  if e.rawStorage then e.minWire else e.packedMin.map Num.toInt

theorem base_eq (e : Elem) : e.base = (subtrahend e).getD 0 := by
  unfold Elem.base subtrahend
  split <;> rfl

theorem toInt_le_of_toRat_le {m : Schema.Num} (h : m.toRat ≤ n) : m.toInt ≤ n := by
  cases m with
  | int i =>
    have hrat : (i : Rat) ≤ n := h
    exact_mod_cast hrat
  | float q =>
    have hq : q ≤ n := h
    simp only [Num.toInt]
    split
    · exact_mod_cast le_trans (Int.floor_le q) hq
    · exact Int.ceil_le.mpr hq

/-- In range, the difference is not negative. -/
theorem Declared.base_le (h : Declared e n) (hsub : subtrahend e ≠ none) : e.base ≤ n := by
  obtain ⟨m, hm⟩ := Option.ne_none_iff_exists'.mp hsub
  rw [base_eq, hm, Option.getD_some]
  unfold Declared at h
  unfold subtrahend at hm
  split at hm
  next hraw =>
    rw [if_pos hraw] at h
    exact h.1 m hm
  next hraw =>
    rw [if_neg hraw] at h
    obtain ⟨x, hx, rfl⟩ := Option.map_eq_some_iff.mp hm
    have hmin : e.min = some x := by
      unfold Elem.packedMin at hx
      split at hx
      · exact hx
      · exact (Option.filter_eq_some_iff.mp hx).1
    exact toInt_le_of_toRat_le (h.1 x hmin)

/-- What the decoder computes lies between `min` and the value. -/
theorem decoded_sum_fits (h32 : bits ≤ 32) (hk : 1 ≤ k) (hb : Fits false b) (hn : Fits false n)
    (hle : b ≤ n) (hs : Fits false ((n - b) * k)) :
    Fits false ((wrapS 32 ((toU32 ((n - b) * k) % 2 ^ bits : Nat) : Int)).tdiv k + b) := by
  have h0 : 0 ≤ (n - b) * k := Int.mul_nonneg (by omega) (by omega)
  rw [fits_signed] at hs hb hn ⊢
  obtain ⟨hw, hnn, hcut⟩ := @Rust.wrapS_trunc bits _ h0 hs.2
  rw [toU32_mod_cast h32, hw]
  have hq0 := Int.tdiv_nonneg hnn (show 0 ≤ k by omega)
  have hq : ((n - b) * k % 2 ^ bits).tdiv k ≤ n - b := by
    have hdiv : ((n - b) * k).tdiv k = n - b := Int.mul_tdiv_cancel _ (by omega)
    calc ((n - b) * k % 2 ^ bits).tdiv k = (n - b) * k % 2 ^ bits / k :=
          Int.tdiv_eq_ediv_of_nonneg hnn
      _ ≤ (n - b) * k / k := Int.ediv_le_ediv (by omega) hcut
      _ = n - b := by rw [← Int.tdiv_eq_ediv_of_nonneg h0, hdiv]
  omega

/-- An integer leaf has one integer. -/
theorem forall_int? {P : Int → Prop} : (∀ m ∈ (Value.int n).int?, P m) ↔ P n := by
  simp [Value.int?]

theorem float_type (hl : e.Leaf rnd ctx true) (hf : e.isFloat = true) :
    e.isSigned = false ∧ C.isUnsigned e.type = false := by
  obtain ⟨f, raw, hmade, -⟩ := hl.made
  have htype : e.type = "float" := by
    rw [hmade] at hf ⊢
    exact of_decide_eq_true hf
  rw [hl.signed_eq, htype]
  decide

end Range

/-! ## The condition in C -/

namespace C

/-- What has to hold of a leaf for C. An operation counts if it is done in `int`: not with a
`uint32`, and not with a literal that is too large for `int`. -/
structure Sound (fl : FloatExprs) (s : Bool) (e : Elem) (v : Value) : Prop where
  scale : e.rawStorage = false → e.scale.toRat ≠ 0
  encode : e.isFloat = false → isUnsigned e.type = false → Expr.IntLit e.base →
    ∀ n ∈ v.int?, Fits false (n - e.base) ∧
      (e.isFloatExpr = false → Expr.IntLit e.factor → Fits false (e.wireStep n))
  /-- a raw `uint32` or `float` is decoded in `int` -/
  raw : e.rawStorage = true → (isUnsigned e.type = true ∨ e.isFloat = true) →
    Expr.IntLit e.base →
      Fits false (wrapS 32 (((trace fl).wire s e v % 2 ^ e.size : Nat) : Int) + e.base)
  negative : e.rawStorage = false → e.isSigned = true → ∀ k, e.scale = .int k → k < 0 →
    Expr.IntLit k →
      Fits false ((read e ((trace fl).wire s e v % 2 ^ e.size)).tdiv k) ∧
        (Expr.IntLit e.base →
          Fits false ((read e ((trace fl).wire s e v % 2 ^ e.size)).tdiv k + e.base))

variable {rnd : Rat → Rat} {ctx : Context} {fl : FloatExprs} {e : Elem} {v : Value} {s : Bool}
  {n : Int}

theorem fits_read (hraw : e.rawStorage = false) (hsg : e.isSigned = true) (u : Nat) :
    Fits false (read e u) := by
  unfold read
  rw [hraw, hsg, if_neg Bool.false_ne_true, if_pos rfl]
  split
  · exact Expr.fits_wrapS _
  · cases hx : signExtend u e.size with
    | none => decide
    | some x =>
      have hwrap : ∃ y, wrapS 32 y = x := by
        unfold signExtend at hx
        dsimp only at hx
        split_ifs at hx <;> exact ⟨_, Option.some.inj hx⟩
      obtain ⟨y, rfl⟩ := hwrap
      rw [Option.getD_some]
      exact Expr.fits_wrapS y

/-- The expressions of a raw leaf. -/
theorem clean_raw_iff (hraw : e.rawStorage = true) (hnum : isNumber e = true) (u : Nat) :
    Clean (unstepOps s e u) ↔ (Expr.IntLit e.base → Fits false (wrapS 32 (u : Int) + e.base)) := by
  have hops : unstepOps s e u = (sumExpr e.minWire (.val (wrapS 32 (u : Int)))).opsC .int := by
    simp [unstepOps, hnum, hraw, unstepExpr, readTy, read]
  rw [hops, clean_sumExpr_int (Expr.fits_wrapS _), base_eq, subtrahend, if_pos hraw]

/-- The encode expression of an integer. -/
theorem clean_stepOps_iff (hnum : isNumber e = true) (hf : e.isFloat = false)
    (hm : MemberFits e.type n) :
    Clean (stepOps s e (.int n)) ↔ (isUnsigned e.type = false → Expr.IntLit e.base →
      Fits false (n - e.base) ∧
        (e.isFloatExpr = false → Expr.IntLit e.factor → Fits false (e.wireStep n))) := by
  have hops : stepOps s e (.int n) = (stepExpr e n).opsC (memberTy e.type) := by
    simp [stepOps, hnum, hf]
  rw [hops]
  unfold stepExpr memberTy
  have hbase := base_eq e
  unfold subtrahend at hbase
  cases hu : isUnsigned e.type with
  | true =>
    simp only [if_true, Bool.true_eq_false, false_implies, iff_true]
    split
    · exact clean_diffExpr_uint
    · split
      · exact clean_scaledExpr_uint
      · exact clean_diffExpr_uint
  | false =>
    have hn := memberFits_int hm hu
    simp only [Bool.false_eq_true, if_false, true_implies]
    cases hraw : e.rawStorage with
    | true =>
      rw [hraw, if_pos rfl] at hbase
      have hstep := Rust.wireStep_raw (n := n) hraw
      rw [if_pos rfl, clean_diffExpr_int hn, hbase.symm, hstep]
      exact ⟨fun h hlit => ⟨h hlit, fun _ _ => h hlit⟩, fun h hlit => (h hlit).1⟩
    | false =>
      rw [hraw, if_neg Bool.false_ne_true] at hbase
      rw [if_neg Bool.false_ne_true]
      cases hk : e.scale with
      | int k =>
        have hfloat : e.isFloatExpr = false := by simp [Elem.isFloatExpr, hf, hk]
        have hfac : e.factor = k := by rw [Elem.factor, hraw, hk]; rfl
        simp only [clean_scaledExpr_int hn, ← hbase, hfloat, hfac, true_implies, Elem.wireStep]
      | float q =>
        have hfloat : e.isFloatExpr = true := by simp [Elem.isFloatExpr, hraw, hk]
        simp only [clean_diffExpr_int hn, ← hbase, hfloat, Bool.true_eq_false, false_implies,
          and_true]

/-- The decode expression of a number that is divided in `uint32_t` or in doubles. -/
theorem clean_unsigned_iff (hraw : e.rawStorage = false) (hsg : e.isSigned = false)
    (hnum : isNumber e = true) (u : Nat) :
    Clean (unstepOps s e u) ↔ e.scale.toRat ≠ 0 := by
  cases hk : e.scale with
  | int k =>
    have hops : unstepOps s e u
        = (sumExpr (e.packedMin.map Num.toInt) (.div (.val (read e u)) (.lit k))).opsC .uint := by
      simp [unstepOps, hnum, hraw, hk, unstepExpr, readTy, hsg, Num.toInt]
    rw [hops, clean_quotExpr_uint]
    simp [Num.toRat]
  | float q => simp [unstepOps, hnum, hraw, hk, Num.toRat]

/-- The decode expression of a number that is divided in `int` or in doubles. -/
theorem clean_signed_iff (hraw : e.rawStorage = false) (hsg : e.isSigned = true)
    (hnum : isNumber e = true) (u : Nat) :
    Clean (unstepOps s e u) ↔ e.scale.toRat ≠ 0 ∧ ∀ k, e.scale = .int k → Expr.IntLit k →
      Fits false ((read e u).tdiv k) ∧
        (Expr.IntLit e.base → Fits false ((read e u).tdiv k + e.base)) := by
  have hbase := base_eq e
  rw [subtrahend, hraw, if_neg Bool.false_ne_true] at hbase
  cases hk : e.scale with
  | int k =>
    have hops : unstepOps s e u
        = (sumExpr (e.packedMin.map Num.toInt) (.div (.val (read e u)) (.lit k))).opsC .int := by
      simp [unstepOps, hnum, hraw, hk, unstepExpr, readTy, hsg, Num.toInt]
    rw [hops, clean_quotExpr_int, ← hbase]
    simp [Num.toRat]
  | float q => simp [unstepOps, hnum, hraw, hk, Num.toRat]

/-- A positive scale keeps the decoder in range. -/
theorem decode_fits_of_pos (h32 : e.size ≤ 32)
    (hraw : e.rawStorage = false) (hsg : e.isSigned = true) (hn : Fits false n)
    (hd : Declared e n) {k : Int} (hk : e.scale = .int k) (hpos : 0 < k)
    (hs : Fits false (e.wireStep n)) (hlit : Expr.IntLit e.base) :
    Fits false ((read e (toU32 (e.wireStep n) % 2 ^ e.size)).tdiv k + e.base) := by
  have hfac : e.factor = k := by rw [Elem.factor, hraw, hk]; rfl
  cases hsub : subtrahend e with
  | none =>
    -- without a `min` nothing is added
    rw [base_eq, hsub, Option.getD_none, Int.add_zero]
    exact fits_tdiv (fits_read hraw hsg _) hpos
  | some m =>
    have hle := hd.base_le (by rw [hsub]; exact Option.some_ne_none m)
    have hmin : e.min.isSome = true := by
      rw [subtrahend, hraw, if_neg Bool.false_ne_true, Elem.packedMin, if_pos hsg] at hsub
      cases hm : e.min with
      | none => rw [hm] at hsub; cases hsub
      | some x => rfl
    have hread : ∀ u, read e u = wrapS 32 (u : Int) := by
      intro u
      simp [read, hraw, hsg, hmin]
    rw [hread]
    unfold Elem.wireStep at hs ⊢
    rw [hfac] at hs ⊢
    exact decoded_sum_fits h32 hpos (fits_signed.mpr ⟨by have := hlit.1; omega, hlit.2⟩) hn hle hs

/-- So does a raw leaf that is encoded in `int`. -/
theorem raw_fits (h32 : e.size ≤ 32) (hraw : e.rawStorage = true) (hn : Fits false n)
    (hd : Declared e n) (hs : Fits false (n - e.base)) (hlit : Expr.IntLit e.base) :
    Fits false (wrapS 32 ((toU32 (e.wireStep n) % 2 ^ e.size : Nat) : Int) + e.base) := by
  cases hsub : subtrahend e with
  | none =>
    rw [base_eq, hsub, Option.getD_none, Int.add_zero]
    exact Expr.fits_wrapS _
  | some m =>
    have hle := hd.base_le (by rw [hsub]; exact Option.some_ne_none m)
    have hone := @decoded_sum_fits n e.base 1 e.size h32 (le_refl 1)
      (fits_signed.mpr ⟨by have := hlit.1; omega, hlit.2⟩) hn hle (by rwa [Int.mul_one])
    rw [Int.mul_one, Int.tdiv_one] at hone
    rwa [Rust.wireStep_raw hraw]

/-- What the encoder of an integer packs. -/
theorem wire_int (hf : e.isFloat = false) :
    (trace fl).wire s e (.int n) = toU32 (e.wireStep n) := if_neg (by simp [hf])

/-- A float: the encoder makes no integer of it, and a raw decoder adds one. -/
theorem sound_float_iff (hl : e.Leaf rnd ctx true) (hnum : isNumber e = true)
    (hf : e.isFloat = true) :
    Clean (stepOps s e v) ∧ Clean (unstepOps s e ((trace fl).wire s e v % 2 ^ e.size)) ↔
      Sound fl s e v := by
  obtain ⟨hsg, hu⟩ := float_type hl hf
  have hstep : Clean (stepOps s e v) := by simp [stepOps, hf]
  simp only [hstep, true_and]
  cases hraw : e.rawStorage with
  | true =>
    rw [clean_raw_iff hraw hnum]
    exact ⟨fun h => ⟨fun h' => by simp [hraw] at h', fun h' => by simp [hf] at h', fun _ _ => h,
      fun h' => by simp [hraw] at h'⟩, fun h => h.raw hraw (Or.inr hf)⟩
  | false =>
    rw [clean_unsigned_iff hraw hsg hnum]
    exact ⟨fun h => ⟨fun _ => h, fun h' => by simp [hf] at h', fun h' => by simp [hraw] at h',
      fun _ h' => by simp [hsg] at h'⟩, fun h => h.scale hraw⟩

/-- A raw integer: a signed member holds what a sum of a signed word can be, so only an unsigned
one asks something of the decoder. -/
theorem sound_raw_iff (hnum : isNumber e = true) (h32 : e.size ≤ 32) (hf : e.isFloat = false)
    (hm : MemberFits e.type n) (hd : Declared e n) (hraw : e.rawStorage = true) :
    Clean (stepOps s e (.int n)) ∧
        Clean (unstepOps s e ((trace fl).wire s e (.int n) % 2 ^ e.size)) ↔
      Sound fl s e (.int n) := by
  rw [clean_stepOps_iff hnum hf hm, clean_raw_iff hraw hnum, wire_int hf]
  constructor
  · rintro ⟨henc, hdec⟩
    exact ⟨fun h => by simp [hraw] at h, fun _ hu hlit => forall_int?.mpr (henc hu hlit),
      fun _ _ => by rw [wire_int hf]; exact hdec, fun h => by simp [hraw] at h⟩
  · intro h
    refine ⟨fun hu hlit => forall_int?.mp (h.encode hf hu hlit), fun hlit => ?_⟩
    cases hu : isUnsigned e.type with
    | true =>
      have hsum := h.raw hraw (Or.inl hu) hlit
      rwa [wire_int hf] at hsum
    | false =>
      have henc := forall_int?.mp (h.encode hf hu hlit)
      exact raw_fits h32 hraw (memberFits_int hm hu) hd henc.1 hlit

/-- An unsigned integer is divided in `uint32_t`. -/
theorem sound_unsigned_iff (hnum : isNumber e = true) (hf : e.isFloat = false)
    (hm : MemberFits e.type n) (hraw : e.rawStorage = false) (hsg : e.isSigned = false) :
    Clean (stepOps s e (.int n)) ∧
        Clean (unstepOps s e ((trace fl).wire s e (.int n) % 2 ^ e.size)) ↔
      Sound fl s e (.int n) := by
  rw [clean_stepOps_iff hnum hf hm, clean_unsigned_iff hraw hsg hnum]
  constructor
  · rintro ⟨henc, hdec⟩
    exact ⟨fun _ => hdec, fun _ hu hlit => forall_int?.mpr (henc hu hlit),
      fun h => by simp [hraw] at h, fun _ h => by simp [hsg] at h⟩
  · intro h
    exact ⟨fun hu hlit => forall_int?.mp (h.encode hf hu hlit), h.scale hraw⟩

/-- A signed integer is divided in `int`. A positive scale gives no more than was put in, so only
a negative one asks something of the decoder. -/
theorem sound_signed_iff (hl : e.Leaf rnd ctx true) (hnum : isNumber e = true)
    (h32 : e.size ≤ 32) (hf : e.isFloat = false) (hm : MemberFits e.type n)
    (hd : Declared e n) (hraw : e.rawStorage = false) (hsg : e.isSigned = true) :
    Clean (stepOps s e (.int n)) ∧
        Clean (unstepOps s e ((trace fl).wire s e (.int n) % 2 ^ e.size)) ↔
      Sound fl s e (.int n) := by
  have hu := signed_not_uint32 hl hsg
  rw [clean_stepOps_iff hnum hf hm, clean_signed_iff hraw hsg hnum, wire_int hf]
  constructor
  · rintro ⟨henc, hne, hdec⟩
    exact ⟨fun _ => hne, fun _ hu hlit => forall_int?.mpr (henc hu hlit),
      fun h => by simp [hraw] at h, fun _ _ k hk _ => by rw [wire_int hf]; exact hdec k hk⟩
  · intro h
    refine ⟨fun hu hlit => forall_int?.mp (h.encode hf hu hlit), h.scale hraw,
      fun k hk hlit => ?_⟩
    have hne : k ≠ 0 := by
      have hscale := h.scale hraw
      rw [hk] at hscale
      exact fun h0 => hscale (by rw [h0]; rfl)
    rcases Int.lt_or_lt_of_ne hne with hneg | hpos
    · have hsum := h.negative hraw hsg k hk hneg hlit
      rwa [wire_int hf] at hsum
    · refine ⟨fits_tdiv (fits_read hraw hsg _) hpos, fun hb => ?_⟩
      have hfac : e.factor = k := by rw [Elem.factor, hraw, hk]; rfl
      have hfloat : e.isFloatExpr = false := by simp [Elem.isFloatExpr, hf, hk]
      have hs := (forall_int?.mp (h.encode hf hu hb)).2 hfloat (hfac ▸ hlit)
      exact decode_fits_of_pos h32 hraw hsg (memberFits_int hm hu) hd hk hpos hs hb

/-- **When the arithmetic of a leaf is right in C.** -/
theorem sound_iff (hl : e.Leaf rnd ctx true) (hnum : isNumber e = true) (h32 : e.size ≤ 32)
    (hheld : Held e v) :
    Clean (stepOps s e v) ∧ Clean (unstepOps s e ((trace fl).wire s e v % 2 ^ e.size)) ↔
      Sound fl s e v := by
  cases hf : e.isFloat with
  | true => exact sound_float_iff hl hnum hf
  | false =>
    obtain ⟨n, rfl, hm, hn, hd⟩ := hheld.int hnum hf
    cases hraw : e.rawStorage with
    | true => exact sound_raw_iff hnum h32 hf hm hd hraw
    | false =>
      cases hsg : e.isSigned with
      | false => exact sound_unsigned_iff hnum hf hm hraw hsg
      | true => exact sound_signed_iff hl hnum h32 hf hm hd hraw hsg

end C

/-! ## The condition in Rust -/

namespace Rust

/-- What has to hold of a leaf for Rust, if its literals compile. The operations of an
unsigned leaf wrap. -/
structure Sound (s : Bool) (e : Elem) (v : Value) : Prop where
  scale : e.isFloat = true ∨ e.rawStorage = false ∧ isMisparsed s e = false ∧ Compiles e →
    e.scale.toRat ≠ 0
  /-- the divisor of the misparsed quotient wraps -/
  misparsed : e.isFloat = false → isMisparsed s e = true → Compiles e →
    ¬ 4294967296 ∣ e.factor + e.base
  encode : e.isFloat = false → e.isSigned = true → Compiles e → ∀ n ∈ v.int?,
    Fits false (n - e.base) ∧ Fits false (e.wireStep n)
  negative : e.isFloat = false → e.isSigned = true → Compiles e → e.factor < 0 → ∀ n ∈ v.int?,
    Fits false ((wrapS 32 ((toU32 (e.wireStep n) % 2 ^ e.size : Nat) : Int)).tdiv e.factor) ∧
      Fits false
        ((wrapS 32 ((toU32 (e.wireStep n) % 2 ^ e.size : Nat) : Int)).tdiv e.factor + e.base)

variable {rnd : Rat → Rat} {ctx : Context} {e : Elem} {v : Value} {s : Bool} {min : Option Int}
  {n k w : Int}

/-- Nothing that is done with `u32` numbers is signed. -/
theorem clean_diffExpr_unsigned : Clean ((diffExpr min n).opsRust true) := by
  cases min <;> simp [diffExpr, Expr.clean_opsRust_arith]

theorem clean_diffExpr_signed (hn : Fits false n) (hb : Fits false (min.getD 0)) :
    Clean ((diffExpr min n).opsRust false) ↔ Fits false (n - min.getD 0) := by
  cases min with
  | none => simp [diffExpr, hn]
  | some m =>
    simp only [Option.getD_some] at hb
    simp [diffExpr, Expr.clean_opsRust_arith, evalRust_val, evalRust_lit, lit_eq hb, Arith.eval]

theorem evalRust_diffExpr_signed (hb : Fits false (min.getD 0))
    (hd : Fits false (n - min.getD 0)) :
    (diffExpr min n).evalRust false = some (n - min.getD 0) := by
  rw [evalRust_diffExpr]
  cases min with
  | none => simp
  | some m =>
    simp only [Option.getD_some] at hb hd ⊢
    rw [lit_eq hb, Option.bind_some, addSub, if_neg Bool.false_ne_true, checked_eq hd]

/-- `(val - min).wrapping_mul(scale)` on `i32`. -/
theorem clean_scaledExpr_signed (hn : Fits false n) (hb : Fits false (min.getD 0))
    (hk : Fits false k) :
    Clean ((Expr.arith .mul (diffExpr min n) (.lit k)).opsRust false) ↔
      Fits false (n - min.getD 0) ∧ Fits false ((n - min.getD 0) * k) := by
  rw [Expr.clean_opsRust_arith, clean_diffExpr_signed hn hb]
  simp only [Expr.opsRust_lit, clean_nil, true_and, true_implies, evalRust_lit, lit_eq hk,
    Option.some.injEq]
  refine and_congr_right fun hd => ?_
  rw [evalRust_diffExpr_signed hb hd]
  simp [Arith.eval]

/-- `wire + min` on `i32`. -/
theorem clean_sumExpr_signed (hw : Fits false w) (hb : Fits false (min.getD 0)) :
    Clean ((sumExpr min (.val w)).opsRust false) ↔ Fits false (w + min.getD 0) := by
  cases min with
  | none => simp [sumExpr, hw]
  | some m =>
    simp only [Option.getD_some] at hb
    simp [sumExpr, Expr.clean_opsRust_arith, evalRust_val, evalRust_lit, lit_eq hb, Arith.eval]

/-- `wire / scale + min` on `i32`. -/
theorem clean_quotExpr_signed (hb : Fits false (min.getD 0)) (hk : Fits false k) :
    Clean ((sumExpr min (.div (.val w) (.lit k))).opsRust false) ↔
      k ≠ 0 ∧ Fits false (w.tdiv k) ∧ Fits false (w.tdiv k + min.getD 0) := by
  have hdiv : Clean ((Expr.div (.val w) (.lit k)).opsRust false) ↔
      k ≠ 0 ∧ Fits false (w.tdiv k) := by
    simp [Expr.clean_opsRust_div, evalRust_val, evalRust_lit, lit_eq hk]
  cases min with
  | none =>
    rw [sumExpr, hdiv]
    simp
  | some m =>
    simp only [Option.getD_some] at hb ⊢
    rw [sumExpr, Expr.clean_opsRust_arith, hdiv, evalRust_div, evalRust_lit, evalRust_lit,
      lit_eq hk, lit_eq hb, and_assoc]
    refine and_congr_right fun hne => and_congr_right fun hq => ?_
    simp [div, hne, checked_eq hq, Arith.eval]

theorem clean_quotExpr_unsigned (hk : Fits true k) :
    Clean ((sumExpr min (.div (.val w) (.lit k))).opsRust true) ↔ k ≠ 0 := by
  have hdiv : Clean ((Expr.div (.val w) (.lit k)).opsRust true) ↔ k ≠ 0 := by
    simp [Expr.clean_opsRust_div, evalRust_val, evalRust_lit, lit_eq hk]
  cases min with
  | none => rw [sumExpr, hdiv]
  | some m => simp [sumExpr, Expr.clean_opsRust_arith, hdiv]

/-- `wire / scale.wrapping_add(min)` on `u32`. -/
theorem clean_misparsed (hk : Fits true k) (hb : Fits true (min.getD 0)) (hmin : min ≠ none) :
    Clean ((Expr.div (.val w) (sumExpr min (.lit k))).opsRust true) ↔
      ¬ 4294967296 ∣ k + min.getD 0 := by
  obtain ⟨m, rfl⟩ := Option.ne_none_iff_exists'.mp hmin
  simp only [Option.getD_some] at hb ⊢
  have hsum : Clean ((sumExpr (some m) (.lit k)).opsRust true) := by
    simp [sumExpr, Expr.clean_opsRust_arith]
  rw [Expr.clean_opsRust_div, evalRust_val, evalRust_sumExpr, evalRust_lit, lit_eq hk,
    Int.dvd_iff_emod_eq_zero]
  simp [hsum, lit_eq hb, addSub, wrapping, wrapU]

/-- Without a printed scale the factor is one. -/
theorem factor_eq_one (hl : e.Leaf rnd ctx true) (hraw : e.rawStorage = false)
    (hs : e.hasScale = false) : e.factor = 1 := by
  have hone : e.scale.toRat = 1 := by
    by_contra hne
    rw [hl.hasScale_iff.mpr hne] at hs
    cases hs
  rw [Elem.factor, hraw, if_neg Bool.false_ne_true]
  cases hk : e.scale with
  | int k =>
    rw [hk] at hone
    exact_mod_cast (show (k : Rat) = 1 from hone)
  | float q =>
    rw [hk] at hone
    have hq : q = 1 := hone
    rw [hq]
    decide

/-- A scale that compiles is zero exactly if the factor is. -/
theorem scale_ne_zero_iff (hl : e.Leaf rnd ctx true) (hraw : e.rawStorage = false)
    (hc : Compiles e) : e.scale.toRat ≠ 0 ↔ e.factor ≠ 0 := by
  cases hs : e.hasScale with
  | true =>
    have hk := hc.1 hraw hs
    have hfac : e.factor = e.scale.toInt := by rw [Elem.factor, hraw]; rfl
    rw [hfac, hk]
    simp [Num.toRat, Num.toInt]
  | false =>
    have hone : e.scale.toRat = 1 := by
      by_contra hne
      rw [hl.hasScale_iff.mpr hne] at hs
      cases hs
    rw [hone, factor_eq_one hl hraw hs]
    simp

/-- The encode expression of an integer. -/
theorem clean_stepOps_iff (hl : e.Leaf rnd ctx true) (hnum : isNumber e = true)
    (hf : e.isFloat = false) (hn : Fits (!e.isSigned) n) :
    Clean (stepOps s e (.int n)) ↔ (e.isSigned = true → Compiles e →
      Fits false (n - e.base) ∧ Fits false (e.wireStep n)) := by
  by_cases hc : Compiles e
  · have hops : stepOps s e (.int n) = (stepExpr e n).opsRust (!e.isSigned) := by
      simp [stepOps, hnum, hf, hc]
    rw [hops]
    have hbase := base_eq e
    unfold subtrahend at hbase
    unfold stepExpr
    cases hsg : e.isSigned with
    | false =>
      simp only [Bool.not_false, Bool.false_eq_true, false_implies, iff_true]
      split_ifs
      · exact clean_diffExpr_unsigned
      · simp [Expr.clean_opsRust_arith, clean_diffExpr_unsigned]
      · exact clean_diffExpr_unsigned
    | true =>
      have hb := hc.2.1
      have hk := hc.2.2
      rw [hsg, Bool.not_true] at hn hb hk
      simp only [Bool.not_true, true_implies, hc]
      cases hraw : e.rawStorage with
      | true =>
        rw [hraw, if_pos rfl] at hbase
        rw [hbase] at hb
        rw [if_pos rfl, clean_diffExpr_signed hn hb, wireStep_raw hraw, hbase, and_self]
      | false =>
        rw [hraw, if_neg Bool.false_ne_true] at hbase
        rw [hbase] at hb
        rw [if_neg Bool.false_ne_true]
        cases hs : e.hasScale with
        | true =>
          have hfac : e.factor = e.scale.toInt := by rw [Elem.factor, hraw]; rfl
          rw [if_pos rfl, clean_scaledExpr_signed hn hb (hfac ▸ hk), Elem.wireStep, hfac, hbase]
        | false =>
          rw [if_neg Bool.false_ne_true, clean_diffExpr_signed hn hb, Elem.wireStep,
            factor_eq_one hl hraw hs, Int.mul_one, hbase, and_self]
  · simp [stepOps, hc]

/-- The decode expression of an integer that is read as an `i32`. -/
theorem clean_signed_iff (hl : e.Leaf rnd ctx true) (hnum : isNumber e = true)
    (hf : e.isFloat = false) (hsg : e.isSigned = true) (hc : Compiles e) (u : Nat) :
    Clean (unstepOps s e u) ↔ e.factor ≠ 0 ∧ Fits false ((wrapS 32 (u : Int)).tdiv e.factor) ∧
      Fits false ((wrapS 32 (u : Int)).tdiv e.factor + e.base) := by
  have hops : unstepOps s e u = (unstepExpr s e u).opsRust false := by
    simp [unstepOps, hnum, hf, hc, hsg]
  have hmis : isMisparsed s e = false := by simp [isMisparsed, hsg]
  have hread : read e u = wrapS 32 (u : Int) := if_pos hsg
  have hw := Expr.fits_wrapS (u : Int)
  have hb := hc.2.1
  have hk := hc.2.2
  rw [hsg, Bool.not_true] at hb hk
  have hbase := base_eq e
  unfold subtrahend at hbase
  rw [hops]
  unfold unstepExpr quotExpr
  rw [hmis, hread, if_neg Bool.false_ne_true]
  generalize wrapS 32 (u : Int) = w at hw ⊢
  cases hraw : e.rawStorage with
  | true =>
    rw [hraw, if_pos rfl] at hbase
    rw [hbase] at hb
    have hfac : e.factor = 1 := by rw [Elem.factor, if_pos hraw]
    rw [if_pos rfl, clean_sumExpr_signed hw hb, hfac, Int.tdiv_one, hbase]
    simp [hw]
  | false =>
    rw [hraw, if_neg Bool.false_ne_true] at hbase
    rw [hbase] at hb
    rw [if_neg Bool.false_ne_true]
    cases hs : e.hasScale with
    | true =>
      have hfac : e.factor = e.scale.toInt := by rw [Elem.factor, hraw]; rfl
      rw [if_pos rfl, clean_quotExpr_signed hb (hfac ▸ hk), hfac, hbase]
    | false =>
      rw [if_neg Bool.false_ne_true, clean_sumExpr_signed hw hb, factor_eq_one hl hraw hs,
        Int.tdiv_one, hbase]
      simp [hw]

/-- The decode expression of an integer that is read as a `u32`. -/
theorem clean_unsigned_iff (hl : e.Leaf rnd ctx true) (hnum : isNumber e = true)
    (hf : e.isFloat = false) (hsg : e.isSigned = false) (hc : Compiles e) (u : Nat) :
    Clean (unstepOps s e u) ↔
      (e.rawStorage = false → isMisparsed s e = false → e.factor ≠ 0) ∧
        (isMisparsed s e = true → ¬ 4294967296 ∣ e.factor + e.base) := by
  have hops : unstepOps s e u = (unstepExpr s e u).opsRust true := by
    simp [unstepOps, hnum, hf, hc, hsg]
  have hb := hc.2.1
  have hk := hc.2.2
  rw [hsg, Bool.not_false] at hb hk
  have hbase := base_eq e
  unfold subtrahend at hbase
  rw [hops]
  unfold unstepExpr quotExpr
  cases hraw : e.rawStorage with
  | true =>
    have hmis : isMisparsed s e = false := by simp [isMisparsed, hraw]
    rw [if_pos rfl, hmis]
    simp only [Bool.true_eq_false, false_implies, Bool.false_eq_true, and_self, iff_true]
    cases e.minWire <;> simp [sumExpr, Expr.clean_opsRust_arith]
  | false =>
    rw [hraw, if_neg Bool.false_ne_true] at hbase
    rw [hbase] at hb
    rw [if_neg Bool.false_ne_true]
    cases hmis : isMisparsed s e with
    | true =>
      have hparts : e.hasScale = true ∧ e.packedMin.isSome = true := by
        simp only [isMisparsed, Bool.and_eq_true] at hmis
        exact ⟨hmis.1.2, hmis.2⟩
      have hfac : e.factor = e.scale.toInt := by rw [Elem.factor, hraw]; rfl
      have hsome : e.packedMin.map Num.toInt ≠ none := by
        obtain ⟨m, hm⟩ := Option.isSome_iff_exists.mp hparts.2
        rw [hm]
        exact Option.some_ne_none _
      rw [if_pos rfl, clean_misparsed (hfac ▸ hk) hb hsome, hfac, hbase]
      simp
    | false =>
      rw [if_neg Bool.false_ne_true]
      cases hs : e.hasScale with
      | true =>
        have hfac : e.factor = e.scale.toInt := by rw [Elem.factor, hraw]; rfl
        rw [if_pos rfl, clean_quotExpr_unsigned (hfac ▸ hk), hfac]
        simp
      | false =>
        rw [if_neg Bool.false_ne_true, factor_eq_one hl hraw hs]
        simp only [ne_eq, one_ne_zero, not_false_eq_true, implies_true, Bool.false_eq_true,
          false_implies, and_self, iff_true]
        cases e.packedMin <;> simp [sumExpr, Expr.clean_opsRust_arith]

/-- A positive scale keeps the decoder in range. -/
theorem decode_fits_of_pos (h32 : e.size ≤ 32) (hn : Fits false n) (hb : Fits false e.base)
    (hd : Declared e n) (hpos : 0 < e.factor) (hs : Fits false (e.wireStep n)) :
    Fits false
      ((wrapS 32 ((toU32 (e.wireStep n) % 2 ^ e.size : Nat) : Int)).tdiv e.factor + e.base) := by
  cases hsub : subtrahend e with
  | none =>
    rw [base_eq, hsub, Option.getD_none, Int.add_zero]
    exact fits_tdiv (Expr.fits_wrapS _) hpos
  | some m =>
    have hle := hd.base_le (by rw [hsub]; exact Option.some_ne_none m)
    exact decoded_sum_fits h32 hpos hb hn hle hs

/-- A float is divided by the scale, and that is all. -/
theorem sound_float_iff (hnum : isNumber e = true) (hf : e.isFloat = true) :
    Clean (stepOps s e v) ∧ Clean (unstepOps s e (wireStep s e v % 2 ^ e.size)) ↔
      Sound s e v := by
  have hstep : Clean (stepOps s e v) := by simp [stepOps, hf]
  have hunstep : ∀ u, Clean (unstepOps s e u) ↔ e.scale.toRat ≠ 0 := fun u => by
    simp [unstepOps, hnum, hf]
  rw [hunstep]
  have hno : e.isFloat = false → False := fun h => by simp [hf] at h
  exact ⟨fun h => ⟨fun _ => h.2, fun h' => (hno h').elim, fun h' => (hno h').elim,
    fun h' => (hno h').elim⟩, fun h => ⟨hstep, h.scale (Or.inl hf)⟩⟩

/-- An unsigned integer wraps, so only a divisor can be wrong. -/
theorem sound_unsigned_iff (hl : e.Leaf rnd ctx true) (hnum : isNumber e = true)
    (hf : e.isFloat = false) (hn : Fits (!e.isSigned) n) (hc : Compiles e)
    (hsg : e.isSigned = false) :
    Clean (stepOps s e (.int n)) ∧
        Clean (unstepOps s e (wireStep s e (.int n) % 2 ^ e.size)) ↔ Sound s e (.int n) := by
  have hno : e.isSigned = true → False := fun h => by simp [hsg] at h
  rw [clean_stepOps_iff hl hnum hf hn, clean_unsigned_iff hl hnum hf hsg hc]
  constructor
  · rintro ⟨-, hscale, hmis⟩
    refine ⟨?_, fun _ h _ => hmis h, fun _ h => (hno h).elim, fun _ h => (hno h).elim⟩
    rintro (h | ⟨hraw, hm, -⟩)
    · simp [hf] at h
    · exact (scale_ne_zero_iff hl hraw hc).mpr (hscale hraw hm)
  · intro h
    refine ⟨fun hu => absurd hu hno, fun hraw hm => ?_, fun hm => h.misparsed hf hm hc⟩
    exact (scale_ne_zero_iff hl hraw hc).mp (h.scale (Or.inr ⟨hraw, hm, hc⟩))

/-- A signed integer, where as in C only a negative scale asks something of the decoder. -/
theorem sound_signed_iff (hl : e.Leaf rnd ctx true) (hnum : isNumber e = true)
    (h32 : e.size ≤ 32) (hf : e.isFloat = false) (hn : Fits (!e.isSigned) n)
    (hd : Declared e n) (hc : Compiles e) (hsg : e.isSigned = true) :
    Clean (stepOps s e (.int n)) ∧
        Clean (unstepOps s e (wireStep s e (.int n) % 2 ^ e.size)) ↔ Sound s e (.int n) := by
  have hmis : isMisparsed s e = false := by simp [isMisparsed, hsg]
  rw [clean_stepOps_iff hl hnum hf hn, clean_signed_iff hl hnum hf hsg hc]
  constructor
  · rintro ⟨henc, hne, hdec⟩
    refine ⟨?_, fun _ h => by simp [hmis] at h, fun _ _ _ => forall_int?.mpr (henc hsg hc),
      fun _ _ _ _ => forall_int?.mpr hdec⟩
    rintro (h | ⟨hraw, -, -⟩)
    · simp [hf] at h
    · exact (scale_ne_zero_iff hl hraw hc).mpr hne
  · intro h
    have henc := forall_int?.mp (h.encode hf hsg hc)
    have hne : e.factor ≠ 0 := by
      cases hraw : e.rawStorage with
      | true =>
        rw [Elem.factor, if_pos hraw]
        exact one_ne_zero
      | false =>
        exact (scale_ne_zero_iff hl hraw hc).mp (h.scale (Or.inr ⟨hraw, hmis, hc⟩))
    refine ⟨fun _ _ => henc, hne, ?_⟩
    rcases Int.lt_or_lt_of_ne hne with hneg | hpos
    · exact forall_int?.mp (h.negative hf hsg hc hneg)
    · have hb := hc.2.1
      rw [hsg, Bool.not_true] at hn hb
      exact ⟨fits_tdiv (Expr.fits_wrapS _) hpos,
        decode_fits_of_pos h32 hn hb hd hpos henc.2⟩

/-- A literal that does not fit its type is refused by the compiler. -/
theorem sound_refused_iff (hl : e.Leaf rnd ctx true) (hnum : isNumber e = true)
    (hf : e.isFloat = false) (hn : Fits (!e.isSigned) n) (hc : ¬ Compiles e) :
    Clean (stepOps s e (.int n)) ∧
        Clean (unstepOps s e (wireStep s e (.int n) % 2 ^ e.size)) ↔ Sound s e (.int n) := by
  rw [clean_stepOps_iff hl hnum hf hn]
  have hunstep : ∀ u, Clean (unstepOps s e u) := fun u => by
    simp [unstepOps, hf, hc]
  refine iff_of_true ⟨fun _ h => absurd h hc, hunstep _⟩ ⟨?_, fun _ _ h => absurd h hc,
    fun _ _ h => absurd h hc, fun _ _ h => absurd h hc⟩
  rintro (h | ⟨-, -, h⟩)
  · simp [hf] at h
  · exact absurd h hc

/-- **When the arithmetic of a leaf is right in Rust.** -/
theorem sound_iff (hl : e.Leaf rnd ctx true) (hnum : isNumber e = true) (h32 : e.size ≤ 32)
    (hheld : Held e v) :
    Clean (stepOps s e v) ∧ Clean (unstepOps s e (wireStep s e v % 2 ^ e.size)) ↔ Sound s e v := by
  cases hf : e.isFloat with
  | true => exact sound_float_iff hnum hf
  | false =>
    obtain ⟨n, rfl, -, hn, hd⟩ := hheld.int hnum hf
    by_cases hc : Compiles e
    · cases hsg : e.isSigned with
      | false => exact sound_unsigned_iff hl hnum hf hn hc hsg
      | true => exact sound_signed_iff hl hnum h32 hf hn hd hc hsg
    · exact sound_refused_iff hl hnum hf hn hc

end Rust

/-! ## Whole values -/

/-- What has to hold of a part of the layout. -/
def SoundChunk (fl : C.FloatExprs) : Chunk → Prop
  | .flag _ | .pad _ => True
  | .tag size _ => size ≤ 32
  | .leaf s e v => e.isString = true ∨
    e.size ≤ 32 ∧ (isNumber e = true → C.Sound fl s e v ∧ Rust.Sound s e v)

/-- One leaf in both languages. -/
theorem cleanLeaf_iff {rnd : Rat → Rat} {ctx : Context} {fl : C.FloatExprs} {s : Bool} {e : Elem}
    {v : Value} (hl : e.Leaf rnd ctx true) (hheld : Held e v) :
    (C.trace fl).CleanChunk (.leaf s e v) ∧ Rust.trace.CleanChunk (.leaf s e v) ↔
      SoundChunk fl (.leaf s e v) := by
  unfold Trace.CleanChunk SoundChunk
  by_cases hstr : e.isString = true
  · simp [hstr]
  · simp only [hstr, Bool.false_eq_true, false_or]
    cases hnum : isNumber e with
    | false =>
      have hnone : Clean (C.stepOps s e v) ∧ (∀ u, Clean (C.unstepOps s e u)) ∧
          Clean (Rust.stepOps s e v) ∧ ∀ u, Clean (Rust.unstepOps s e u) := by
        simp [C.stepOps, C.unstepOps, Rust.stepOps, Rust.unstepOps, hnum]
      obtain ⟨h₁, h₂, h₃, h₄⟩ := hnone
      exact ⟨fun h => ⟨h.1.1, fun h' => by cases h'⟩, fun h => ⟨⟨h.1, h₁, h₂ _⟩, h.1, h₃, h₄ _⟩⟩
    | true =>
      constructor
      · rintro ⟨⟨h32, hc⟩, -, hr⟩
        exact ⟨h32, fun _ => ⟨(C.sound_iff hl hnum h32 hheld).mp hc,
          (Rust.sound_iff hl hnum h32 hheld).mp hr⟩⟩
      · rintro ⟨h32, h⟩
        obtain ⟨hc, hr⟩ := h rfl
        exact ⟨⟨h32, (C.sound_iff hl hnum h32 hheld).mpr hc⟩, h32,
          (Rust.sound_iff hl hnum h32 hheld).mpr hr⟩

/-- A call of `pack_bits` with a negative width shifts by 32. -/
theorem not_clean_negative {bits : Int} (hmin : -2147483648 ≤ bits) (h : bits < 0) :
    ¬ Clean (packOps (C.widthArg bits)) := by
  intro hclean
  have hle := clean_shifts.mp hclean
  have hbig := C.widthArg_negative hmin h
  omega

/-- **When the 32-bit arithmetic of the packed codecs is right.** Encoding a value in range and
decoding the result does no shift by 32 or more, no signed operation that overflows and no
division by zero in C and in Rust, if and only if the condition holds of every part of its
layout. With a negative width C's `pack_bits` shifts by 32 and more, whatever the value. -/
theorem arithmetic_clean_iff {rnd : Rat → Rat} {fl : C.FloatExprs} {schema : SchemaDecl}
    {data : Data} (hproc : processSchema rnd schema = .ok data)
    (hval : validateSchema rnd data = []) {name : String} {t : TypeDef}
    (ht : data.types.lookup name = some t) (hpk : t.isPacked = true) {v : Value}
    {cs : List Chunk} (hlay : layout data.types name v = some cs)
    (hheld : AllLeaves (fun _ e v => Held e v) cs) :
    (Clean ((C.trace fl).ops cs) ∧ Clean (Rust.trace.ops cs) ↔ ∀ c ∈ cs, SoundChunk fl c) ∧
      ∀ bits : Int, -2147483648 ≤ bits → bits < 0 → ¬ Clean (packOps (C.widthArg bits)) := by
  refine ⟨?_, fun _ hmin h => not_clean_negative hmin h⟩
  obtain ⟨ctx, hacc⟩ := accepted hproc hval
  have hschema := layout_leaves data.types name t ht hacc.types hpk hlay
  have hchunk : ∀ c ∈ cs,
      ((C.trace fl).CleanChunk c ∧ Rust.trace.CleanChunk c ↔ SoundChunk fl c) := by
    intro c hc
    cases c with
    | flag b => exact iff_of_true ⟨trivial, trivial⟩ trivial
    | pad size => exact iff_of_true ⟨trivial, trivial⟩ trivial
    | tag size index => exact ⟨fun h => h.1, fun h => ⟨h, h⟩⟩
    | leaf s e v => exact cleanLeaf_iff (hschema s e v hc) (hheld s e v hc)
  rw [Trace.clean_ops_iff, Trace.clean_ops_iff]
  constructor
  · rintro ⟨hC, hRust⟩ c hc
    exact (hchunk c hc).mp ⟨hC c hc, hRust c hc⟩
  · intro h
    exact ⟨fun c hc => ((hchunk c hc).mpr (h c hc)).1, fun c hc => ((hchunk c hc).mpr (h c hc)).2⟩

/-! ## Three schemas that are accepted -/

/-- A temperature, in tenths of a degree. -/
def probe : SchemaDecl where
  structs :=
    [("Probe", { fields :=
      [{ name := "temp", type := "int16", scale := some (.int 10), min := some (.int (-40)),
         max := some (.int 85) }] })]

/-- 21 degrees: 610 steps above -40. -/
theorem arithmetic_clean_iff_probe :
    ∃ cs, layout (processed probe).types "Probe" (.struct [.int 21]) = some cs ∧
      Clean ((C.trace C.noFloats).ops cs) ∧ Clean (Rust.trace.ops cs) := by
  refine ⟨_, rfl, (@arithmetic_clean_iff id C.noFloats probe (processed probe) rfl
    (by decide +kernel) "Probe" _ rfl rfl (.struct [.int 21]) _ rfl (by decide +kernel)).1.mpr ?_⟩
  intro c hc
  cases List.mem_singleton.mp hc
  refine Or.inr ⟨by decide +kernel, fun _ => ⟨⟨fun _ => by decide +kernel, ?_, ?_, ?_⟩,
    ⟨fun _ => by decide +kernel, ?_, ?_, ?_⟩⟩⟩
  · intro _ _ _ n hn
    cases hn
    exact ⟨by decide +kernel, fun _ _ => by decide +kernel⟩
  · intro hraw
    exact absurd hraw (by decide +kernel)
  · intro _ _ k hk hneg
    cases hk
    exact absurd hneg (by decide)
  · intro _ hmis
    exact absurd hmis (by decide +kernel)
  · intro _ _ _ n hn
    cases hn
    exact ⟨by decide +kernel, by decide +kernel⟩
  · intro _ _ _ hneg
    exact absurd hneg (by decide +kernel)

/-- A counter of 64 bits, an offset with almost the range of its type, and a scale of zero. -/
def limits : SchemaDecl where
  structs :=
    [("Ticks", { fields := [{ name := "ticks", type := "uint64" }] }),
      ("Trim", { fields :=
        [{ name := "offset", type := "int32", min := some (.int (-2147483647)),
           max := some (.int 2147483647) }] }),
      ("Gain", { fields := [{ name := "gain", type := "uint8", scale := some (.int 0) }] })]

/-- The schema is accepted, and each of its types goes wrong in both languages: a shift by 63,
a difference of `2 ^ 31`, and a division by zero. -/
theorem arithmetic_not_clean :
    processSchema id limits = .ok (processed limits) ∧
      validateSchema id (processed limits) = [] ∧
      (∀ x ∈ [("Ticks", 5), ("Trim", 1), ("Gain", 0)],
        ∃ cs, layout (processed limits).types x.1 (.struct [.int x.2]) = some cs ∧
          AllLeaves (fun _ e v => Held e v) cs ∧
          ¬ Clean ((C.trace C.noFloats).ops cs) ∧ ¬ Clean (Rust.trace.ops cs)) := by
  refine ⟨rfl, by decide +kernel, fun x hx => ?_⟩
  simp only [List.mem_cons, List.not_mem_nil, or_false] at hx
  rcases hx with rfl | rfl | rfl
  · exact ⟨_, rfl, by decide +kernel, by decide +kernel, by decide +kernel⟩
  · exact ⟨_, rfl, by decide +kernel, by decide +kernel, by decide +kernel⟩
  · exact ⟨_, rfl, by decide +kernel, by decide +kernel, by decide +kernel⟩

end ProtoEmb.Codec

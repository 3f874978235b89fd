import ProtoEmb.Codec.Logical
import ProtoEmb.Lib.Expr

/-!
# The 32-bit operations of the packed codecs

What the code of `protocol.c.j2` and `protocol.rs.j2` does with 32-bit numbers when they encode a
value and decode the result: the shifts of `pack_bits` and `unpack_bits`, and the operations of
the leaf expressions, with the operands they have in this run. The operations are listed leaf by
leaf, in the order of the layout.

The leaf expressions are those of `stepInt`, `unstepInt` and their Rust counterparts, as
syntax; the codecs evaluate them (`C.stepInt_eq_eval` and so on), so an operation that goes
wrong is one the codec gets stuck at (`C.step_isSome_iff`, `C.unstep_isSome_iff`).

A Rust literal that does not fit its type, and a scale with a decimal point on an integer,
do not compile: nothing is done then. In C such a scale makes the product one of doubles,
and only the difference is one of integers.
-/

namespace ProtoEmb.Codec

open ProtoEmb.Lib ProtoEmb.Schema

/-! ## Traces -/

/-- The shifts of `pack_bits`: one for every bit. -/
def packOps (bits : Nat) : List Op := (List.range bits).map .shift

/-- The shifts of `unpack_bits`: one for every bit that is set. -/
def unpackOps (bits u : Nat) : List Op := ((List.range bits).filter u.testBit).map .shift

theorem clean_unpackOps {bits : Nat} (h : bits ≤ 32) (u : Nat) : Clean (unpackOps bits u) := by
  intro o ho
  obtain ⟨i, hi, rfl⟩ := List.mem_map.mp ho
  exact clean_shifts.mpr h _ (List.mem_map.mpr ⟨i, List.mem_of_mem_filter hi, rfl⟩)

/-- What the languages differ in. -/
structure Trace where
  /-- the operations of the value argument of `pack_bits` -/
  stepOps : Bool → Elem → Value → List Op
  /-- the operations on the result of `unpack_bits` -/
  unstepOps : Bool → Elem → Nat → List Op
  /-- the value argument itself -/
  wire : Steps

namespace Trace

variable (T : Trace)

/-- A `char` array in an expression does not compile. -/
def encodeOps : Chunk → List Op
  | .flag _ => packOps 1
  | .tag size _ => packOps size
  | .pad _ => []
  | .leaf s e v => if e.isString then [] else T.stepOps s e v ++ packOps e.size

def decodeOps : Chunk → List Op
  | .flag b => unpackOps 1 (if b then 1 else 0)
  | .tag size index => unpackOps size index
  | .pad _ => []
  | .leaf s e v =>
    if e.isString then []
    else
      let u := T.wire s e v % 2 ^ e.size
      unpackOps e.size u ++ T.unstepOps s e u

/-- Encoding a value with this layout, and decoding the result. -/
def ops (cs : List Chunk) : List Op := cs.flatMap T.encodeOps ++ cs.flatMap T.decodeOps

/-- What a clean trace needs of one part. -/
def CleanChunk : Chunk → Prop
  | .flag _ | .pad _ => True
  | .tag size _ => size ≤ 32
  | .leaf s e v => e.isString = true ∨
    e.size ≤ 32 ∧ Clean (T.stepOps s e v) ∧ Clean (T.unstepOps s e (T.wire s e v % 2 ^ e.size))

variable {T}

theorem cleanChunk_iff {c : Chunk} :
    Clean (T.encodeOps c) ∧ Clean (T.decodeOps c) ↔ T.CleanChunk c := by
  cases c with
  | flag b =>
    exact iff_of_true ⟨clean_shifts.mpr (by decide), clean_unpackOps (by decide) _⟩ trivial
  | pad size => exact iff_of_true ⟨clean_nil, clean_nil⟩ trivial
  | tag size index =>
    exact ⟨fun h => clean_shifts.mp h.1, fun h => ⟨clean_shifts.mpr h, clean_unpackOps h _⟩⟩
  | leaf s e v =>
    cases hstr : e.isString with
    | true => simp [encodeOps, decodeOps, CleanChunk, hstr]
    | false =>
      simp only [encodeOps, decodeOps, CleanChunk, hstr, Bool.false_eq_true, if_false, false_or,
        clean_append, packOps, clean_shifts]
      constructor
      · rintro ⟨⟨hstep, hsize⟩, -, hunstep⟩
        exact ⟨hsize, hstep, hunstep⟩
      · rintro ⟨hsize, hstep, hunstep⟩
        exact ⟨⟨hstep, hsize⟩, clean_unpackOps hsize _, hunstep⟩

/-- **A run is clean exactly if it is clean on every part of the layout.** -/
theorem clean_ops_iff {cs : List Chunk} : Clean (T.ops cs) ↔ ∀ c ∈ cs, T.CleanChunk c := by
  rw [ops, clean_append, clean_flatMap, clean_flatMap]
  constructor
  · rintro ⟨henc, hdec⟩ c hc
    exact cleanChunk_iff.mp ⟨henc c hc, hdec c hc⟩
  · intro h
    exact ⟨fun c hc => (cleanChunk_iff.mpr (h c hc)).1, fun c hc => (cleanChunk_iff.mpr (h c hc)).2⟩

end Trace

/-- Neither a bool, nor an enum, nor a string. -/
def isNumber (e : Elem) : Bool := !(e.isBool || e.isEnum || e.isString)

/-- `val - min`, or `val`. -/
def diffExpr (min : Option Int) (n : Int) : Expr :=
  match min with
  | some m => .arith .sub (.val n) (.lit m)
  | none => .val n

/-- `x + min`, or `x`. -/
def sumExpr (min : Option Int) (x : Expr) : Expr :=
  match min with
  | some m => .arith .add x (.lit m)
  | none => x

/-! ## C -/

namespace C

/-- The type a member has in an expression. -/
def memberTy (type : String) : CTy := if isUnsigned type then .uint else .int

/-- `val - min_wire`, `(val - min) * scale` and so on. -/
def stepExpr (e : Elem) (n : Int) : Expr :=
  if e.rawStorage then diffExpr e.minWire n
  else
    match e.scale with
    | .int k => .arith .mul (diffExpr (e.packedMin.map Num.toInt) n) (.lit k)
    | .float _ => diffExpr (e.packedMin.map Num.toInt) n

/-- A `float` member makes every operation one of floats. -/
def stepOps (_scalar : Bool) (e : Elem) (v : Value) : List Op :=
  if isNumber e && !e.isFloat then
    match v with
    | .int n => (stepExpr e n).opsC (memberTy e.type)
    | _ => []
  else []

/-- The type `unpack_bits` is converted to. -/
def readTy (e : Elem) : CTy := if e.rawStorage || e.isSigned then .int else .uint

/-- The number the decoder starts from. Without bits `sign_extend` has no result. -/
def read (e : Elem) (u : Nat) : Int :=
  if e.rawStorage then wrapS 32 u
  else if e.isSigned then
    if e.min.isSome then wrapS 32 u else (signExtend u e.size).getD 0
  else u

/-- `wire + min_wire`, `wire / scale + min` and so on, with an integer scale. -/
def unstepExpr (e : Elem) (u : Nat) : Expr :=
  if e.rawStorage then sumExpr e.minWire (.val (read e u))
  else sumExpr (e.packedMin.map Num.toInt) (.div (.val (read e u)) (.lit e.scale.toInt))

/-- The decoder of a `float` is the one of an unsigned number; with a decimal point in the
scale it divides doubles. -/
def unstepOps (_scalar : Bool) (e : Elem) (u : Nat) : List Op :=
  if isNumber e then
    match e.rawStorage, e.scale with
    | false, .float q => [.div q]
    | _, _ => (unstepExpr e u).opsC (readTy e)
  else []

/-- The C codec. The wire value of a `float` is the parameter's. -/
def trace (fl : FloatExprs) : Trace where
  stepOps := stepOps
  unstepOps := unstepOps
  wire s e v := if e.isFloat then (fl.step e v).getD 0 else wireStep s e v

variable {fl : FloatExprs} {e : Elem} {n : Int}

theorem evalC_diffExpr (t : CTy) (min : Option Int) (n : Int) :
    (diffExpr min n).evalC t = match min with
      | some m => (CInt.lit m).bind fun b => CInt.op (· - ·) ⟨t, n⟩ b
      | none => some ⟨t, n⟩ := by
  cases min <;> rfl

/-- The encoder evaluates the expression. -/
theorem stepInt_eq_eval (hf : e.isFloat = false) (hfloat : e.isFloatExpr = false) :
    stepInt e n = if MemberFits e.type n
      then ((stepExpr e n).evalC (memberTy e.type)).map fun c => toU32 c.val else none := by
  unfold stepInt operand stepExpr
  split
  next hfits =>
    simp only [Option.bind_eq_bind, Option.bind_some]
    by_cases hraw : e.rawStorage = true
    · rw [if_pos hraw, if_pos hraw, evalC_diffExpr]
      cases e.minWire with
      | none => rfl
      | some m =>
        simp only [Option.map_eq_bind, Option.bind_assoc]
        rfl
    · rw [if_neg hraw, if_neg hraw]
      unfold Elem.isFloatExpr at hfloat
      cases hk : e.scale with
      | float q => simp [hf, hraw, hk] at hfloat
      | int k =>
        simp only [Expr.evalC, evalC_diffExpr, Num.toInt]
        cases e.packedMin with
        | none =>
          simp only [Option.map_none, Option.bind_eq_bind, Option.bind_some]
          simp only [Option.map_eq_bind, Option.bind_assoc]
          rfl
        | some m =>
          simp only [Option.map_some, Option.bind_eq_bind]
          simp only [Option.map_eq_bind, Option.bind_assoc]
          rfl
  next hfits => rfl

theorem evalC_sumExpr (t : CTy) (min : Option Int) (x : Expr) :
    (sumExpr min x).evalC t = match min with
      | some m => (x.evalC t).bind fun a => (CInt.lit m).bind fun b => CInt.op (· + ·) a b
      | none => x.evalC t := by
  cases min <;> rfl

/-- The decoder evaluates the expression. -/
theorem unstepInt_eq_eval (u : Nat)
    (htwos : e.rawStorage = false → e.isTwos = true → e.size ≠ 0) :
    unstepInt e u = ((unstepExpr e u).evalC (readTy e)).map fun c => assign e.type c.val := by
  unfold unstepInt unstepExpr readTy read
  cases hraw : e.rawStorage with
  | true =>
    simp only [if_true, Bool.true_or, evalC_sumExpr, Expr.evalC]
    cases e.minWire with
    | none => simp only [Option.map_some, Option.pure_def]
    | some m =>
      simp only [Option.map_eq_bind, Option.bind_assoc, Option.bind_eq_bind, Option.bind_some]
      rfl
  | false =>
    simp only [Bool.false_eq_true, if_false, Bool.false_or, evalC_sumExpr, Expr.evalC]
    cases hsg : e.isSigned with
    | true =>
      have hpm : e.packedMin = e.min := if_pos hsg
      simp only [if_true, hpm]
      cases hmin : e.min with
      | none =>
        -- only `sign_extend` of no bits is undefined
        have hs : ∃ s, signExtend u e.size = some s := by
          have h0 := htwos hraw (by simp [Elem.isTwos, hsg, hmin])
          rw [signExtend, if_neg h0]
          dsimp only
          split
          · exact ⟨_, rfl⟩
          · split
            · exact ⟨_, rfl⟩
            · exact ⟨_, rfl⟩
        obtain ⟨s, hs⟩ := hs
        simp only [hs, Option.map_none, Option.isSome_none, Bool.false_eq_true, if_false,
          Option.getD_some, Option.bind_eq_bind, Option.bind_some]
        simp only [Option.map_eq_bind, Option.bind_assoc]
        rfl
      | some m =>
        simp only [Option.map_some, Option.isSome_some, if_true, Option.bind_eq_bind,
          Option.bind_some]
        simp only [Option.map_eq_bind, Option.bind_assoc]
        rfl
    | false =>
      simp only [Bool.false_eq_true, if_false]
      cases e.packedMin with
      | none =>
        simp only [Option.map_none, Option.bind_eq_bind, Option.bind_some]
        simp only [Option.map_eq_bind, Option.bind_assoc]
        rfl
      | some m =>
        simp only [Option.map_some, Option.bind_eq_bind, Option.bind_some]
        simp only [Option.map_eq_bind, Option.bind_assoc]
        rfl

/-- **An integer leaf has a wire value exactly if its encode expression is clean**, as long
as `long` is long enough. -/
theorem step_isSome_iff (s : Bool) (hnum : isNumber e = true) (hf : e.isFloat = false)
    (hfloat : e.isFloatExpr = false) (hm : MemberFits e.type n)
    (h64 : (stepExpr e n).Fits64 (memberTy e.type)) :
    (∃ x, step fl s e (.int n) = some x) ↔ Clean (stepOps s e (.int n)) := by
  unfold step stepOps
  simp only [isNumber, Bool.not_eq_true', Bool.or_eq_false_iff] at hnum
  obtain ⟨⟨hb, he⟩, hs⟩ := hnum
  simp only [isNumber, hb, he, hs, hf, hfloat, Bool.or_self, Bool.not_false, Bool.and_self,
    Bool.false_eq_true, if_false, if_true]
  rw [stepInt_eq_eval hf hfloat, if_pos hm, ← Expr.evalC_isSome_iff h64]
  simp

/-- **A wire value is decoded exactly if the decode expression is clean.** -/
theorem unstep_isSome_iff (s : Bool) (u : Nat) (hnum : isNumber e = true)
    (hfloat : e.isFloatExpr = false)
    (htwos : e.rawStorage = false → e.isTwos = true → e.size ≠ 0)
    (h64 : (unstepExpr e u).Fits64 (readTy e)) :
    (∃ v, unstep fl s e u = some v) ↔ Clean (unstepOps s e u) := by
  have hops : unstepOps s e u = (unstepExpr e u).opsC (readTy e) := by
    rw [unstepOps, if_pos hnum]
    unfold Elem.isFloatExpr at hfloat
    split
    next q hraw hscale => simp [hraw, hscale] at hfloat
    next => rfl
  rw [hops, ← Expr.evalC_isSome_iff h64]
  unfold unstep
  simp only [isNumber, Bool.not_eq_true', Bool.or_eq_false_iff] at hnum
  obtain ⟨⟨hb, he⟩, hs⟩ := hnum
  simp only [hb, he, hs, hfloat, Bool.false_eq_true, if_false]
  rw [unstepInt_eq_eval u htwos]
  simp

end C

/-! ## Rust -/

namespace Rust

/-- The literals of the leaf's expressions are of the leaf's type. -/
def Compiles (e : Elem) : Prop :=
  (e.rawStorage = false → e.hasScale = true → e.scale = .int e.scale.toInt) ∧
    Fits (!e.isSigned) e.base ∧ Fits (!e.isSigned) e.factor

instance (e : Elem) : Decidable (Compiles e) := by
  unfold Compiles
  infer_instance

/-- `val - min_wire`, `(val - min).wrapping_mul(scale)` and so on. -/
def stepExpr (e : Elem) (n : Int) : Expr :=
  if e.rawStorage then diffExpr e.minWire n
  else if e.hasScale then
    .arith .mul (diffExpr (e.packedMin.map Num.toInt) n) (.lit e.scale.toInt)
  else diffExpr (e.packedMin.map Num.toInt) n

def stepOps (_scalar : Bool) (e : Elem) (v : Value) : List Op :=
  if isNumber e && !e.isFloat && decide (Compiles e) then
    match v with
    | .int n => (stepExpr e n).opsRust (!e.isSigned)
    | _ => []
  else []

/-- The number the decoder starts from. -/
def read (e : Elem) (u : Nat) : Int := if e.isSigned then wrapS 32 u else u

/-- `wire / scale`, or `wire`. -/
def quotExpr (e : Elem) (u : Nat) : Expr :=
  if e.hasScale then .div (.val (read e u)) (.lit e.scale.toInt) else .val (read e u)

/-- `wire + min_wire`, `wire / scale + min` and so on. The scalar expression for an unsigned
field with `min` and `scale` divides by their sum. -/
def unstepExpr (scalar : Bool) (e : Elem) (u : Nat) : Expr :=
  if e.rawStorage then sumExpr e.minWire (.val (read e u))
  else if isMisparsed scalar e then
    .div (.val (read e u)) (sumExpr (e.packedMin.map Num.toInt) (.lit e.scale.toInt))
  else sumExpr (e.packedMin.map Num.toInt) (quotExpr e u)

/-- A `float` is divided by the scale. -/
def unstepOps (scalar : Bool) (e : Elem) (u : Nat) : List Op :=
  if isNumber e then
    if e.isFloat then [.div e.scale.toRat]
    else if Compiles e then (unstepExpr scalar e u).opsRust (!e.isSigned)
    else []
  else []

/-- The Rust codec. -/
def trace : Trace where
  stepOps := stepOps
  unstepOps := unstepOps
  wire := wireStep

variable {fl : FloatExprs} {e : Elem} {n : Int}

theorem evalRust_lit (u : Bool) (n : Int) : (Expr.lit n).evalRust u = lit u n := rfl

theorem evalRust_val (u : Bool) (n : Int) : (Expr.val n).evalRust u = some n := rfl

/-- The scale of an expression that compiles. -/
theorem scaleLit_of_compiles (hc : Compiles e) (hraw : e.rawStorage = false)
    (hs : e.hasScale = true) (u : Bool) : scaleLit u e = lit u e.scale.toInt := by
  rw [scaleLit, hc.1 hraw hs]
  rfl

/-- `+` and `-`, checked on `i32` and wrapping on `u32`. -/
def addSub (u : Bool) (n : Int) : Option Int :=
  if u then some (wrapping true n) else checked false n

theorem evalRust_diffExpr (u : Bool) (min : Option Int) (n : Int) :
    (diffExpr min n).evalRust u = match min with
      | some m => (lit u m).bind fun b => addSub u (n - b)
      | none => some n := by
  cases min with
  | none => rfl
  | some m => cases u <;> rfl

theorem evalRust_mul (u : Bool) (x : Expr) (k : Int) :
    (Expr.arith .mul x (.lit k)).evalRust u
      = (x.evalRust u).bind fun a => (lit u k).bind fun b => some (wrapping u (a * b)) := by
  cases u <;> rfl

/-- The encoder evaluates the expression. -/
theorem step_eq_eval (s : Bool) (hnum : isNumber e = true) (hf : e.isFloat = false)
    (hc : Compiles e) :
    step fl s e (.int n) = if Fits (!e.isSigned) n
      then ((stepExpr e n).evalRust (!e.isSigned)).map toU32 else none := by
  simp only [isNumber, Bool.not_eq_true', Bool.or_eq_false_iff] at hnum
  obtain ⟨⟨hb, he⟩, hs⟩ := hnum
  have hstep : step fl s e (.int n)
      = if Fits (!e.isSigned) n then (if e.isSigned then stepSigned e n else stepUnsigned e n)
        else none := by
    simp only [step, hb, he, hs, hf, Bool.false_eq_true, if_false]
  rw [hstep]
  congr 1
  have hpm : e.isSigned = true → e.packedMin = e.min := fun h => if_pos h
  unfold stepSigned stepUnsigned stepExpr mulScale
  cases hraw : e.rawStorage with
  | true =>
    simp only [if_true, evalRust_diffExpr]
    cases hsg : e.isSigned <;> cases e.minWire <;>
      simp [addSub, Option.map_eq_bind, Option.bind_assoc]
  | false =>
    cases hscale : e.hasScale with
    | true =>
      simp only [if_true, Bool.false_eq_true, if_false, evalRust_mul, evalRust_diffExpr,
        scaleLit_of_compiles hc hraw hscale]
      cases hsg : e.isSigned with
      | true =>
        rw [hpm hsg]
        cases e.min <;> simp [addSub, Option.map_eq_bind, Option.bind_assoc]
      | false =>
        cases e.packedMin <;> simp [addSub, Option.map_eq_bind, Option.bind_assoc]
    | false =>
      simp only [Bool.false_eq_true, if_false, evalRust_diffExpr]
      cases hsg : e.isSigned with
      | true =>
        rw [hpm hsg]
        cases e.min <;> simp [addSub, Option.map_eq_bind, Option.bind_assoc]
      | false =>
        cases e.packedMin <;> simp [addSub, Option.map_eq_bind, Option.bind_assoc]

theorem evalRust_sumExpr (u : Bool) (min : Option Int) (x : Expr) :
    (sumExpr min x).evalRust u = match min with
      | some m => (x.evalRust u).bind fun a => (lit u m).bind fun b => addSub u (a + b)
      | none => x.evalRust u := by
  cases min with
  | none => rfl
  | some m => cases u <;> rfl

theorem evalRust_div (u : Bool) (a : Int) (y : Expr) :
    (Expr.div (.val a) y).evalRust u = (y.evalRust u).bind (div u a) := by
  simp only [Expr.evalRust, Option.bind_eq_bind, Option.bind_some]
  congr 1

/-- `wire / scale + min` on `i32`, whatever the wire value. -/
theorem evalRust_signed (hc : Compiles e) (hraw : e.rawStorage = false) (w : Int) :
    (sumExpr (e.min.map Num.toInt)
        (if e.hasScale then .div (.val w) (.lit e.scale.toInt) else .val w)).evalRust false
      = match e.min with
        | some m => do
          let q ← divScale false e w
          checked false (q + (← lit false m.toInt))
        | none => divScale false e w := by
  unfold divScale
  cases hscale : e.hasScale with
  | true =>
    simp only [if_true, evalRust_sumExpr, evalRust_div, evalRust_lit,
      scaleLit_of_compiles hc hraw hscale]
    cases e.min <;> simp [addSub, Option.bind_assoc]
  | false =>
    simp only [Bool.false_eq_true, if_false, evalRust_sumExpr, evalRust_val]
    cases e.min <;> simp [addSub]

theorem evalRust_raw (u : Bool) (min : Option Int) (w : Int) :
    (sumExpr min (.val w)).evalRust u = match min with
      | some m => (lit u m).bind fun b => addSub u (w + b)
      | none => some w := by
  rw [evalRust_sumExpr]
  cases min <;> rfl

theorem unstepSigned_eq_eval (u : Nat) (hc : Compiles e) (hsg : e.isSigned = true) (s : Bool) :
    unstepSigned e u = (unstepExpr s e u).evalRust false := by
  have hpm : e.packedMin = e.min := if_pos hsg
  have hmis : isMisparsed s e = false := by simp [isMisparsed, hsg]
  have hread : read e u = wrapS 32 u := if_pos hsg
  unfold unstepSigned unstepExpr quotExpr
  rw [hmis, hpm, hread]
  generalize wrapS 32 (u : Int) = w
  cases hraw : e.rawStorage with
  | true =>
    rw [if_pos rfl, if_pos rfl, evalRust_raw]
    -- a defeq check of the two sides would evaluate the bounds of `i32`
    cases e.minWire <;> simp only [addSub, Bool.false_eq_true, if_false, Option.bind_eq_bind]
  | false =>
    simp only [Bool.false_eq_true, if_false]
    exact (evalRust_signed hc hraw w).symm

theorem unstepUnsigned_eq_eval (u : Nat) (hc : Compiles e) (hsg : e.isSigned = false) (s : Bool) :
    unstepUnsigned s e u = (unstepExpr s e u).evalRust true := by
  have hread : read e u = u := if_neg (by simp [hsg])
  unfold unstepUnsigned unstepExpr quotExpr divScale
  rw [hread]
  generalize (u : Int) = w
  cases hraw : e.rawStorage with
  | true =>
    rw [if_pos rfl, if_pos rfl, evalRust_raw]
    cases e.minWire <;> simp [addSub]
  | false =>
    cases hscale : e.hasScale with
    | true =>
      have hlit := scaleLit_of_compiles hc hraw hscale true
      cases hp : e.packedMin with
      | none =>
        have hmis : isMisparsed s e = false := by simp [isMisparsed, hp]
        simp [hmis, evalRust_sumExpr, evalRust_div, evalRust_lit, hlit]
      | some m =>
        have hmis : isMisparsed s e = s := by simp [isMisparsed, hraw, hsg, hscale, hp]
        simp only [hmis, hlit, if_true, Bool.false_eq_true, if_false, Option.map_some]
        -- the two literals stand in the other order
        cases s with
        | true =>
          simp only [if_true, evalRust_div, evalRust_sumExpr, evalRust_lit]
          cases lit true m.toInt <;> cases lit true e.scale.toInt <;> simp [addSub]
        | false =>
          simp only [Bool.false_eq_true, if_false, evalRust_div, evalRust_sumExpr, evalRust_lit]
          cases lit true m.toInt <;> cases lit true e.scale.toInt <;> simp [addSub]
    | false =>
      have hmis : isMisparsed s e = false := by simp [isMisparsed, hscale]
      simp only [hmis, Bool.false_eq_true, if_false, evalRust_raw]
      cases e.packedMin <;> cases s <;> simp [addSub]

/-- The decoder evaluates the expression. -/
theorem unstep_eq_eval (s : Bool) (u : Nat) (hnum : isNumber e = true) (hf : e.isFloat = false)
    (hc : Compiles e) :
    unstep fl s e u = ((unstepExpr s e u).evalRust (!e.isSigned)).map .int := by
  simp only [isNumber, Bool.not_eq_true', Bool.or_eq_false_iff] at hnum
  obtain ⟨⟨hb, he⟩, hs⟩ := hnum
  unfold unstep
  simp only [hb, he, hs, hf, Bool.false_eq_true, if_false]
  cases hsg : e.isSigned with
  | true => rw [if_pos rfl, unstepSigned_eq_eval u hc hsg s, Bool.not_true]
  | false => rw [if_neg Bool.false_ne_true, unstepUnsigned_eq_eval u hc hsg s, Bool.not_false]

/-- **A leaf that compiles has a wire value if its encode expression is clean.** -/
theorem step_isSome (s : Bool) (hnum : isNumber e = true) (hf : e.isFloat = false)
    (hc : Compiles e) (hn : Fits (!e.isSigned) n)
    (hlits : (stepExpr e n).Fits32 (!e.isSigned)) (hclean : Clean (stepOps s e (.int n))) :
    ∃ x, step fl s e (.int n) = some x := by
  rw [stepOps, hnum, hf, decide_eq_true hc] at hclean
  obtain ⟨c, hc', -⟩ := Expr.evalRust_isSome hlits (by simpa using hclean)
  exact ⟨_, by rw [step_eq_eval s hnum hf hc, if_pos hn, hc']; rfl⟩

/-- **A wire value is decoded if the decode expression is clean.** -/
theorem unstep_isSome (s : Bool) (u : Nat) (hnum : isNumber e = true) (hf : e.isFloat = false)
    (hc : Compiles e) (hlits : (unstepExpr s e u).Fits32 (!e.isSigned))
    (hclean : Clean (unstepOps s e u)) : ∃ v, unstep fl s e u = some v := by
  rw [unstepOps, if_pos hnum, if_neg (by simp [hf]), if_pos hc] at hclean
  obtain ⟨c, hc', -⟩ := Expr.evalRust_isSome hlits hclean
  exact ⟨.int c, by rw [unstep_eq_eval s u hnum hf hc, hc']; rfl⟩

end Rust

end ProtoEmb.Codec

import ProtoEmb.Codec.Packed
import ProtoEmb.Codec.Step

/-!
# The packed codec in TypeScript

`packBits`, `unpackBits` and the leaf expressions of `protocol.ts.j2`. Every number is a
double: a rational here, and an operation gives the exact result rounded by `rnd`. The
bit operators convert to 32 bits and mask a shift count to five bits; a write outside a
typed array does nothing, a read there gives a zero bit. A table entry that does not
exist, and the error thrown for an unknown tag, are `none`.

`raw_storage` does not occur: the host keeps physical units.
-/

namespace ProtoEmb.Codec.TypeScript

open ProtoEmb.Lib ProtoEmb.Schema

/-- What is used of the rounding of doubles: integers up to `2 ^ 53` are exact, and
rounding keeps the sign. -/
structure RoundsDouble (rnd : Rat → Rat) : Prop where
  exact_int : ∀ n : Int, -9007199254740992 ≤ n → n ≤ 9007199254740992 → rnd n = n
  nonneg : ∀ q, 0 ≤ q → 0 ≤ rnd q

/-- Exact arithmetic, which is what doubles do on small integers. -/
theorem roundsDouble_id : RoundsDouble id := ⟨fun _ _ _ => rfl, fun _ h => h⟩

theorem RoundsDouble.fits {rnd : Rat → Rat} (hr : RoundsDouble rnd) {u : Bool} {n : Int}
    (h : Fits u n) : rnd n = n := by
  cases u with
  | false => rw [fits_signed] at h; exact hr.exact_int n (by omega) (by omega)
  | true => rw [fits_unsigned] at h; exact hr.exact_int n (by omega) (by omega)

/-! ## Helpers -/

/-- One iteration of `packBits`. -/
def packBit (off value : Nat) (buf : List UInt8) (i : Nat) : Option (List UInt8) :=
  if value.testBit (i % 32) then some (setBit buf (off + i)) else some buf

def packBits (buf : List UInt8) (off bits value : Nat) : Option (List UInt8) :=
  (List.range bits).foldlM (packBit off value) buf

/-- One iteration of `unpackBits`. -/
def unpackBit (buf : List UInt8) (off : Nat) (value i : Nat) : Option Nat :=
  if bitAt buf (off + i) then some (value ||| 2 ^ (i % 32)) else some value

def unpackBits (buf : List UInt8) (off bits : Nat) : Option Nat :=
  (List.range bits).foldlM (unpackBit buf off) 0

/-! ## Leaves -/

variable (rnd : Rat → Rat)

/-- `Math.round`: to the nearest integer, halves up. -/
def mathRound (q : Rat) : Int := ⌊q + 1 / 2⌋

/-- `Math.round((val - min) * scale)`, as the 32 bits `packBits` sees. -/
def stepNum (e : Elem) (q : Rat) : Nat :=
  let d := match e.packedMin with
    | some m => rnd (q - m.toFloat rnd)
    | none => q
  toU32 (mathRound (rnd (d * e.scale.toFloat rnd)))

/-- The value argument of `packBits`: `ts_pack_leaf`, and the same expressions inline. -/
def step (_scalar : Bool) (e : Elem) (v : Value) : Option Nat :=
  if e.isBool then
    match v with
    | .bool b => some (if b then 1 else 0)
    | _ => none
  else if e.isEnum then
    match v, e.enum with
    | .enum c, some t => if t.isRemap then some ((lastIndex t c).getD 0) else some (toU32 c)
    | _, _ => none
  else if e.isString then none
  else
    match v with
    | .num q => some (stepNum rnd e q)
    | _ => none

/-- `wire / scale + min`; the quotient is not an integer in general. -/
def unstepNum (e : Elem) (u : Nat) : Rat :=
  let q := rnd (u / e.scale.toFloat rnd)
  match e.packedMin with
  | some m => rnd (q + m.toFloat rnd)
  | none => q

/-- The leaf, from the result of `unpackBits`. -/
def unstep (_scalar : Bool) (e : Elem) (u : Nat) : Option Value :=
  if e.isBool then some (.bool (u ≠ 0))
  else if e.isEnum then
    match e.enum with
    | some t => if t.isRemap then t.variants[u]?.map fun v => .enum v.value else some (.enum u)
    | none => none
  else if e.isString then none
  else some (.num (unstepNum rnd e u))

/-- The packed codec of `protocol.ts.j2`. -/
def lang : PackLang where
  literal off := some off
  add base off := some (base + off)
  packBits := packBits
  unpackBits := unpackBits
  step := step rnd
  unstep := unstep rnd
  unknownTag _ _ := none

variable {rnd}

theorem packBits_eq {buf : List UInt8} {off bits : Nat} (x : Nat) (hbits : bits ≤ 32) :
    packBits buf off bits x = some (orBits buf off (natBits bits x)) := by
  refine packLoop_eq bits fun buf' i hi _ => ?_
  unfold packBit
  rw [Nat.mod_eq_of_lt (show i < 32 by omega)]
  split <;> rfl

theorem unpackBits_eq {buf : List UInt8} {off bits : Nat} (hbits : bits ≤ 32) :
    unpackBits buf off bits = some (ofBits (bitsAt buf off bits)) := by
  refine unpackLoop_eq bits fun v i hi => ?_
  unfold unpackBit
  rw [Nat.mod_eq_of_lt (show i < 32 by omega)]
  split <;> rfl

theorem lang_lawful : (lang rnd).Lawful where
  literal_eq off := by
    show some off = some (0 + off)
    rw [Nat.zero_add]
  add_eq _ := rfl
  packBits_eq x hbits _ _ := packBits_eq x hbits
  unpackBits_eq hbits _ _ := unpackBits_eq hbits

/-! ## Integer leaves -/

section Int

variable {e : Elem} {n : Int}

theorem mathRound_int (n : Int) : mathRound n = n := by
  unfold mathRound
  rw [Int.floor_eq_iff]
  constructor <;> linarith

/-- The step of an integer is computed exactly. -/
theorem stepNum_eq {u : Bool} (hr : RoundsDouble rnd) (h : e.Integral)
    (hraw : e.rawStorage = false) (hno : e.NoOverflow u n) :
    stepNum rnd e n = toU32 (e.wireStep n) := by
  obtain ⟨k, hk, hpos⟩ := h.scale_int
  have hfac : e.factor = k := by rw [Elem.factor, hraw, hk]; rfl
  have hwide : ∀ x : Int, Fits u x → rnd x = x := fun x hx => hr.fits hx
  have hkr : e.scale.toFloat rnd = k := by
    rw [hk]
    exact hwide k (hfac ▸ hno.factor)
  unfold stepNum
  rcases h.packedMin_cases hraw with ⟨hp, hb0⟩ | ⟨m, hp, hbm⟩
  · have hstep : e.wireStep n = n * k := by rw [Elem.wireStep, hb0, hfac, Int.sub_zero]
    have hprod : (n : Rat) * k = ((n * k : Int) : Rat) := by push_cast; rfl
    simp only [hp, hkr, hprod]
    rw [← hstep, hwide _ hno.step, mathRound_int]
  · have hstep : e.wireStep n = (n - m) * k := by rw [Elem.wireStep, hbm, hfac]
    have hm : (Num.int m).toFloat rnd = m := hwide m (hbm ▸ hno.base)
    have hdiff : (n : Rat) - m = ((n - m : Int) : Rat) := by push_cast; rfl
    have hprod : ((n - m : Int) : Rat) * k = (((n - m) * k : Int) : Rat) := by push_cast; rfl
    simp only [hp, hkr, hm, hdiff]
    rw [hwide _ (hbm ▸ hno.diff), hprod, ← hstep, hwide _ hno.step, mathRound_int]

theorem step_int {u : Bool} (s : Bool) (hr : RoundsDouble rnd) (h : e.Integral)
    (hraw : e.rawStorage = false) (hno : e.NoOverflow u n) :
    step rnd s e (.num n) = some (toU32 (e.wireStep n)) := by
  unfold step
  rw [h.not_bool, h.not_enum, h.not_string]
  exact congrArg some (stepNum_eq hr h hraw hno)

/-- A step that is not truncated is read back. -/
theorem unstepNum_eq {b : Bool} {u : Nat} (hr : RoundsDouble rnd) (h : e.Integral)
    (hraw : e.rawStorage = false) (hno : e.NoOverflow b n) (hu : (u : Int) = e.wireStep n) :
    unstepNum rnd e u = n := by
  obtain ⟨k, hk, hpos⟩ := h.scale_int
  have hfac : e.factor = k := by rw [Elem.factor, hraw, hk]; rfl
  have hwide : ∀ x : Int, Fits b x → rnd x = x := fun x hx => hr.fits hx
  have hkr : e.scale.toFloat rnd = k := by
    rw [hk]
    exact hwide k (hfac ▸ hno.factor)
  have hkne : (k : Rat) ≠ 0 := by
    have : k ≠ 0 := by omega
    exact_mod_cast this
  have hquot : (u : Rat) / k = ((n - e.base : Int) : Rat) := by
    have hcast : (u : Rat) = ((e.wireStep n : Int) : Rat) := by rw [← hu]; push_cast; rfl
    rw [hcast, Elem.wireStep, hfac]
    push_cast
    exact mul_div_cancel_right₀ _ hkne
  unfold unstepNum
  simp only [hkr, hquot, hwide _ hno.diff]
  rcases h.packedMin_cases hraw with ⟨hp, hb0⟩ | ⟨m, hp, hbm⟩
  · simp only [hp, hb0, Int.sub_zero]
  · have hm : (Num.int m).toFloat rnd = m := hwide m (hbm ▸ hno.base)
    have hsum : ((n - e.base : Int) : Rat) + m = ((n : Int) : Rat) := by
      rw [hbm]
      push_cast
      ring
    simp only [hp, hm, hsum, hwide _ hno.value]

/-- Without a `min` nothing negative is ever read. -/
theorem unstepNum_nonneg {u : Nat} (hr : RoundsDouble rnd) (h : e.Integral)
    (hp : e.packedMin = none) : 0 ≤ unstepNum rnd e u := by
  obtain ⟨k, hk, hpos⟩ := h.scale_int
  unfold unstepNum
  simp only [hp]
  apply hr.nonneg
  have hk0 : (0 : Rat) ≤ e.scale.toFloat rnd := by
    rw [hk]
    exact hr.nonneg k (by exact_mod_cast (show (0 : Int) ≤ k by omega))
  positivity

end Int

end ProtoEmb.Codec.TypeScript

import ProtoEmb.Codec.Agreement

/-!
# The packed round trip in Rust

In `protocol.rs.j2`, `T::decode(&v.encode())` of a packed type is `Some(v)` exactly if every
integer leaf of `v` is read back (`decode_encode_iff`). Three things can go wrong with one, all of
them in the decode expression; bools, enums, flags and tags always come back.

* A signed field without `min` is sent in two's complement and read without sign
  extension, so a negative number comes back as a large positive one unless the field
  has all 32 bits (`decode_encode_differs`).
* The scalar expression for an unsigned field with `min` and `scale` lacks the
  parentheses around the quotient, and divides by `scale.wrapping_add(min)`.
* A declared number of `bits` can be too small for the declared range.
-/

namespace ProtoEmb.Codec

open ProtoEmb.Lib ProtoEmb.Schema

/-- The values of an integer field: within the declared bounds, in the units the field
is stored in; without both bounds, the step has to fit the field's bits. -/
def InRange (e : Elem) (n : Int) : Prop :=
  match e.min, e.max with
  | some lo, some hi =>
    if e.rawStorage then e.minWire.getD 0 ≤ n ∧ n ≤ e.maxWire.getD 0
    else lo.toRat ≤ n ∧ n ≤ hi.toRat
  | _, _ => e.FitsBits (e.wireStep n)

instance (e : Elem) (n : Int) : Decidable (InRange e n) := by
  unfold InRange
  split
  · split <;> infer_instance
  · infer_instance

/-- The integer of an integer leaf. -/
def Value.int? : Value → Option Int
  | .int n => some n
  | _ => none

theorem int?_eq_some {v : Value} {n : Int} (h : v.int? = some n) : v = .int n := by
  cases v with
  | int m => cases h; rfl
  | _ => cases h

/-- The variant of an enum leaf. -/
def Value.enum? : Value → Option Int
  | .enum i => some i
  | _ => none

theorem enum?_eq_some {v : Value} {i : Int} (h : v.enum? = some i) : v = .enum i := by
  cases v with
  | enum j => cases h; rfl
  | _ => cases h

section Leaf

variable {rnd : Rat → Rat} {ctx : Context} {e : Elem} {n i : Int}

/-- In either encoding the least value is what the encoder subtracts. -/
theorem base_le_of_min_le (h : e.Integral) (hraw : e.rawStorage = false) {lo : Schema.Num}
    (hmin : e.min = some lo) (hle : lo.toRat ≤ n) : e.base ≤ n := by
  obtain ⟨m, rfl⟩ := h.min_int lo hmin
  have hmn : m ≤ n := by
    have hrat : (m : Rat) ≤ n := hle
    exact_mod_cast hrat
  rcases h.packedMin_cases hraw with ⟨hp, hb⟩ | ⟨b, hp, hb⟩
  · -- a `min` of zero, left out for an unsigned type
    unfold Elem.packedMin at hp
    split at hp
    · rw [hmin] at hp
      cases hp
    · rw [hmin, Option.filter_some] at hp
      have hm0 : m = 0 := by
        by_contra hne
        have hrat : (Num.int m).toRat ≠ 0 := fun h0 =>
          hne (by exact_mod_cast (show (m : Rat) = 0 from h0))
        simp [hrat] at hp
      omega
  · have hbm : b = m := by
      unfold Elem.packedMin at hp
      rw [hmin] at hp
      split at hp
      · cases hp
        rfl
      · have := (Option.filter_eq_some_iff.mp hp).1
        cases this
        rfl
    omega

/-- A step that fits its bits is in the range of what is encoded. -/
theorem stepRange_of_fits (hfit : e.FitsBits (e.wireStep n)) : Rust.StepRange e n := by
  unfold Rust.StepRange
  split
  next => exact hfit
  next ht =>
    rw [Elem.FitsBits, if_neg ht] at hfit
    exact hfit.1

/-- So is the step of a value in its declared range. -/
theorem InRange.stepRange (h : e.Integral) (hr : InRange e n) : Rust.StepRange e n := by
  unfold InRange at hr
  split at hr
  next lo hi hmin hmax =>
    have htwos : e.isTwos = false := by simp [Elem.isTwos, hmin]
    rw [Rust.StepRange, htwos, if_neg Bool.false_ne_true, Rust.wireStep_nonneg_iff h]
    split at hr
    next hraw =>
      rw [Elem.base, if_pos hraw]
      omega
    next hraw =>
      have := base_le_of_min_le h (by simpa using hraw) hmin hr.1
      omega
  next => exact stepRange_of_fits hr

/-- The index of an enum leaf is not truncated. -/
theorem EnumLeaf.step_mod (h : EnumLeaf e i) (hl : e.Leaf rnd ctx true) (hctx : ctx.EnumsLaid)
    (s : Bool) : wireStep s e (.enum i) % 2 ^ e.size = i.toNat := by
  obtain ⟨t, ht, hlaid, h0, hlt, h256, hsize⟩ := h.laid hl hctx
  rw [if_pos rfl] at hsize
  have hfits := hlaid.count_fits
  rw [hlaid.count_eq, ← hsize] at hfits
  show i.toNat % 2 ^ e.size = i.toNat
  exact Nat.mod_eq_of_lt (by omega)

/-- A bool is sent as one bit. -/
theorem bool_step_mod (hl : e.Leaf rnd ctx true) (hb : e.isBool = true) (s b : Bool) :
    wireStep s e (.bool b) % 2 ^ e.size = if b then 1 else 0 := by
  rw [hl.bool_size hb]
  cases b <;> rfl

/-- There is a stored minimum exactly if one is declared. -/
theorem minWire_none_iff (hl : e.Leaf rnd ctx true) : e.minWire = none ↔ e.min = none := by
  rw [hl.minWire_eq, Option.map_eq_none_iff]

end Leaf

namespace Rust

/-- The values of the round trip. -/
structure Sent (e : Elem) (v : Value) : Prop where
  leaf : RustLeaf e v
  in_range : ∀ n, v = .int n → 1 ≤ e.size ∧ InRange e n

/-- The condition on a leaf. -/
def LeafReadsBack (s : Bool) (e : Elem) (v : Value) : Prop := ∀ n, v = .int n → ReadsBack s e n

instance (e : Elem) (v : Value) : Decidable (Sent e v) :=
  decidable_of_iff (RustLeaf e v ∧ ∀ n ∈ v.int?, 1 ≤ e.size ∧ InRange e n)
    ⟨fun h => ⟨h.1, fun n hn => h.2 n (by rw [hn]; rfl)⟩,
      fun h => ⟨h.leaf, fun n hn => h.in_range n (int?_eq_some hn)⟩⟩

instance (s : Bool) (e : Elem) (v : Value) : Decidable (LeafReadsBack s e v) :=
  decidable_of_iff (∀ n ∈ v.int?, ReadsBack s e n)
    ⟨fun h n hn => h n (by rw [hn]; rfl), fun h n hn => h n (int?_eq_some hn)⟩

section Leaf

variable {rnd : Rat → Rat} {ctx : Context} {e : Elem} {v : Value} {fl : FloatExprs}

/-- The integers among the leaves that are sent. -/
theorem Sent.stepRange (h : Sent e v) (n : Int) (hn : v = .int n) :
    1 ≤ e.size ∧ StepRange e n := by
  obtain ⟨h1, hr⟩ := h.in_range n hn
  have hleaf := h.leaf
  subst hn
  cases hleaf with
  | int _ hint _ => exact ⟨h1, hr.stepRange hint⟩

/-- **When a leaf is read back.** -/
theorem readBack_iff (s : Bool) (hl : e.Leaf rnd ctx true) (hctx : ctx.EnumsLaid)
    (h32 : e.size ≤ 32) (h : RustLeaf e v)
    (hr : ∀ n, v = .int n → 1 ≤ e.size ∧ StepRange e n) :
    (lang fl).readBack wireStep s e v = some v ↔ LeafReadsBack s e v := by
  show unstep fl s e (wireStep s e v % 2 ^ e.size) = some v ↔ _
  cases h with
  | bool b hb =>
    rw [bool_step_mod hl hb]
    cases b <;> simp [unstep, hb, LeafReadsBack]
  | enum i hi =>
    obtain ⟨t, ht, hlaid, h0, hlt, h256, _⟩ := hi.laid hl hctx
    have hback : fromWire t i.toNat = some i := by
      have hcount := hlaid.count_eq
      have hmod : i.toNat % 256 = i.toNat := Nat.mod_eq_of_lt (by omega)
      rw [fromWire, if_pos (by omega), hmod, if_pos (by omega), Int.toNat_of_nonneg h0]
    rw [hi.step_mod hl hctx]
    simp [unstep, hi.not_bool, hi.is_enum, ht, hback, LeafReadsBack]
  | int n hint hno =>
    obtain ⟨h1, hrange⟩ := hr n rfl
    rw [wireStep, unstep_int_iff s hint hl.hasScale_iff (minWire_none_iff hl) hno h1 h32 hrange]
    constructor
    · rintro hrb m hm
      cases hm
      exact hrb
    · exact fun hrb => hrb n rfl

end Leaf

/-- `T::decode` on encoded bytes replaces every leaf by what is read back. -/
theorem decode_wireBytes_iff {rnd : Rat → Rat} {ctx : Context} {fl : FloatExprs} {scope : Scope}
    {name : String} {t : TypeDef} {v w : Value} {cs : List Chunk} {step : Steps}
    (hacc : scope.Accepted rnd ctx) (ht : scope.lookup name = some t) (hpk : t.isPacked = true)
    (hlay : layout scope name v = some cs) (hnarrow : ∀ c ∈ cs, c.Narrow)
    (hbits : t.total < 4294967296) :
    decode fl scope name (wireBytes t (image step cs)) = some (some w) ↔
      mapLeaves ((lang fl).readBack step) scope name v = some w := by
  have hlen : (wireBytes t (image step cs)).length = t.wireSize := by
    rw [wireBytes, orBits_length, List.length_replicate]
  rw [decode, ht, Option.bind_eq_bind, Option.bind_some, hlen, if_neg (Nat.lt_irrefl _),
    decode_eq lang_lawful hacc ht hpk hlay hnarrow hbits]
  cases mapLeaves ((lang fl).readBack step) scope name v <;> simp

/-- **The Rust round trip returns the value exactly if every integer leaf is read back.** -/
theorem decode_encode_iff {rnd : Rat → Rat} {fl : FloatExprs} {schema : SchemaDecl} {data : Data}
    (hproc : processSchema rnd schema = .ok data) (hval : validateSchema rnd data = [])
    {name : String} {t : TypeDef} (ht : data.types.lookup name = some t)
    (hpk : t.isPacked = true) (hbits : t.total < 4294967296) {v : Value} {cs : List Chunk}
    (hlay : layout data.types name v = some cs) (hnarrow : ∀ c ∈ cs, c.Narrow)
    (hleaves : AllLeaves (fun _ e v => Sent e v) cs) :
    (∃ bytes, (lang fl).encode data.types name v = some bytes ∧
        decode fl data.types name bytes = some (some v)) ↔ AllLeaves LeafReadsBack cs := by
  obtain ⟨ctx, hacc⟩ := accepted hproc hval
  have hschema := layout_leaves data.types name t ht hacc.types hpk hlay
  have hpacks : (lang fl).Packs wireStep cs :=
    ⟨hnarrow, fun s e v hl => rust_step s (hschema s e v hl) (hleaves s e v hl).leaf⟩
  have henc := encode_eq lang_lawful hacc.types ht hpk hlay hpacks hbits
  have hleaf : ∀ s e x, .leaf s e x ∈ cs →
      ((lang fl).readBack wireStep s e x = some x ↔ LeafReadsBack s e x) := fun s e x hl =>
    readBack_iff s (hschema s e x hl) hacc.enums (hnarrow _ hl) (hleaves s e x hl).leaf
      (hleaves s e x hl).stepRange
  calc (∃ bytes, (lang fl).encode data.types name v = some bytes ∧
        decode fl data.types name bytes = some (some v))
      ↔ decode fl data.types name (wireBytes t (image wireStep cs)) = some (some v) := by
        rw [henc]
        simp
    _ ↔ AllLeaves (fun s e x => (lang fl).readBack wireStep s e x = some x) cs := by
        rw [decode_wireBytes_iff hacc.types ht hpk hlay hnarrow hbits, mapLeaves_eq_self_iff hlay]
    _ ↔ AllLeaves LeafReadsBack cs :=
        ⟨fun h s e x hl => (hleaf s e x hl).mp (h s e x hl),
          fun h s e x hl => (hleaf s e x hl).mpr (h s e x hl)⟩

section Examples

/-- Every leaf of the packet comes back. -/
theorem decode_encode_iff_packet :
    ∃ bytes, (lang noFloats).encode thermostatData.types "SensorPacket" packet = some bytes ∧
      decode noFloats thermostatData.types "SensorPacket" bytes = some (some packet) :=
  (@decode_encode_iff id noFloats thermostat thermostatData thermostat_ok thermostat_valid
    "SensorPacket" _ rfl rfl (by decide +kernel) packet _ rfl (by decide +kernel)
    (by decide +kernel)).mpr (by decide +kernel)

/-- A signed field without bounds and an unsigned one with `min` and `scale`. -/
def gauge : SchemaDecl where
  structs :=
    [("Trim", { fields := [{ name := "delta", type := "int8" }] }),
      ("Level", { fields :=
        [{ name := "level", type := "uint16", scale := some (.int 10), min := some (.int 10),
            max := some (.int 100) }] })]

def gaugeData : Data := processed gauge

theorem gauge_ok : processSchema id gauge = .ok gaugeData := rfl

theorem gauge_valid : validateSchema id gaugeData = [] := by decide +kernel

/-- A trim of -1 is read as 255, and a level of 30 as `200 / (10 + 10)`. -/
theorem decode_encode_differs :
    processSchema id gauge = .ok gaugeData ∧ validateSchema id gaugeData = [] ∧
      (lang noFloats).encode gaugeData.types "Trim" (.struct [.int (-1)]) = some [255] ∧
      decode noFloats gaugeData.types "Trim" [255] = some (some (.struct [.int 255])) ∧
      (lang noFloats).encode gaugeData.types "Level" (.struct [.int 30]) = some [200, 0] ∧
      decode noFloats gaugeData.types "Level" [200, 0] = some (some (.struct [.int 10])) :=
  ⟨gauge_ok, gauge_valid, by decide +kernel, rfl, by decide +kernel, rfl⟩

end Examples

end Rust

end ProtoEmb.Codec

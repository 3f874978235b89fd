import ProtoEmb.Codec.Agreement

/-!
# The C encoder and the documented layout

`docs/wire-format.md` describes a packed payload as a bit string: every field in
declaration order, each leaf as its wire step in as many bits as it has. The generated C
encoder produces the bytes of exactly this string, with zeros up to the byte boundary
(`encode_documented`), as long as the type has less than `2 ^ 32` bits and no leaf
expression is undefined in C. Neither condition can be dropped
(`encode_not_documented`).

The step of an integer is the exact `(v - min) * scale`. C computes it in 32 or 64 bits,
signed or not; whenever that is defined, it is right modulo `2 ^ 32`, and no leaf has
more than 32 bits. The step of an enum is the index of its variant; for the constants of a
remap enum that are distinct bytes, which of its two tables C has makes no difference.
-/

namespace ProtoEmb.Codec.C

open ProtoEmb.Lib ProtoEmb.Schema

/-- The wire value of a constant of a remap enum: the declaration index of its variant. For
values that are no distinct bytes the index is not determined, and C's table is taken as it
is. -/
def docIndex (t : Enum) (c : Int) : Nat :=
  if Distinct t ∧ ∃ v ∈ t.variants, v.value = c then declaredIndex t c
  else (valueToWire t c).getD 0

/-- **The documented wire step**, of a value in C's terms. Floating-point arithmetic is taken as
it is. -/
def docStep (fl : FloatExprs) : Steps := fun _ e v =>
  if e.isBool then
    match v with
    | .bool true => 1
    | _ => 0
  else if e.isEnum then
    match v, e.enum with
    | .enum c, some t => if t.isRemap then docIndex t c else toU32 c
    | _, _ => 0
  else if e.isFloatExpr then (fl.step e v).getD 0
  else
    match v with
    | .int n => toU32 (e.wireStep n)
    | _ => 0

/-- Either table of C has the documented index. -/
theorem valueToWire_docIndex {t : Enum} {c : Int} {x : Nat} (hl : t.Laid) (hr : t.isRemap = true)
    (h : valueToWire t c = some x) : x = docIndex t c := by
  unfold docIndex
  split
  next hd =>
    obtain ⟨hdistinct, v, hv, rfl⟩ := hd
    have heq := valueToWire_eq hl hr hdistinct (hdistinct.byte v hv).1 ⟨v, hv, le_refl _⟩
    exact Option.some.inj (h.symm.trans heq)
  next => rw [h, Option.getD_some]

/-- A leaf expression that is defined has the documented value. -/
theorem step_docStep {rnd : Rat → Rat} {ctx : Context} {fl : FloatExprs} {s : Bool} {e : Elem}
    {v : Value} {x : Nat} (hl : e.Leaf rnd ctx true) (hctx : ctx.EnumsLaid)
    (h : step fl s e v = some x) : x = docStep fl s e v := by
  unfold step at h
  unfold docStep
  split at h
  next hb =>
    rw [if_pos hb]
    cases v with
    | bool b => cases b <;> cases h <;> rfl
    | _ => cases h
  next hb =>
    rw [if_neg hb]
    split at h
    next he =>
      rw [if_pos he]
      cases v with
      | enum c =>
        cases htab : e.enum with
        | some t =>
          simp only [htab] at h
          show x = if t.isRemap then docIndex t c else toU32 c
          split at h
          next hr =>
            obtain ⟨t', ht', hlaid, -⟩ := hl.packedEnum_eq hctx he (by simpa using hb)
            cases htab.symm.trans ht'
            rw [if_pos hr]
            exact valueToWire_docIndex hlaid hr h
          next hr => rw [if_neg hr]; exact (Option.some.inj h).symm
        | none =>
          rw [htab] at h
          cases h
      | _ => cases h
    next he =>
      rw [if_neg he]
      split at h
      next => cases h
      next =>
        split at h
        next hf => rw [if_pos hf, h, Option.getD_some]
        next hf =>
          rw [if_neg hf]
          cases v with
          | int n => exact stepInt_val h
          | _ => cases h

/-- **The C encoder produces the documented bit string**, padded with zeros to whole
bytes. A write outside the buffer is undefined, so there is none. -/
theorem encode_documented {rnd : Rat → Rat} {fl : FloatExprs} {schema : SchemaDecl} {data : Data}
    (hproc : processSchema rnd schema = .ok data) (hval : validateSchema rnd data = [])
    {name : String} {t : TypeDef} (ht : data.types.lookup name = some t)
    (hpk : t.isPacked = true) (hbits : t.total < 4294967296) {v : Value} {cs : List Chunk}
    (hlay : layout data.types name v = some cs) (hnarrow : ∀ c ∈ cs, c.Narrow)
    (hdef : AllLeaves (fun s e v => (step fl s e v).isSome = true) cs) :
    ∃ bytes, (lang fl).encode data.types name v = some bytes ∧
      bytes.length = (t.total + 7) / 8 ∧ (image (docStep fl) cs).length = t.total ∧
      bitsAt bytes 0 (8 * bytes.length)
        = image (docStep fl) cs ++ List.replicate (8 * bytes.length - t.total) false := by
  obtain ⟨ctx, hacc⟩ := accepted hproc hval
  have hschema := layout_leaves data.types name t ht hacc.types hpk hlay
  have hpacks : (lang fl).Packs (docStep fl) cs := by
    refine ⟨hnarrow, fun s e v hl => ?_⟩
    obtain ⟨x, hx⟩ := Option.isSome_iff_exists.mp (hdef s e v hl)
    exact hx.trans (congrArg some (step_docStep (hschema s e v hl) hacc.enums hx))
  have hwire := packed_wireSize hacc.types ht hpk
  have htotal : (image (docStep fl) cs).length = t.total := by
    rw [image_length]
    exact layout_size data.types name t ht hacc.types hlay
  have hlen : (wireBytes t (image (docStep fl) cs)).length = t.wireSize := by
    rw [wireBytes, orBits_length, List.length_replicate]
  refine ⟨_, encode_eq lang_lawful hacc.types ht hpk hlay hpacks hbits, by rw [hlen, hwire],
    htotal, ?_⟩
  rw [hlen, bitsAt_wireBytes (by omega), htotal]

/-- The fan of a channel on `AUTO`, the third variant of the union: semantic value 9, index 3. -/
theorem encode_documented_datum :
    ∃ bytes, (lang noFloats).encode thermostatData.types "Datum"
        (.struct [.int 3, .union 2 (.enum 9)]) = some bytes ∧
      bitsAt bytes 0 (8 * bytes.length) = natBits 4 3 ++ natBits 2 2 ++ natBits 2 3
        ++ List.replicate 9 false ++ List.replicate 7 false := by
  obtain ⟨bytes, henc, hlen, _, hbits⟩ := @encode_documented id noFloats thermostat thermostatData
    thermostat_ok thermostat_valid "Datum" _ rfl rfl (by decide +kernel)
    (.struct [.int 3, .union 2 (.enum 9)]) _ rfl (by decide +kernel) (by decide +kernel)
  refine ⟨bytes, henc, ?_⟩
  rw [hbits, hlen]
  decide +kernel

/-! ## Where the encoder departs from the layout -/

/-- One signed field with a lower bound. -/
def offset : SchemaDecl where
  structs :=
    [("Offset", { fields :=
      [{ name := "x", type := "int32", min := some (.int 1), max := some (.int 100) }] })]

def offsetData : Data := processed offset

/-- The layout of one slot. -/
def slotChunks (used : Bool) : List Chunk :=
  [.flag false, .pad 1073741822, .leaf true usedElem (.bool used)]

theorem wide_layout : layout wideData.types "Table" wideValue
    = some (slotChunks false ++ (slotChunks false ++ (slotChunks false ++
        (slotChunks false ++ (slotChunks true ++ []))))) := rfl

/-- The flag of an unused slot at the front is 0. -/
theorem image_slot (step : Steps) (b : Bool) (n : Nat) (cs : List Chunk) (zeros : List Bool)
    (h : step true usedElem (.bool b) = 0) :
    (image step ([.flag false, .pad n, .leaf true usedElem (.bool b)] ++ cs) ++ zeros)[n + 1]?
      = some false := by
  have hbit : Chunk.bits step (.leaf true usedElem (.bool b)) = [false] := by
    show natBits 1 (step true usedElem (.bool b)) = [false]
    rw [h]
    rfl
  simp [Chunk.bits] at hbit ⊢
  simp [hbit]

/-- Above `2 ^ 32` bits C sets the flag of the wrong slot, and a difference below
`INT_MIN` is undefined: no bytes at all are promised. -/
theorem encode_not_documented :
    (processSchema id wide = .ok wideData ∧ validateSchema id wideData = [] ∧
      ∃ bytes cs, (lang noFloats).encode wideData.types "Table" wideValue = some bytes ∧
        layout wideData.types "Table" wideValue = some cs ∧ (∀ c ∈ cs, c.Narrow) ∧
        ∀ zeros, bitsAt bytes 0 (8 * bytes.length) ≠ image (docStep noFloats) cs ++ zeros) ∧
    (processSchema id offset = .ok offsetData ∧ validateSchema id offsetData = [] ∧
      (lang noFloats).encode offsetData.types "Offset" (.struct [.int (-2147483648)]) = none) := by
  refine ⟨⟨wide_ok, wide_valid, ?_⟩, rfl, by decide +kernel, by decide +kernel⟩
  obtain ⟨buf, hlen, hzero, henc⟩ := wide_encode_c noFloats
  refine ⟨_, _, henc, wide_layout, by decide +kernel, fun zeros heq => ?_⟩
  have hbit : (bitsAt (setBit buf 1073741823) 0 (8 * (setBit buf 1073741823).length))[1073741823]?
      = some true := by
    rw [bitsAt, List.getElem?_map, setBit_length, hlen, List.getElem?_range (by omega),
      Option.map_some, Nat.zero_add, bitAt_setBit (by omega), beq_self_eq_true, Bool.or_true]
  rw [heq] at hbit
  have hfalse := image_slot (docStep noFloats) false 1073741822
    (slotChunks false ++ (slotChunks false ++ (slotChunks false ++ (slotChunks true ++ []))))
    zeros rfl
  exact absurd (hbit.symm.trans hfalse) (by decide)

end ProtoEmb.Codec.C

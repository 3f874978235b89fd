import ProtoEmb.Codec.Agreement

/-!
# Which remap enums survive the wire

The tables that `generate.py` makes for a remap enum against each other, for whatever values the
schema gives it: `validate_schema` looks at the number of variants and not at their values. A
variant survives when every language sends its declaration index, and C finds its
value again under that index.

All variants survive exactly if the values are distinct and each fits the `uint8_t`
of the tables (`remap_survives_iff`). A value of 256 or more is cut by the table in C
and kept by the one in TypeScript; of two variants with one value, one is lost.
-/

namespace ProtoEmb.Codec

open ProtoEmb.Lib ProtoEmb.Schema

/-- The variant with this index goes out as its index and comes back as its value. -/
structure Survives (e : Enum) (i : Nat) (v : EnumVariant) : Prop where
  /-- C: `VALUE_TO_WIRE[x]` or `valueToWire(x)`, and `WIRE_TO_VALUE` of that -/
  c : ∃ u, valueToWire e v.value = some u ∧ wireToValue e u = some v.value
  /-- the index C sends -/
  index : valueToWire e v.value = some i
  /-- `to_wire` -/
  rust : Rust.toWire e i = some i
  /-- `VALUE_TO_WIRE[x]` of TypeScript -/
  ts : lastIndex e v.value = some i

variable {rnd : Rat → Rat} {schema : SchemaDecl} {data : Data} {name : String} {e : Enum}

/-- Every enum of a processed schema has its tables. -/
theorem enum_laid (hproc : processSchema rnd schema = .ok data) (he : (name, e) ∈ data.enums) :
    e.Laid := by
  obtain ⟨order, h⟩ := processSchema_ok hproc
  obtain ⟨decl, -, hdecl⟩ := (mapM_ok h.enums).2 _ he
  rw [bind_eq_ok] at hdecl
  obtain ⟨enum, henum, hdecl⟩ := hdecl
  rw [pure_eq_ok] at hdecl
  cases hdecl
  exact (processEnum_laid henum).1

/-- Distinct bytes survive, whichever tables they get. -/
theorem Distinct.survives (h : Distinct e) (hl : e.Laid) (hr : e.isRemap = true) {i : Nat}
    (hi : i < e.variants.length) : Survives e i e.variants[i] := by
  have hindex := valueToWire_value hl hr h hi
  have h256 := h.length_le
  have hcount := hl.count_eq
  refine ⟨⟨i, hindex, wireToValue_index h hi⟩, hindex, ?_, lastIndex_value hl h hi⟩
  rw [Rust.toWire, if_pos (by omega)]
  rfl

/-- A value that comes back from the table is a byte. -/
theorem Survives.byte {i : Nat} {v : EnumVariant} (h : Survives e i v) :
    0 ≤ v.value ∧ v.value ≤ 255 := by
  obtain ⟨u, -, hu⟩ := h.c
  obtain ⟨w, -, hw⟩ := Option.map_eq_some_iff.mp hu
  have hrange : 0 ≤ wrapU 8 w.value ∧ wrapU 8 w.value < 256 := by
    unfold wrapU
    omega
  rw [hw] at hrange
  omega

/-- Variants that survive have different values: each value is sent as one index. -/
theorem distinct_of_survives
    (h : ∀ i, (hi : i < e.variants.length) → Survives e i e.variants[i]) : Distinct e := by
  constructor
  · rw [List.nodup_iff_pairwise_ne, List.pairwise_map, List.pairwise_iff_getElem]
    intro i j hi hj hij heq
    have hsame := (h i hi).ts
    rw [heq, (h j hj).ts] at hsame
    have := Option.some.inj hsame
    omega
  · intro v hv
    obtain ⟨i, hi, rfl⟩ := List.getElem_of_mem hv
    exact (h i hi).byte

/-- **When a remap enum survives the wire.** Every declared variant of a remap enum of
a processed schema, validated or not, keeps its value through the C tables and its
declaration index in all three languages exactly if the declared values are distinct
and lie in 0..255. -/
theorem remap_survives_iff (hproc : processSchema rnd schema = .ok data)
    (he : (name, e) ∈ data.enums) (hr : e.isRemap = true) :
    (∀ i, (hi : i < e.variants.length) → Survives e i e.variants[i]) ↔
      (e.variants.map EnumVariant.value).Nodup ∧
        ∀ v ∈ e.variants, 0 ≤ v.value ∧ v.value ≤ 255 := by
  constructor
  · intro h
    have hd := distinct_of_survives h
    exact ⟨hd.nodup, hd.byte⟩
  · intro h i hi
    exact (Distinct.mk h.1 h.2).survives (enum_laid hproc he) hr hi

/-- A sparse enum, and one with a value beyond a byte. -/
def commands : SchemaDecl where
  enums :=
    [("GCode", { remap := true, variants := [.valued "HOME" 28, .valued "MOVE" 1,
        .valued "STATUS" 122] }),
      ("Fault", { remap := true, variants := [.valued "NONE" 0, .valued "STALL" 300] })]

theorem remap_survives_gcode :
    ∃ e, ("GCode", e) ∈ (processed commands).enums ∧ e.remapStyle = .search ∧
      ∀ i, (hi : i < e.variants.length) → Survives e i e.variants[i] :=
  ⟨_, List.mem_cons_self .., by decide +kernel,
    (@remap_survives_iff id commands (processed commands) "GCode" _ rfl
      (List.mem_cons_self ..) rfl).mpr (by decide +kernel)⟩

/-- The schema is accepted, and in C the stall comes back as 44. -/
theorem remap_loses_stall :
    processSchema id commands = .ok (processed commands) ∧
      validateSchema id (processed commands) = [] ∧
      ∃ e v, ("Fault", e) ∈ (processed commands).enums ∧ e.isRemap = true ∧
        e.variants[1]? = some v ∧ v.value = 300 ∧ lastIndex e 300 = some 1 ∧
        wireToValue e 1 = some 44 ∧ ¬ Survives e 1 v := by
  refine ⟨rfl, by decide +kernel, _, _, List.mem_cons_of_mem _ (List.mem_cons_self ..), rfl, rfl,
    rfl, by decide +kernel, by decide +kernel, ?_⟩
  intro h
  exact absurd h.byte (by decide +kernel)

end ProtoEmb.Codec

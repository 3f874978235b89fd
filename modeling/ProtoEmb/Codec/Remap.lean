import Mathlib.Data.Int.Interval
import ProtoEmb.Codec.Value
import ProtoEmb.Lib.LowerBound
import ProtoEmb.Lib.MachineInt

/-!
# Remap enums

A remap enum has sparse semantic values; the wire carries the variant's index. `protocol.h.j2` has a
table from index to value, and from value to index either a dense table or a sorted one
with binary search; TypeScript has an object literal; in Rust the index is the
discriminant. All table entries are bytes in C.

For distinct values in 0..255 both tables of C give the same index for every value up to
the largest (`valueToWire_eq`), and every language takes a variant's value to its index and
back (`valueToWire_value`, `wireToValue_index`).
-/

namespace ProtoEmb.Codec

open ProtoEmb.Lib ProtoEmb.Schema

/-! ## The tables -/

/-- The index of the last variant with the value: a later initializer wins. -/
def lastIndex (e : Enum) (c : Int) : Option Nat :=
  (e.variants.filter fun v => v.value = c).getLast?.map EnumVariant.index

/-- C `*_VALUE_TO_WIRE[c]`, a dense array of `max_value + 1` bytes. -/
def denseValueToWire (e : Enum) (c : Int) : Option Nat :=
  if 0 ≤ c ∧ c ≤ e.maxValue then some ((lastIndex e c).getD 0 % 256) else none

/-- C `*_VALUE_WIRE_SORTED`. -/
def sortedTable (e : Enum) : List (Nat × Nat) :=
  e.sortedVariants.map fun v => ((wrapU 8 v.value).toNat, v.index % 256)

/-- C `*_valueToWire(value)`. -/
def searchValueToWire (e : Enum) (value : Nat) : Option Nat := do
  let keys := (sortedTable e).map Prod.fst
  let lo ← lowerBound keys value e.count 0 e.count
  match (sortedTable e)[lo]? with
  | some (key, wire) => return if key = value then wire else 0
  | none => return 0

/-- The wire index of a constant of a remap enum in C. -/
def valueToWire (e : Enum) (c : Int) : Option Nat :=
  match e.remapStyle with
  | .array => denseValueToWire e c
  | .search => searchValueToWire e (wrapU 8 c).toNat

/-- The declaration index of the variant with the value, and 0 if there is none. -/
def declaredIndex (e : Enum) (c : Int) : Nat :=
  (e.variants.findIdx? fun v => v.value = c).getD 0

/-- C `*_WIRE_TO_VALUE[u]`, an array of `count` bytes. -/
def wireToValue (e : Enum) (u : Nat) : Option Int := e.variants[u]?.map fun v => wrapU 8 v.value

/-! ## Distinct values -/

/-- The values of a remap enum are distinct bytes. -/
structure Distinct (e : Enum) : Prop where
  nodup : (e.variants.map EnumVariant.value).Nodup
  byte : ∀ v ∈ e.variants, 0 ≤ v.value ∧ v.value ≤ 255

instance (e : Enum) : Decidable (Distinct e) :=
  decidable_of_iff ((e.variants.map EnumVariant.value).Nodup ∧
      ∀ v ∈ e.variants, 0 ≤ v.value ∧ v.value ≤ 255)
    ⟨fun h => ⟨h.1, h.2⟩, fun h => ⟨h.nodup, h.byte⟩⟩

section Distinct

variable {e : Enum}

theorem Distinct.length_le (h : Distinct e) : e.variants.length ≤ 256 := by
  have hsub : (e.variants.map EnumVariant.value).toFinset ⊆ Finset.Icc (0 : Int) 255 := by
    intro c hc
    obtain ⟨v, hv, rfl⟩ := List.mem_map.mp (List.mem_toFinset.mp hc)
    exact Finset.mem_Icc.mpr (h.byte v hv)
  have hcard := Finset.card_le_card hsub
  rw [List.toFinset_card_of_nodup h.nodup, List.length_map] at hcard
  simpa using hcard

/-- A variant is determined by its value. -/
theorem Distinct.inj (h : Distinct e) {v w : EnumVariant} (hv : v ∈ e.variants)
    (hw : w ∈ e.variants) (heq : v.value = w.value) : v = w :=
  List.inj_on_of_nodup_map h.nodup hv hw heq

/-- A value is that of a variant, or of none. -/
theorem variant_or_absent (e : Enum) (c : Int) :
    (∃ (i : Nat) (hi : i < e.variants.length), (e.variants[i]).value = c) ∨
      ∀ v ∈ e.variants, v.value ≠ c := by
  by_cases hex : ∃ v ∈ e.variants, v.value = c
  · obtain ⟨v, hv, hval⟩ := hex
    obtain ⟨i, hi, rfl⟩ := List.getElem_of_mem hv
    exact Or.inl ⟨i, hi, hval⟩
  · exact Or.inr fun v hv hval => hex ⟨v, hv, hval⟩

theorem declaredIndex_absent {c : Int} (habs : ∀ v ∈ e.variants, v.value ≠ c) :
    declaredIndex e c = 0 := by
  have hnone : (e.variants.findIdx? fun v => v.value = c) = none :=
    List.findIdx?_eq_none_iff.mpr fun v hv => decide_eq_false (habs v hv)
  rw [declaredIndex, hnone, Option.getD_none]

variable {i : Nat}

theorem declaredIndex_value (h : Distinct e) (hi : i < e.variants.length) :
    declaredIndex e (e.variants[i]).value = i := by
  have hfind : (e.variants.findIdx? fun v => v.value = (e.variants[i]).value) = some i := by
    refine List.findIdx?_eq_some_iff_getElem.mpr ⟨hi, decide_eq_true rfl, fun j hj => ?_⟩
    have hne := List.pairwise_iff_getElem.mp (List.pairwise_map.mp h.nodup) j i (by omega) hi hj
    simpa using hne
  rw [declaredIndex, hfind, Option.getD_some]

theorem lastIndex_value (hl : e.Laid) (h : Distinct e) (hi : i < e.variants.length) :
    lastIndex e (e.variants[i]).value = some i := by
  have hmem : e.variants[i] ∈ e.variants := List.getElem_mem hi
  unfold lastIndex
  have hne : (e.variants.filter fun v => v.value = (e.variants[i]).value) ≠ [] := by
    intro hnil
    have hin : e.variants[i] ∈ e.variants.filter fun v => v.value = (e.variants[i]).value :=
      List.mem_filter.mpr ⟨hmem, by simp⟩
    rw [hnil] at hin
    exact absurd hin List.not_mem_nil
  have hlast := List.getLast_mem hne
  obtain ⟨hin, heq⟩ := List.mem_filter.mp hlast
  have hsame := h.inj hin hmem (of_decide_eq_true heq)
  rw [List.getLast?_eq_some_getLast hne, Option.map_some, hsame, hl.index_eq i hi]

theorem wrapU_byte {c : Int} (h : 0 ≤ c ∧ c ≤ 255) : wrapU 8 c = c := by
  unfold wrapU
  omega

/-- The sorted table has ascending keys. -/
theorem sortedTable_pairwise (hl : e.Laid) (hr : e.isRemap = true) (h : Distinct e) :
    ((sortedTable e).map Prod.fst).Pairwise (· ≤ ·) := by
  have hsorted : e.sortedVariants.Pairwise fun a b => a.value ≤ b.value := by
    rw [hl.sorted hr]
    exact List.pairwise_insertionSort _ _
  have hmem : ∀ v ∈ e.sortedVariants, 0 ≤ v.value ∧ v.value ≤ 255 := by
    intro v hv
    rw [hl.sorted hr] at hv
    exact h.byte v ((List.mem_insertionSort _).mp hv)
  rw [sortedTable, List.map_map, List.pairwise_map]
  refine hsorted.imp_of_mem fun {a b} ha hb hab => ?_
  show (wrapU 8 a.value).toNat ≤ (wrapU 8 b.value).toNat
  rw [wrapU_byte (hmem a ha), wrapU_byte (hmem b hb)]
  omega

theorem sortedVariants_perm (hl : e.Laid) (hr : e.isRemap = true) :
    e.sortedVariants.Perm e.variants := by
  rw [hl.sorted hr]
  exact List.perm_insertionSort _ _

theorem sortedTable_length (hl : e.Laid) (hr : e.isRemap = true) :
    (sortedTable e).length = e.count := by
  rw [sortedTable, List.length_map, (sortedVariants_perm hl hr).length_eq, hl.count_eq]

/-- The search comes to an end at the lower bound of any byte. -/
theorem lowerBound_sortedTable (hl : e.Laid) (hr : e.isRemap = true) (h : Distinct e) {fuel : Nat}
    (hfuel : e.count < 2 ^ fuel) (x : Nat) :
    ∃ r, lowerBound ((sortedTable e).map Prod.fst) x fuel 0 e.count = some r ∧
      IsLowerBound ((sortedTable e).map Prod.fst) x r := by
  have hlen : ((sortedTable e).map Prod.fst).length = e.count := by
    rw [List.length_map, sortedTable_length hl hr]
  exact lowerBound_spec (sortedTable_pairwise hl hr h) (by omega) (by omega) (by omega)
    (fun k _ hk => absurd hk (Nat.not_lt_zero k)) (fun k hk hk' => by omega)

/-- The entries of the sorted table are the variants. -/
theorem sortedTable_entry (hl : e.Laid) (hr : e.isRemap = true) (h : Distinct e) {r key wire : Nat}
    (hget : (sortedTable e)[r]? = some (key, wire)) :
    ∃ (i : Nat) (hi : i < e.variants.length), (e.variants[i]).value = key ∧ wire = i := by
  rw [sortedTable, List.getElem?_map, Option.map_eq_some_iff] at hget
  obtain ⟨v, hv, heq⟩ := hget
  have hmem : v ∈ e.variants :=
    (sortedVariants_perm hl hr).mem_iff.mp (List.mem_of_getElem? hv)
  obtain ⟨i, hi, rfl⟩ := List.getElem_of_mem hmem
  have hbyte := h.byte _ hmem
  have h256 := h.length_le
  rw [wrapU_byte hbyte, hl.index_eq i hi, Nat.mod_eq_of_lt (by omega), Prod.mk.injEq] at heq
  exact ⟨i, hi, by omega, heq.2.symm⟩

/-- What stands at the lower bound, if the key there is the value. -/
theorem lookup_lowerBound (hl : e.Laid) (hr : e.isRemap = true) (h : Distinct e) {x r : Nat}
    (hbound : IsLowerBound ((sortedTable e).map Prod.fst) x r) :
    (match (sortedTable e)[r]? with
      | some (key, wire) => if key = x then wire else 0
      | none => 0) = declaredIndex e x := by
  have hsorted := sortedTable_pairwise hl hr h
  rcases variant_or_absent e x with ⟨i, hi, hval⟩ | habs
  · -- the variant stands somewhere in the table, so it stands at the lower bound
    have hmem : e.variants[i] ∈ e.sortedVariants :=
      (sortedVariants_perm hl hr).mem_iff.mpr (List.getElem_mem hi)
    obtain ⟨j, hj, hget⟩ := List.getElem_of_mem hmem
    have hbyte := h.byte _ (List.getElem_mem hi)
    have hjlen : j < ((sortedTable e).map Prod.fst).length := by
      rw [List.length_map, sortedTable, List.length_map]
      exact hj
    have hkey : ((sortedTable e).map Prod.fst)[j] = x := by
      simp only [sortedTable, List.getElem_map, hget, wrapU_byte hbyte]
      omega
    obtain ⟨hrlen, hrkey⟩ := hbound.get_eq hsorted hjlen hkey
    rw [List.length_map] at hrlen
    rw [List.getElem_map] at hrkey
    have hentry : (sortedTable e)[r]? = some (x, ((sortedTable e)[r]).2) := by
      rw [List.getElem?_eq_getElem hrlen, ← hrkey]
    obtain ⟨k, hk, hkval, hwire⟩ := sortedTable_entry hl hr h hentry
    rw [hentry]
    show (if x = x then ((sortedTable e)[r]).2 else 0) = _
    rw [if_pos rfl, hwire, ← hkval, declaredIndex_value h hk]
  · rw [declaredIndex_absent habs]
    cases hget : (sortedTable e)[r]? with
    | none => rfl
    | some entry =>
      obtain ⟨key, wire⟩ := entry
      obtain ⟨k, hk, hkval, -⟩ := sortedTable_entry hl hr h hget
      refine if_neg fun hkey => habs _ (List.getElem_mem hk) ?_
      rw [hkval, hkey]

theorem searchValueToWire_eq (hl : e.Laid) (hr : e.isRemap = true) (h : Distinct e) (x : Nat) :
    searchValueToWire e x = some (declaredIndex e x) := by
  obtain ⟨r, hsearch, hbound⟩ := lowerBound_sortedTable hl hr h Nat.lt_two_pow_self x
  have hlook := lookup_lowerBound hl hr h hbound
  simp only [searchValueToWire, hsearch, Option.bind_eq_bind, Option.bind_some]
  rw [← hlook]
  cases (sortedTable e)[r]? <;> rfl

theorem denseValueToWire_eq (hl : e.Laid) (h : Distinct e) {c : Int} (h0 : 0 ≤ c)
    (hmax : c ≤ e.maxValue) : denseValueToWire e c = some (declaredIndex e c) := by
  rw [denseValueToWire, if_pos ⟨h0, hmax⟩]
  congr 1
  rcases variant_or_absent e c with ⟨i, hi, rfl⟩ | habs
  · have h256 := h.length_le
    rw [lastIndex_value hl h hi, declaredIndex_value h hi, Option.getD_some,
      Nat.mod_eq_of_lt (by omega)]
  · have hnone : (e.variants.filter fun v => v.value = c) = [] :=
      List.filter_eq_nil_iff.mpr fun v hv => by simpa using habs v hv
    rw [declaredIndex_absent habs, lastIndex, hnone]
    rfl

/-- **C finds the same index in either table**, for every value up to the largest. -/
theorem valueToWire_eq (hl : e.Laid) (hr : e.isRemap = true) (h : Distinct e) {c : Int}
    (h0 : 0 ≤ c) (hmax : ∃ v ∈ e.variants, c ≤ v.value) :
    valueToWire e c = some (declaredIndex e c) := by
  obtain ⟨v, hv, hle⟩ := hmax
  unfold valueToWire
  split
  · exact denseValueToWire_eq hl h h0 (le_trans hle (hl.max_le hr v hv))
  · have hbyte := h.byte v hv
    rw [searchValueToWire_eq hl hr h, wrapU_byte ⟨h0, by omega⟩, Int.toNat_of_nonneg h0]

/-- **C finds the index of a variant from its value**, whichever table it uses. -/
theorem valueToWire_value (hl : e.Laid) (hr : e.isRemap = true) (h : Distinct e)
    (hi : i < e.variants.length) : valueToWire e (e.variants[i]).value = some i := by
  have hmem : e.variants[i] ∈ e.variants := List.getElem_mem hi
  rw [valueToWire_eq hl hr h (h.byte _ hmem).1 ⟨_, hmem, le_refl _⟩, declaredIndex_value h hi]

/-- The table back gives the value. -/
theorem wireToValue_index (h : Distinct e) (hi : i < e.variants.length) :
    wireToValue e i = some (e.variants[i]).value := by
  rw [wireToValue, List.getElem?_eq_getElem hi, Option.map_some,
    wrapU_byte (h.byte _ (List.getElem_mem hi))]

end Distinct

end ProtoEmb.Codec

import ProtoEmb.Codec.RemapTables

/-!
# The two remap tables of the C header

`*_valueToWire` and `*_VALUE_TO_WIRE` as `protocol.h.j2` prints them: a binary search in
`uint32_t` over an array of byte pairs, and an array of bytes whose initializers name their
places. An access outside an array is `none`, and so is a search that is still running
when its fuel is used up.

For distinct bytes the search needs nine rounds at most, since a table has no more than 256
entries, and both give the declaration index of every value (`search_eq`,
`dense_eq`).
-/

namespace ProtoEmb.Codec.RemapTable

open ProtoEmb.Lib ProtoEmb.Schema

/-! ## Binary search -/

/-- `*_VALUE_WIRE_SORTED`, pairs of `value` and `wire`. -/
def valueWireSorted (e : Enum) : List (UInt8 × UInt8) :=
  e.sortedVariants.map fun v => (UInt8.ofInt v.value, UInt8.ofNat v.index)

/-- `while (lo < hi)`. -/
def searchLoop (table : List (UInt8 × UInt8)) (value : UInt8) :
    Nat → UInt32 → UInt32 → Option UInt32
  | 0, lo, hi => if lo < hi then none else some lo
  | fuel + 1, lo, hi =>
    if lo < hi then do
      let mid := lo + (hi - lo) / 2
      let entry ← table[mid.toNat]?
      if entry.1 < value then searchLoop table value fuel (mid + 1) hi
      else searchLoop table value fuel lo mid
    else some lo

/-- `*_valueToWire(value)`. -/
def valueToWire (e : Enum) (fuel : Nat) (value : UInt8) : Option UInt8 := do
  let table := valueWireSorted e
  let count := UInt32.ofNat e.count
  let lo ← searchLoop table value fuel 0 count
  if lo < count then do
    let entry ← table[lo.toNat]?
    return if entry.1 = value then entry.2 else 0
  else return 0

/-! ## Dense array -/

/-- The initializers `[i] = index` of `*_VALUE_TO_WIRE`. -/
def designators (e : Enum) : List (Nat × UInt8) :=
  (List.range (e.maxValue + 1).toNat).flatMap fun i : Nat =>
    (e.variants.filter fun v => v.value = (i : Int)).map fun v => (i, UInt8.ofNat v.index)

/-- `*_VALUE_TO_WIRE`: a later initializer wins, and a place without one is 0. -/
def valueToWireArray (e : Enum) : List UInt8 :=
  (designators e).foldl (fun array d => array.set d.1 d.2)
    (List.replicate (e.maxValue + 1).toNat 0)

/-! ## The search is the lower bound -/

/-- On 32-bit words that are in order nothing wraps, so the loop is the search over
natural numbers. -/
theorem searchLoop_eq (table : List (UInt8 × UInt8)) (value : UInt8) :
    ∀ (fuel : Nat) (lo hi : UInt32), (searchLoop table value fuel lo hi).map UInt32.toNat
      = lowerBound (table.map fun entry => entry.1.toNat) value.toNat fuel lo.toNat hi.toNat := by
  intro fuel
  induction fuel with
  | zero =>
    intro lo hi
    simp only [searchLoop, lowerBound, UInt32.lt_iff_toNat_lt]
    split <;> rfl
  | succ fuel ih =>
    intro lo hi
    simp only [searchLoop, lowerBound, UInt32.lt_iff_toNat_lt]
    by_cases hlt : lo.toNat < hi.toNat
    · have hhi := hi.toNat_lt
      have hsub : (hi - lo).toNat = hi.toNat - lo.toNat :=
        UInt32.toNat_sub_of_le _ _ (UInt32.le_iff_toNat_le.mpr (by omega))
      have hhalf : ((hi - lo) / 2).toNat = (hi.toNat - lo.toNat) / 2 := by
        rw [UInt32.toNat_div, hsub]
        rfl
      -- `mid` is between the bounds, so neither sum wraps
      have hmid : (lo + (hi - lo) / 2).toNat = lo.toNat + (hi.toNat - lo.toNat) / 2 := by
        rw [UInt32.toNat_add, hhalf]
        exact Nat.mod_eq_of_lt (by omega)
      have hnext : (lo + (hi - lo) / 2 + 1).toNat
          = lo.toNat + (hi.toNat - lo.toNat) / 2 + 1 := by
        rw [UInt32.toNat_add, hmid]
        exact Nat.mod_eq_of_lt (by simp; omega)
      rw [if_pos hlt, if_pos hlt, List.getElem?_map, hmid]
      cases table[lo.toNat + (hi.toNat - lo.toNat) / 2]? with
      | none => rfl
      | some entry =>
        simp only [Option.bind_eq_bind, Option.bind_some, Option.map_some,
          UInt8.lt_iff_toNat_lt]
        split
        · rw [ih, hnext]
        · rw [ih, hmid]
    · rw [if_neg hlt, if_neg hlt]
      rfl

/-- The array has the entries of the table. -/
theorem valueWireSorted_toNat (e : Enum) :
    (valueWireSorted e).map (fun entry => (entry.1.toNat, entry.2.toNat)) = sortedTable e := by
  rw [valueWireSorted, sortedTable, List.map_map]
  refine List.map_congr_left fun v _ => ?_
  show ((UInt8.ofInt v.value).toNat, (UInt8.ofNat v.index).toNat) = _
  rw [UInt8.ofInt, UInt8.toNat_ofNat', UInt8.toNat_ofNat', wrapU]
  congr 1
  omega

section Distinct

variable {e : Enum}

/-- **The search returns the declaration index of every byte**, and 0 for a byte that is no
value. It ends within nine rounds and reads inside the table only. -/
theorem search_eq (hl : e.Laid) (hr : e.isRemap = true) (h : Distinct e) {fuel : Nat}
    (hfuel : 9 ≤ fuel) (x : UInt8) :
    (valueToWire e fuel x).map UInt8.toNat = some (declaredIndex e x.toNat) := by
  have h256 := h.length_le
  have hcount := hl.count_eq
  have hn : (UInt32.ofNat e.count).toNat = e.count := by
    rw [UInt32.toNat_ofNat']
    omega
  -- a byte has 256 values, so nine halvings empty the range
  have hpow : e.count < 2 ^ fuel := by
    calc e.count < 2 ^ 9 := by omega
      _ ≤ 2 ^ fuel := Nat.pow_le_pow_right (by decide) hfuel
  have hkeys : (valueWireSorted e).map (fun entry => entry.1.toNat)
      = (sortedTable e).map Prod.fst := by
    rw [← valueWireSorted_toNat, List.map_map]
    rfl
  have htable := sortedTable_length hl hr
  obtain ⟨r, hsearch, hbound⟩ := lowerBound_sortedTable hl hr h hpow x.toNat
  have hloop := searchLoop_eq (valueWireSorted e) x fuel 0 (UInt32.ofNat e.count)
  rw [hkeys, hn, UInt32.toNat_zero, hsearch, Option.map_eq_some_iff] at hloop
  obtain ⟨lo, hlo, rfl⟩ := hloop
  have hlook := lookup_lowerBound hl hr h hbound
  have hget : (sortedTable e)[lo.toNat]?
      = ((valueWireSorted e)[lo.toNat]?).map fun entry => (entry.1.toNat, entry.2.toNat) := by
    rw [← valueWireSorted_toNat, List.getElem?_map]
  simp only [valueToWire, hlo, Option.bind_eq_bind, Option.bind_some, UInt32.lt_iff_toNat_lt, hn]
  -- past the end there is nothing to compare with
  by_cases hin : lo.toNat < e.count
  · rw [if_pos hin]
    cases hentry : (valueWireSorted e)[lo.toNat]? with
    | none =>
      rw [hentry, Option.map_none, List.getElem?_eq_none_iff] at hget
      omega
    | some entry =>
      rw [hget, hentry] at hlook
      simp only [Option.map_some, UInt8.toNat_inj] at hlook
      rw [← hlook, Option.bind_some, Option.pure_def, Option.map_some]
      split <;> rfl
  · rw [if_neg hin]
    rw [List.getElem?_eq_none (by omega)] at hlook
    rw [← hlook]
    rfl

/-- What stands at a place after a list of initializers: all those for the place say the
same, and if there are none the place had it before. -/
theorem designated {x : Nat} {w : UInt8} :
    ∀ (ds : List (Nat × UInt8)) (array : List UInt8), x < array.length →
      (∀ d ∈ ds, d.1 = x → d.2 = w) → ((∃ d ∈ ds, d.1 = x) ∨ array[x]? = some w) →
      (ds.foldl (fun array d => array.set d.1 d.2) array)[x]? = some w := by
  intro ds
  induction ds with
  | nil =>
    intro array _ _ hex
    exact hex.resolve_left fun ⟨d, hd, _⟩ => absurd hd List.not_mem_nil
  | cons d ds ih =>
    intro array hx hall hex
    rw [List.foldl_cons]
    refine ih _ (by rw [List.length_set]; exact hx)
      (fun d' hd' => hall d' (List.mem_cons_of_mem _ hd')) ?_
    by_cases hd : d.1 = x
    · refine Or.inr ?_
      rw [hd, List.getElem?_set_self hx, hall d (List.mem_cons_self ..) hd]
    · rw [List.getElem?_set_ne hd]
      refine hex.imp_left fun ⟨d', hd', hx'⟩ => ?_
      rcases List.mem_cons.mp hd' with rfl | hd'
      · exact absurd hx' hd
      · exact ⟨d', hd', hx'⟩

theorem mem_designators {d : Nat × UInt8} :
    d ∈ designators e ↔ (d.1 : Int) ≤ e.maxValue ∧
      ∃ v ∈ e.variants, v.value = d.1 ∧ UInt8.ofNat v.index = d.2 := by
  obtain ⟨i, w⟩ := d
  simp only [designators, List.mem_flatMap, List.mem_range, List.mem_map, List.mem_filter,
    decide_eq_true_eq, Prod.mk.injEq]
  constructor
  · intro h
    obtain ⟨j, hj, v, ⟨hv, hval⟩, rfl, hw⟩ := h
    exact ⟨by omega, v, hv, hval, hw⟩
  · intro h
    obtain ⟨hi, v, hv, hval, hw⟩ := h
    exact ⟨i, by omega, v, ⟨hv, hval⟩, rfl, hw⟩

/-- **The dense array holds the declaration index of every value up to the largest**, and 0
in between. -/
theorem dense_eq (hl : e.Laid) (h : Distinct e) {x : Nat} (hx : (x : Int) ≤ e.maxValue) :
    (valueToWireArray e)[x]?.map UInt8.toNat = some (declaredIndex e x) := by
  have h256 := h.length_le
  have hlen : x < (List.replicate (e.maxValue + 1).toNat (0 : UInt8)).length := by
    rw [List.length_replicate]
    omega
  have hbyte : declaredIndex e x < 256 := by
    rcases variant_or_absent e x with ⟨i, hi, hval⟩ | habs
    · rw [← hval, declaredIndex_value h hi]
      omega
    · rw [declaredIndex_absent habs]
      decide
  have hplace := designated (w := UInt8.ofNat (declaredIndex e x)) (designators e) _ hlen
    (fun d hd hdx => ?_) ?_
  · rw [valueToWireArray, hplace, Option.map_some, UInt8.toNat_ofNat', Nat.mod_eq_of_lt hbyte]
  · obtain ⟨-, v, hv, hval, hw⟩ := mem_designators.mp hd
    obtain ⟨i, hi, rfl⟩ := List.getElem_of_mem hv
    rw [← hw, ← hdx, ← hval, declaredIndex_value h hi, hl.index_eq i hi]
  · rcases variant_or_absent e x with ⟨i, hi, hval⟩ | habs
    · exact Or.inl ⟨(x, UInt8.ofNat (e.variants[i]).index),
        mem_designators.mpr ⟨hx, _, List.getElem_mem hi, hval, rfl⟩, rfl⟩
    · refine Or.inr ?_
      rw [declaredIndex_absent habs, List.getElem?_eq_getElem hlen, List.getElem_replicate]
      rfl

/-- The encoder's search is the loop of the header. -/
theorem searchValueToWire_literal (hl : e.Laid) (hr : e.isRemap = true) (h : Distinct e)
    {fuel : Nat} (hfuel : 9 ≤ fuel) (x : UInt8) :
    searchValueToWire e x.toNat = (valueToWire e fuel x).map UInt8.toNat := by
  rw [searchValueToWire_eq hl hr h, search_eq hl hr h hfuel]

/-- The encoder's dense table is the array of the header. -/
theorem denseValueToWire_literal (hl : e.Laid) (h : Distinct e) {x : Nat}
    (hx : (x : Int) ≤ e.maxValue) :
    denseValueToWire e x = (valueToWireArray e)[x]?.map UInt8.toNat := by
  rw [denseValueToWire_eq hl h (Int.natCast_nonneg x) hx, dense_eq hl h hx]

end Distinct

end ProtoEmb.Codec.RemapTable

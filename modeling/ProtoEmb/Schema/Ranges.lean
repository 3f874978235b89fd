import ProtoEmb.Schema.Layout

/-!
# Declared ranges and the bits they are given

A packed numeric leaf that declares `min` and `max` has as many wire values as `generate.py`
counts, `valueRange`. Without an explicit `bits` its width follows from that. With one,
`validate_schema` compares the bits the range needs with `_bits`, the size of the whole field:
that is the width of the leaf only if the field is a single value that is always there. For an
array it is the width of all elements together, for an optional value it counts the presence
flag, and a union is not looked at. `range_fits_iff` is what is left of the check.

Python computes with floats where one of the three numbers is a float. `rangeOf` is the
result it gets; it is the exact product if the numbers are integers (`rangeOf_int`).
-/

namespace ProtoEmb.Schema

open ProtoEmb.Lib

variable {rnd : Rat → Rat}

/-! ## Wire steps and powers of two -/

/-- `(fmax - fmin) * scale`. -/
def rangeOf (rnd : Rat → Rat) (min max scale : Num) : Num := (max.sub rnd min).mul rnd scale

/-- With integers there is no rounding. -/
theorem rangeOf_int (min max scale : Int) :
    (rangeOf rnd (.int min) (.int max) (.int scale)).toRat
      = ((Num.int max).toRat - (Num.int min).toRat) * (Num.int scale).toRat := by
  simp [rangeOf, Num.sub, Num.mul, Num.toRat]

/-- A number lies below `2 ^ b` if and only if there are at most `2 ^ b` steps up to it. -/
theorem toInt_add_one_le_iff (x : Num) (b : Nat) : x.toInt + 1 ≤ 2 ^ b ↔ x.toRat < 2 ^ b := by
  have hcast : ((2 ^ b : Int) : Rat) = 2 ^ b := by push_cast; rfl
  rw [← hcast]
  cases x with
  | int n =>
    simp only [Num.toInt, Num.toRat, Int.cast_lt]
    exact Int.add_one_le_iff
  | float q =>
    simp only [Num.toInt, Num.toRat]
    by_cases hq : 0 ≤ q
    · rw [if_pos hq, Int.add_one_le_iff, Int.floor_lt]
    · -- a negative range is truncated towards zero, and fits any width
      rw [if_neg hq]
      have hneg : q < 0 := not_le.mp hq
      have hceil : ⌈q⌉ ≤ 0 := Int.ceil_le.mpr (by push_cast; exact le_of_lt hneg)
      have hpow : (0 : Int) < 2 ^ b := by positivity
      refine ⟨fun _ => lt_trans hneg ?_, fun _ => by omega⟩
      exact Int.cast_pos.mpr (by omega)

theorem valueRange_le_iff (min max scale : Num) (b : Nat) :
    valueRange rnd min max scale ≤ 2 ^ b ↔ (rangeOf rnd min max scale).toRat < 2 ^ b :=
  toInt_add_one_le_iff _ b

/-- The bits the generator gives to a number of wire values. -/
def neededBits (range : Int) : Nat := if range ≤ 1 then 1 else ceilLog2 range.toNat

theorem le_two_pow_neededBits (range : Int) : range ≤ 2 ^ neededBits range := by
  unfold neededBits
  split
  next h => exact le_trans h (by norm_num)
  next h =>
    have hnat : range.toNat ≤ 2 ^ ceilLog2 range.toNat := Nat.le_pow_clog (by decide) _
    have hcast : (range.toNat : Int) ≤ 2 ^ ceilLog2 range.toNat := by exact_mod_cast hnat
    omega

theorem le_two_pow_of_neededBits_le {range : Int} {b : Nat} (h : neededBits range ≤ b) :
    range ≤ 2 ^ b :=
  le_trans (le_two_pow_neededBits range) (pow_le_pow_right₀ (by norm_num) h)

/-! ## Leaves and their declarations -/

/-- A leaf of a packed type of the processed schema, its declaration, and whether it is all of
its field: neither an element of an array, nor an optional value, nor a variant of a union. -/
inductive PackedDecl (schema : SchemaDecl) (data : Data) : Bool → FieldDecl → Elem → Prop
  | field {s : Struct} {f : Field} (hs : s ∈ data.structs) (hpk : s.isPacked = true)
      (hf : f ∈ s.fields) :
      PackedDecl schema data (!f.isArray && !f.isOptional) f.decl f.elem
  | variant {u : Union} {d : UnionDecl} {i : Nat} {decl : FieldDecl} {v : Variant}
      (hu : u ∈ data.unions) (hpk : u.isPacked = true)
      (hd : schema.unions.lookup u.name = some d) (hdecl : d.variants[i]? = some decl)
      (hv : u.variants[i]? = some v) : PackedDecl schema data false decl v.elem

/-- The leaf was made from the declaration, and its bits are computed from it. -/
structure Elem.MadeFrom (rnd : Rat → Rat) (ctx : Context) (decl : FieldDecl) (e : Elem) :
    Prop where
  made : ∃ raw, e = ctx.enrich rnd decl raw e.size
  size : e.isNested = false → e.size = computeFieldBits rnd decl ctx.enums

/-- The attributes of a numeric leaf decide its bits. -/
theorem Elem.MadeFrom.numeric_size {ctx : Context} {decl : FieldDecl} {e : Elem}
    (h : e.MadeFrom rnd ctx decl) (hnum : e.isNumeric = true) :
    e.size = match decl.bits with
      | some b => b
      | none =>
        match decl.min, decl.max with
        | some fmin, some fmax =>
          neededBits (valueRange rnd fmin fmax (decl.scale.getD (.int 1)))
        | _, _ => typeBits decl.type := by
  obtain ⟨raw, hmade⟩ := h.made
  rw [hmade] at hnum
  simp only [Context.enrich, Bool.not_eq_true', Bool.or_eq_false_iff, decide_eq_false_iff_not,
    Option.isSome_eq_false_iff, Option.isNone_iff_eq_none] at hnum
  obtain ⟨⟨⟨⟨henum, hbool⟩, hstring⟩, hstruct⟩, hunion⟩ := hnum
  have hnested : e.isNested = false := by
    rw [hmade, enrich_isNested, hstruct, hunion]
    rfl
  rw [h.size hnested, computeFieldBits, if_neg hbool, henum]
  simp only [if_neg hstring]
  rfl

theorem processField_madeFrom {ctx : Context} {scope : Scope} {name encoding : String}
    {offset : Nat} {decl : FieldDecl} {f : Field}
    (h : ctx.processField rnd scope name encoding true offset decl = .ok f) :
    f.decl = decl ∧ f.elem.MadeFrom rnd ctx decl ∧ f.isArray = decl.count.isSome ∧
      (f.isArray = false → f.isOptional = false → f.size = f.elem.size) := by
  unfold Context.processField at h
  rw [bind_eq_ok] at h
  obtain ⟨size, hsize, h⟩ := h
  rw [pure_eq_ok] at h
  subst h
  refine ⟨rfl, ⟨⟨decl.rawStorage, rfl⟩, fun hn => ?_⟩, rfl, fun ha ho => ?_⟩
  · rw [enrich_isNested] at hn
    simp only [Context.elemSize, hn, Bool.false_eq_true, if_false, if_true] at hsize
    exact (pure_eq_ok.mp hsize).symm
  · have hcount : decl.count = none := by simpa using ha
    have hopt : decl.optional = false := ho
    simp [hcount, hopt, Context.enrich]

theorem processFields_madeFrom {ctx : Context} {scope : Scope} {name encoding : String} :
    ∀ (decls : List FieldDecl) {offset : Nat} {fields : List Field},
      ctx.processFields rnd scope name encoding true offset decls = .ok fields →
      ∀ f ∈ fields, f.elem.MadeFrom rnd ctx f.decl ∧
        (f.isArray = false → f.isOptional = false → f.size = f.elem.size) := by
  intro decls
  induction decls with
  | nil =>
    intro offset fields h
    rw [Context.processFields, pure_eq_ok] at h
    subst h
    intro f hf
    cases hf
  | cons decl decls ih =>
    intro offset fields h
    rw [Context.processFields, bind_eq_ok] at h
    obtain ⟨field, hfield, h⟩ := h
    rw [bind_eq_ok] at h
    obtain ⟨rest, hrest, h⟩ := h
    rw [pure_eq_ok] at h
    subst h
    intro f hf
    rcases List.mem_cons.mp hf with rfl | hf
    · obtain ⟨hdecl, hmade, -, hsize⟩ := processField_madeFrom hfield
      exact ⟨hdecl ▸ hmade, hsize⟩
    · exact ih hrest f hf

theorem processStruct_madeFrom {ctx : Context} {scope : Scope} {name : String} {d : StructDecl}
    {s : Struct} (h : ctx.processStruct rnd scope name d = .ok s) (hpk : s.isPacked = true) :
    ∀ f ∈ s.fields, f.elem.MadeFrom rnd ctx f.decl ∧
      (f.isArray = false → f.isOptional = false → f.size = f.elem.size) := by
  unfold Context.processStruct at h
  rw [bind_eq_ok] at h
  obtain ⟨fields, hfields, h⟩ := h
  rw [pure_eq_ok] at h
  subst h
  rw [show decide (ctx.encoding d.encoding = "packed") = true from hpk] at hfields
  exact processFields_madeFrom d.fields hfields

theorem enrichUnion_madeFrom {ctx : Context} {scope : Scope} {name : String} {d : UnionDecl}
    {u : Union} (h : ctx.enrichUnion rnd scope name d = .ok u) (hpk : u.isPacked = true) {i : Nat}
    {decl : FieldDecl} {v : Variant} (hdecl : d.variants[i]? = some decl)
    (hv : u.variants[i]? = some v) : v.elem.MadeFrom rnd ctx decl := by
  unfold Context.enrichUnion at h
  rw [bind_eq_ok] at h
  obtain ⟨variants, hvariants, h⟩ := h
  rw [pure_eq_ok] at h
  subst h
  have hmade := mapM_ok_getElem? hvariants hdecl hv
  rw [bind_eq_ok] at hmade
  obtain ⟨size, hsize, hmade⟩ := hmade
  rw [pure_eq_ok] at hmade
  subst hmade
  refine ⟨⟨false, rfl⟩, fun hn => ?_⟩
  have hstruct : ¬ (ctx.structs.lookup decl.type).isSome = true := by
    intro hsome
    rw [enrich_isNested, hsome] at hn
    cases hn
  have hpk' : decide (ctx.encoding d.encoding = "packed") = true := hpk
  unfold Context.variantSize at hsize
  rw [if_neg hstruct, if_pos hpk'] at hsize
  exact (pure_eq_ok.mp hsize).symm

/-- Every such leaf was made from its declaration; one that is all of its field has passed the
check of its range. -/
theorem PackedDecl.spec {schema : SchemaDecl} {data : Data}
    (hp : processSchema rnd schema = .ok data) (hv : validateSchema rnd data = []) {alone : Bool}
    {decl : FieldDecl} {e : Elem} (h : PackedDecl schema data alone decl e)
    (hnum : e.isNumeric = true) :
    ∃ ctx : Context, e.MadeFrom rnd ctx decl ∧
      (alone = true → ∀ fmin fmax, decl.min = some fmin → decl.max = some fmax →
        neededBits (valueRange rnd fmin fmax (decl.scale.getD (.int 1))) ≤ e.size) := by
  obtain ⟨ctx, hunions, hmade⟩ := processSchema_made hp
  refine ⟨ctx, ?_⟩
  cases h with
  | @field s f hs hpk hf =>
    obtain ⟨⟨n, t⟩, ht, htype⟩ := List.mem_filterMap.mp hs
    cases t with
    | union u => cases htype
    | struct s' =>
      cases htype
      obtain ⟨scope, d, -, hproc⟩ := hmade _ (List.mem_reverse.mp ht)
      obtain ⟨hfrom, hsize⟩ := processStruct_madeFrom hproc hpk f hf
      -- a field that is neither an array nor optional has been through the range check
      refine ⟨hfrom, fun halone fmin fmax hmin hmax => ?_⟩
      rw [Bool.and_eq_true, Bool.not_eq_true', Bool.not_eq_true'] at halone
      simp only [validateSchema, List.append_eq_nil_iff, List.flatMap_eq_nil_iff] at hv
      have hstruct := hv.1.1.1.1.2 s hs
      simp only [validateStruct, List.append_eq_nil_iff, List.flatMap_eq_nil_iff] at hstruct
      have hfield := hstruct.2 f hf
      simp only [validateField, List.append_eq_nil_iff] at hfield
      have hrange := hfield.2
      simp only [validateRangeBits, hmin, hmax, errorIf_eq_nil, not_and, not_lt] at hrange
      have hneeded := hrange hpk hnum
      rw [← hsize halone.1 halone.2]
      unfold neededBits
      split at hneeded
      next hgt => rwa [if_neg (by omega)]
      next hle => rwa [if_pos (by omega)]
  | @variant u d i decl v hu hpk hd hdecl hv' =>
    obtain ⟨⟨n, t⟩, ht, htype⟩ := List.mem_filterMap.mp hu
    cases t with
    | struct s => cases htype
    | union u' =>
      cases htype
      have hm := hmade _ (List.mem_reverse.mp ht)
      obtain ⟨scope, d', hd', hproc⟩ := hm
      rw [hunions, ← TypeDef.Made.union_name (hmade _ (List.mem_reverse.mp ht)), hd] at hd'
      cases hd'
      -- a variant is never checked for its range
      exact ⟨enrichUnion_madeFrom hproc hpk hdecl hv', fun h => by cases h⟩

/-- **Which ranges fit their bits.** Every wire step of the range of a packed numeric leaf of
an accepted schema fits the bits the leaf is given, if and only if an explicit `bits` on an
array element, an optional value or a union variant is wide enough for it: nothing checks
these. -/
theorem range_fits_iff {schema : SchemaDecl} {data : Data}
    (hp : processSchema rnd schema = .ok data) (hv : validateSchema rnd data = []) {alone : Bool}
    {decl : FieldDecl} {e : Elem} (hleaf : PackedDecl schema data alone decl e)
    (hnum : e.isNumeric = true) {fmin fmax : Num} (hmin : decl.min = some fmin)
    (hmax : decl.max = some fmax) :
    ((rangeOf rnd fmin fmax (decl.scale.getD (.int 1))).toRat < 2 ^ e.size ↔
      (alone = false → ∀ b ∈ decl.bits,
        valueRange rnd fmin fmax (decl.scale.getD (.int 1)) ≤ 2 ^ b)) ∧
    ((rangeOf rnd fmin fmax (decl.scale.getD (.int 1))).toRat
        = (fmax.toRat - fmin.toRat) * (decl.scale.getD (.int 1)).toRat →
      ((fmax.toRat - fmin.toRat) * (decl.scale.getD (.int 1)).toRat < 2 ^ e.size ↔
        (alone = false → ∀ b ∈ decl.bits,
          valueRange rnd fmin fmax (decl.scale.getD (.int 1)) ≤ 2 ^ b))) := by
  obtain ⟨ctx, hfrom, hcheck⟩ := hleaf.spec hp hv hnum
  have hsize := hfrom.numeric_size hnum
  rw [hmin, hmax] at hsize
  have hiff : (rangeOf rnd fmin fmax (decl.scale.getD (.int 1))).toRat < 2 ^ e.size ↔
      (alone = false → ∀ b ∈ decl.bits,
        valueRange rnd fmin fmax (decl.scale.getD (.int 1)) ≤ 2 ^ b) := by
    rw [← valueRange_le_iff]
    cases hbits : decl.bits with
    | none =>
      rw [hbits] at hsize
      simp only [hsize, le_two_pow_neededBits, Option.not_mem_none, false_implies, implies_true]
    | some b =>
      rw [hbits] at hsize
      simp only at hsize
      cases alone with
      | false => simp [hsize]
      | true =>
        -- the check of the whole field is a check of the leaf
        have hle := le_two_pow_of_neededBits_le (hcheck rfl fmin fmax hmin hmax)
        simp [hle]
  refine ⟨hiff, fun hexact => ?_⟩
  rw [← hexact]
  exact hiff

/-! ## An array whose elements do not fit -/

/-- Eight samples between 0 and 100, in four bits each. -/
def samples : SchemaDecl where
  structs :=
    [("Samples", { fields :=
      [{ name := "values", type := "uint8", min := some (.int 0), max := some (.int 100),
         bits := some 4, count := some 8 },
        { name := "temp", type := "int16", scale := some (.int 10), min := some (.int (-40)),
          max := some (.int 85) }] })]

/-- The temperature has 1251 wire values and gets eleven bits. -/
theorem range_fits_iff_temp :
    ∃ data, processSchema id samples = .ok data ∧ validateSchema id data = [] ∧
      ∃ s ∈ data.structs, s.isPacked = true ∧ ∃ f ∈ s.fields, f.decl.name = "temp" ∧
        f.elem.isNumeric = true ∧
        f.decl.min = some (.int (-40)) ∧ f.decl.max = some (.int 85) ∧
        ((Num.int 85).toRat - (Num.int (-40)).toRat) * (Num.int 10).toRat < 2 ^ f.elem.size := by
  refine ⟨_, rfl, by decide +kernel, _, List.mem_cons_self .., rfl, _,
    List.mem_cons_of_mem _ (List.mem_cons_self ..), rfl, rfl, rfl, rfl, ?_⟩
  exact ((@range_fits_iff id samples _ rfl (by decide +kernel) _ _ _
    (.field (List.mem_cons_self ..) rfl (List.mem_cons_of_mem _ (List.mem_cons_self ..))) rfl
    _ _ rfl rfl).2 (rangeOf_int (-40) 85 10)).mpr nofun

/-- The samples have 101 wire values each, and the schema is accepted: seven bits are no more
than the 32 of the whole array. -/
theorem array_range_too_wide :
    ∃ data, processSchema id samples = .ok data ∧ validateSchema id data = [] ∧
      ¬ ∀ alone decl e, PackedDecl samples data alone decl e → e.isNumeric = true →
        ∀ fmin fmax, decl.min = some fmin → decl.max = some fmax →
          (fmax.toRat - fmin.toRat) * (decl.scale.getD (.int 1)).toRat < 2 ^ e.size := by
  refine ⟨_, rfl, by decide +kernel, fun h => ?_⟩
  have hfits := h _ _ _ (.field (List.mem_cons_self ..) rfl (List.mem_cons_self ..)) rfl
    (.int 0) (.int 100) rfl rfl
  exact absurd hfits (by decide +kernel)

end ProtoEmb.Schema

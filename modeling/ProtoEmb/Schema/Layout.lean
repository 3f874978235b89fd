import ProtoEmb.Lib.Result
import ProtoEmb.Schema.Validate

/-!
# What an accepted schema guarantees

`process_schema` computes offsets and sizes, the templates print them as literals.
`Scope.Laid` is the invariant that makes the literals fit together: the fields of a
struct lie one behind the other from offset 0, a nested field is as large as the
type it names, and that type comes earlier in the scope and has the same encoding.
It holds of every result of `processSchema` (`accepted`).

`TypeDef.Valid` collects what the codec needs from `validate_schema`: no field is
both an array and optional, and a union's variants are neither strings nor nested.
`Scope.Accepted` has both.
-/

namespace ProtoEmb.Schema

open ProtoEmb.Lib

variable (rnd : Rat → Rat) (ctx : Context)

/-! ## The invariant -/

/-- The size of an element that is not nested. -/
def Context.leafSize (isPacked : Bool) (f : FieldDecl) : Nat :=
  if isPacked then computeFieldBits rnd f ctx.enums
  else fieldByteSize f (ctx.enums.lookup f.type).isSome

/-- The element was made from a declaration, and its size is that of its type. -/
structure Elem.Laid (scope : Scope) (isPacked : Bool) (e : Elem) : Prop where
  made : ∃ f raw, e = ctx.enrich rnd f raw e.size ∧
    (e.isNested = false → e.size = ctx.leafSize rnd isPacked f)
  nested : e.isNested = true →
    ∃ t, scope.lookup e.type = some t ∧ t.isPacked = isPacked ∧ e.size = t.total

/-- The room of the presence flag. -/
def Field.flagSize (f : Field) : Nat := if f.isOptional then 1 else 0

/-- The field lies at `offset`: the flag, if any, and then its elements. -/
structure Field.Laid (scope : Scope) (isPacked : Bool) (offset : Nat) (f : Field) : Prop where
  elem : f.elem.Laid rnd ctx scope isPacked
  offset_eq : f.offset = offset
  value_eq : f.valueOffset = offset + f.flagSize
  size_eq : f.size = f.flagSize + f.elem.size * f.arrayLen
  single : f.isArray = false → f.arrayLen = 1
  array_eq : f.isArray = f.decl.count.isSome
  optional_eq : f.isOptional = f.decl.optional

/-- The fields lie one behind the other from `offset`. -/
def FieldsLaid (scope : Scope) (isPacked : Bool) : Nat → List Field → Prop
  | _, [] => True
  | offset, f :: fs =>
    f.Laid rnd ctx scope isPacked offset ∧ FieldsLaid scope isPacked (offset + f.size) fs

/-- The bytes a layout of `total` units takes. -/
def wireBytesOf (isPacked : Bool) (total : Nat) : Nat :=
  if isPacked then (total + 7) / 8 else total

/-- The fields stand one behind the other and make up the size. -/
structure Struct.Laid (scope : Scope) (s : Struct) : Prop where
  fields : FieldsLaid rnd ctx scope s.isPacked 0 s.fields
  total_eq : s.total = (s.fields.map Field.size).sum
  wire_eq : s.wireSize = wireBytesOf s.isPacked s.total
  nested_eq : s.hasNested = s.fields.any fun f => f.elem.isNested

/-- A union's variants are laid out on their own: none of an accepted schema is nested. -/
structure Union.Laid (u : Union) : Prop where
  variants : ∀ v ∈ u.variants, v.elem.isNested = false → v.elem.type ≠ "string" →
    v.elem.Laid rnd ctx [] u.isPacked
  fits : ∀ v ∈ u.variants, u.payloadOffset + v.elem.size ≤ u.total
  payload_eq : u.payloadOffset = u.tagSize
  payload_le : u.payloadOffset ≤ u.total
  tag_fits : u.variants.length ≤ 2 ^ u.tagBits
  wire_eq : u.wireSize = wireBytesOf u.isPacked u.total

/-- A type is laid out over the types behind it in the scope. -/
def TypeDef.Laid (scope : Scope) : TypeDef → Prop
  | .struct s => s.Laid rnd ctx scope
  | .union u => u.Laid rnd ctx

/-- Every type is laid out over the types after it in the list. -/
def Scope.Laid : Scope → Prop
  | [] => True
  | (_, t) :: rest => t.Laid rnd ctx rest ∧ Scope.Laid rest

/-- `WIRE_SIZE` is the size in bytes, rounded up from bits. -/
theorem TypeDef.Laid.wire_eq {scope : Scope} {t : TypeDef} (h : t.Laid rnd ctx scope) :
    t.wireSize = wireBytesOf t.isPacked t.total := by
  cases t with
  | struct s => exact Struct.Laid.wire_eq h
  | union u => exact Union.Laid.wire_eq h

/-- A type that is found is laid out over some rest of the scope. -/
theorem Scope.Laid.lookup {scope : Scope} (h : scope.Laid rnd ctx) {name : String} {t : TypeDef}
    (ht : scope.lookup name = some t) : ∃ rest, t.Laid rnd ctx rest := by
  induction scope with
  | nil => cases ht
  | cons entry rest ih =>
    obtain ⟨n, t'⟩ := entry
    rw [List.lookup_cons] at ht
    split at ht
    · cases ht
      exact ⟨rest, h.1⟩
    · exact ih h.2 ht

variable {rnd ctx} in
/-- Each field of the row is laid out at some offset. -/
theorem FieldsLaid.mem {scope : Scope} {isPacked : Bool} :
    ∀ (fs : List Field) {off : Nat}, FieldsLaid rnd ctx scope isPacked off fs →
      ∀ f ∈ fs, ∃ off, f.Laid rnd ctx scope isPacked off := by
  intro fs
  induction fs with
  | nil => intro off _ f hf; exact absurd hf List.not_mem_nil
  | cons g fs ih =>
    intro off h f hf
    rcases List.mem_cons.mp hf with rfl | hf
    · exact ⟨off, h.1⟩
    · exact ih h.2 f hf

/-! ## `process_schema` establishes it -/

variable {rnd ctx}

/-- A field is nested if its type is a struct or a union. -/
theorem enrich_isNested (f : FieldDecl) (raw : Bool) (size : Nat) :
    (ctx.enrich rnd f raw size).isNested
      = ((ctx.structs.lookup f.type).isSome || (ctx.unions.lookup f.type).isSome) := rfl

/-- The size of a field's element, as `processField` finds it. -/
theorem elemSize_laid {scope : Scope} {name encoding : String} {isPacked : Bool} {f : FieldDecl}
    {size : Nat} (hscope : scope.Laid rnd ctx)
    (h : ctx.elemSize rnd scope name encoding isPacked f = .ok size) (raw : Bool) :
    (ctx.enrich rnd f raw size).Laid rnd ctx scope isPacked := by
  unfold Context.elemSize at h
  by_cases hnest : ((ctx.structs.lookup f.type).isSome || (ctx.unions.lookup f.type).isSome) = true
  · rw [if_pos hnest, bind_eq_ok] at h
    obtain ⟨t, hchild, h⟩ := h
    refine ⟨⟨f, raw, rfl, fun hno => absurd hnest (by rw [← enrich_isNested, hno]; decide)⟩, ?_⟩
    intro _
    have hlook : scope.lookup f.type = some t := by
      unfold Scope.child at hchild
      split at hchild
      next t' ht' =>
        split at hchild
        · cases hchild
          exact ht'
        · cases hchild
      next => cases hchild
    split at h
    next hpack =>
      rw [pure_eq_ok] at h
      refine ⟨t, hlook, hpack, ?_⟩
      obtain ⟨rest, ht⟩ := hscope.lookup rnd ctx hlook
      have hwire := ht.wire_eq
      show size = t.total
      rw [← h]
      split
      · rfl
      next hal => rw [hwire, hpack, wireBytesOf, if_neg hal]
    next => cases h
  · rw [if_neg hnest] at h
    refine ⟨⟨f, raw, rfl, fun _ => ?_⟩, fun hyes => absurd hyes hnest⟩
    show size = ctx.leafSize rnd isPacked f
    unfold Context.leafSize
    split at h
    next hp => rw [if_pos hp, pure_eq_ok.mp h]
    next hp => rw [if_neg hp, pure_eq_ok.mp h]

/-- A field is put where it is asked to be, with the size of what it holds. -/
theorem processField_laid {scope : Scope} {name encoding : String} {isPacked : Bool}
    {offset : Nat} {f : FieldDecl} {field : Field} (hscope : scope.Laid rnd ctx)
    (h : ctx.processField rnd scope name encoding isPacked offset f = .ok field) :
    field.Laid rnd ctx scope isPacked offset := by
  unfold Context.processField at h
  rw [bind_eq_ok] at h
  obtain ⟨size, hsize, h⟩ := h
  rw [pure_eq_ok] at h
  subst h
  refine ⟨elemSize_laid hscope hsize f.rawStorage, rfl, rfl, rfl, ?_, rfl, rfl⟩
  intro harray
  cases hcount : f.count with
  | none => simp
  | some n => simp [hcount] at harray

/-- A row of fields. -/
theorem processFields_laid {scope : Scope} {name encoding : String} {isPacked : Bool}
    (hscope : scope.Laid rnd ctx) :
    ∀ (fs : List FieldDecl) {offset : Nat} {fields : List Field},
      ctx.processFields rnd scope name encoding isPacked offset fs = .ok fields →
      FieldsLaid rnd ctx scope isPacked offset fields := by
  intro fs
  induction fs with
  | nil =>
    intro offset fields h
    rw [Context.processFields, pure_eq_ok] at h
    subst h
    exact trivial
  | cons f fs ih =>
    intro offset fields h
    rw [Context.processFields, bind_eq_ok] at h
    obtain ⟨field, hfield, h⟩ := h
    rw [bind_eq_ok] at h
    obtain ⟨rest, hrest, h⟩ := h
    rw [pure_eq_ok] at h
    subst h
    exact ⟨processField_laid hscope hfield, ih hrest⟩

/-- A struct. -/
theorem processStruct_laid {scope : Scope} {name : String} {d : StructDecl} {s : Struct}
    (hscope : scope.Laid rnd ctx) (h : ctx.processStruct rnd scope name d = .ok s) :
    s.Laid rnd ctx scope := by
  unfold Context.processStruct at h
  rw [bind_eq_ok] at h
  obtain ⟨fields, hfields, h⟩ := h
  rw [pure_eq_ok] at h
  subst h
  exact ⟨processFields_laid hscope d.fields hfields, rfl, rfl, rfl⟩

/-- Folding `max` over a list bounds its elements. -/
theorem le_foldl_max {α : Type} [LinearOrder α] (l : List α) :
    ∀ (m n : α), n ≤ m ∨ n ∈ l → n ≤ l.foldl max m := by
  induction l with
  | nil =>
    intro m n h
    exact h.resolve_right List.not_mem_nil
  | cons a l ih =>
    intro m n h
    rw [List.foldl_cons]
    rcases h with h | h
    · exact ih _ n (Or.inl (le_trans h (le_max_left _ _)))
    · rcases List.mem_cons.mp h with rfl | hmem
      · exact ih _ n (Or.inl (le_max_right _ _))
      · exact ih _ n (Or.inr hmem)

/-- The tag has a value for every variant. -/
theorem tagBits_fits (count : Nat) :
    count ≤ 2 ^ (if count > 1 then max 1 (ceilLog2 count) else 1) := by
  split
  · calc count ≤ 2 ^ ceilLog2 count := Nat.le_pow_clog (by decide) count
      _ ≤ 2 ^ max 1 (ceilLog2 count) := Nat.pow_le_pow_right (by decide) (Nat.le_max_right _ _)
  · omega

/-- A variant that is neither a string nor nested is laid out like a field. -/
theorem variantSize_laid {scope : Scope} {isPacked : Bool} {f : FieldDecl} {size : Nat}
    (h : ctx.variantSize rnd scope isPacked f = .ok size)
    (hleaf : (ctx.enrich rnd f false size).isNested = false)
    (htype : f.type ≠ "string") :
    (ctx.enrich rnd f false size).Laid rnd ctx [] isPacked := by
  refine ⟨⟨f, false, rfl, fun _ => ?_⟩, fun hyes => absurd hyes (by rw [hleaf]; decide)⟩
  have hnostruct : ¬ (ctx.structs.lookup f.type).isSome = true := by
    intro hs
    rw [enrich_isNested, hs] at hleaf
    cases hleaf
  unfold Context.variantSize at h
  rw [if_neg hnostruct] at h
  show size = ctx.leafSize rnd isPacked f
  unfold Context.leafSize
  split at h
  next hp => rw [if_pos hp, pure_eq_ok.mp h]
  next hp =>
    rw [if_neg hp, ← pure_eq_ok.mp h]
    unfold variantByteSize fieldByteSize
    rw [if_neg htype]
    by_cases he : (ctx.enums.lookup f.type).isSome = true
    · simp [he]
    · by_cases hb : f.type = "bool" <;> simp [he, hb]

/-- A union: a tag, and room for its largest variant. -/
theorem enrichUnion_laid {scope : Scope} {name : String} {d : UnionDecl} {u : Union}
    (h : ctx.enrichUnion rnd scope name d = .ok u) : u.Laid rnd ctx := by
  unfold Context.enrichUnion at h
  rw [bind_eq_ok] at h
  obtain ⟨variants, hvariants, h⟩ := h
  rw [pure_eq_ok] at h
  subst h
  obtain ⟨hlen, hall⟩ := mapM_ok hvariants
  refine ⟨?_, ?_, rfl, Nat.le_add_right .., ?_, rfl⟩
  · intro v hv hleaf hstr
    obtain ⟨f, -, hf⟩ := hall v hv
    rw [bind_eq_ok] at hf
    obtain ⟨size, hsize, hf⟩ := hf
    rw [pure_eq_ok] at hf
    subst hf
    exact variantSize_laid hsize hleaf hstr
  · intro v hv
    refine Nat.add_le_add_left (le_foldl_max _ 0 _ (Or.inr ?_)) _
    exact List.mem_map_of_mem hv
  · show variants.length ≤ _
    rw [hlen]
    exact tagBits_fits _

/-- What `processType` makes of a name: a union, or else a struct. -/
inductive Context.Makes (rnd : Rat → Rat) (ctx : Context) (scope : Scope) (name : String) :
    TypeDef → Prop
  | union {d : UnionDecl} {u : Union} (declared : ctx.unions.lookup name = some d)
      (made : ctx.enrichUnion rnd scope name d = .ok u) : Makes rnd ctx scope name (.union u)
  | struct {d : StructDecl} {s : Struct} (no_union : ctx.unions.lookup name = none)
      (declared : ctx.structs.lookup name = some d)
      (made : ctx.processStruct rnd scope name d = .ok s) : Makes rnd ctx scope name (.struct s)

/-- One type more stands in front of the scope. -/
theorem processType_makes {scope scope' : Scope} {name : String}
    (h : ctx.processType rnd scope name = .ok scope') :
    ∃ t, scope' = (name, t) :: scope ∧ ctx.Makes rnd scope name t := by
  unfold Context.processType at h
  split at h
  next hu =>
    rw [bind_eq_ok] at h
    obtain ⟨u, hmade, h⟩ := h
    rw [pure_eq_ok] at h
    exact ⟨.union u, h.symm, .union hu hmade⟩
  next hnone hs =>
    rw [bind_eq_ok] at h
    obtain ⟨s, hmade, h⟩ := h
    rw [pure_eq_ok] at h
    exact ⟨.struct s, h.symm, .struct hnone hs hmade⟩
  next => cases h

/-- And it is laid out over that scope. -/
theorem processType_laid {scope scope' : Scope} {name : String}
    (h : ctx.processType rnd scope name = .ok scope') (hscope : scope.Laid rnd ctx) :
    scope'.Laid rnd ctx := by
  obtain ⟨t, rfl, hmakes⟩ := processType_makes h
  cases hmakes with
  | union _ hu => exact ⟨enrichUnion_laid hu, hscope⟩
  | struct _ _ hs => exact ⟨processStruct_laid hscope hs, hscope⟩

/-! ## Where a type comes from -/

/-- The type was made from its declaration, over some of the types before it. -/
def TypeDef.Made (rnd : Rat → Rat) (ctx : Context) (name : String) : TypeDef → Prop
  | .struct s => ∃ scope d, ctx.structs.lookup name = some d ∧
      ctx.processStruct rnd scope name d = .ok s
  | .union u => ∃ scope d, ctx.unions.lookup name = some d ∧
      ctx.enrichUnion rnd scope name d = .ok u

/-- What a type was made into bears its name. -/
theorem Context.Makes.made {scope : Scope} {name : String} {t : TypeDef}
    (h : ctx.Makes rnd scope name t) : t.Made rnd ctx name := by
  cases h with
  | union hd hu => exact ⟨scope, _, hd, hu⟩
  | struct _ hd hs => exact ⟨scope, _, hd, hs⟩

/-- The declared names of a schema, with its processed enums. -/
def SchemaDecl.context (schema : SchemaDecl) (enumDefs : Dict Enum) : Context where
  enums := schema.enums
  enumDefs := enumDefs
  structs := schema.structs
  unions := schema.unions
  defaultEncoding := schema.defaultEncoding

/-- The parts a processed schema was put together from. -/
structure Processed (rnd : Rat → Rat) (schema : SchemaDecl) (data : Data) (order : List String) :
    Prop where
  enums : schema.enums.mapM (fun e => do
    let enum ← processEnum e.1 e.2
    return (e.1, enum)) = .ok data.enums
  sorted : topoSortTypes schema.structs schema.unions = .ok order
  types : order.foldlM ((schema.context data.enums).processType rnd) [] = .ok data.types
  messages : data.messages = schema.messages.map fun m => processMessage m.1 m.2

/-- A schema that is processed has an order in which its types were made. -/
theorem processSchema_ok {schema : SchemaDecl} {data : Data}
    (hp : processSchema rnd schema = .ok data) : ∃ order, Processed rnd schema data order := by
  unfold processSchema at hp
  rw [bind_eq_ok] at hp
  obtain ⟨defs, hdefs, hp⟩ := hp
  rw [bind_eq_ok] at hp
  obtain ⟨order, horder, hp⟩ := hp
  rw [bind_eq_ok] at hp
  obtain ⟨types, htypes, hp⟩ := hp
  rw [pure_eq_ok] at hp
  subst hp
  exact ⟨order, hdefs, horder, htypes, rfl⟩

/-- Every type was made in its turn. -/
theorem Processed.makes {schema : SchemaDecl} {data : Data} {order : List String}
    (h : Processed rnd schema data order) :
    ∀ t ∈ data.types, ∃ scope, (schema.context data.enums).Makes rnd scope t.1 t.2 := by
  apply @foldlM_ok_of_step _ _ _ _ (fun types : Scope => ∀ t ∈ types,
    ∃ scope, (schema.context data.enums).Makes rnd scope t.1 t.2) ?_ order _ _ h.types
  · intro t ht
    cases ht
  · intro scope name scope' hstep hs
    obtain ⟨t, rfl, hmakes⟩ := processType_makes hstep
    intro t' ht'
    rcases List.mem_cons.mp ht' with rfl | ht'
    · exact ⟨scope, hmakes⟩
    · exact hs t' ht'

/-- Every type of a processed schema was made from its declaration. -/
theorem processSchema_made {schema : SchemaDecl} {data : Data}
    (hp : processSchema rnd schema = .ok data) :
    ∃ ctx : Context, ctx.unions = schema.unions ∧ ∀ t ∈ data.types, t.2.Made rnd ctx t.1 := by
  obtain ⟨order, h⟩ := processSchema_ok hp
  refine ⟨schema.context data.enums, rfl, fun t ht => ?_⟩
  obtain ⟨_, hmakes⟩ := h.makes t ht
  exact hmakes.made

/-- The key of a struct is its name. -/
theorem TypeDef.Made.struct_name {name : String} {s : Struct}
    (h : (TypeDef.struct s).Made rnd ctx name) : s.name = name := by
  obtain ⟨scope, d, -, hs⟩ := h
  unfold Context.processStruct at hs
  rw [bind_eq_ok] at hs
  obtain ⟨fields, -, hs⟩ := hs
  rw [pure_eq_ok] at hs
  rw [← hs]

/-- A union has the name it was declared with. -/
theorem TypeDef.Made.union_name {name : String} {u : Union}
    (h : (TypeDef.union u).Made rnd ctx name) : u.name = name := by
  obtain ⟨scope, d, -, hu⟩ := h
  unfold Context.enrichUnion at hu
  rw [bind_eq_ok] at hu
  obtain ⟨variants, -, hu⟩ := hu
  rw [pure_eq_ok] at hu
  rw [← hu]

/-! ## Enum tables -/

/-- What the templates rely on in an enum. -/
structure Enum.Laid (e : Enum) : Prop where
  count_eq : e.count = e.variants.length
  index_eq : ∀ i, (h : i < e.variants.length) → (e.variants[i]).index = i
  count_fits : e.count ≤ 2 ^ e.bits
  sorted : e.isRemap = true →
    e.sortedVariants = e.variants.insertionSort fun a b => a.value ≤ b.value
  max_le : e.isRemap = true → ∀ v ∈ e.variants, v.value ≤ e.maxValue

/-- The bits of an enum have a value for every variant. -/
theorem computeEnumBits_fits (e : EnumDecl) : e.variants.length ≤ 2 ^ computeEnumBits e := by
  unfold computeEnumBits
  split
  · omega
  · exact Nat.le_pow_clog (by decide) _

/-- No variant is left out. -/
theorem processVariants_length (vs : List VariantDecl) :
    (processVariants vs).length = vs.length := by
  rw [processVariants, List.length_mapIdx]

/-- The index of a variant is its place in the declaration. -/
theorem processVariants_index (vs : List VariantDecl) (i : Nat)
    (h : i < (processVariants vs).length) : ((processVariants vs)[i]).index = i := by
  simp only [processVariants, List.getElem_mapIdx]
  split <;> rfl

/-- An enum that is processed has its variants in their places and enough bits. -/
theorem processEnum_laid {name : String} {d : EnumDecl} {e : Enum}
    (h : processEnum name d = .ok e) : e.Laid ∧ e.bits = computeEnumBits d := by
  unfold processEnum at h
  simp only at h
  split at h
  next hnil =>
    have hvs : processVariants d.variants = [] := List.map_eq_nil_iff.mp hnil
    split at h
    · cases h
    · cases h
      refine ⟨⟨?_, ?_, Nat.zero_le _, fun h => (by cases h), fun h => (by cases h)⟩, rfl⟩
      · rw [hvs]; rfl
      · exact processVariants_index d.variants
  next v vs hcons =>
    cases h
    refine ⟨⟨rfl, processVariants_index d.variants, ?_, fun _ => rfl, ?_⟩, rfl⟩
    · show (processVariants d.variants).length ≤ _
      rw [processVariants_length]
      exact computeEnumBits_fits d
    · intro _ w hw
      have hmem : w.value ∈ v :: vs := hcons ▸ List.mem_map_of_mem hw
      apply le_foldl_max
      rcases List.mem_cons.mp hmem with h | h
      · exact Or.inl (le_of_eq h)
      · exact Or.inr h

/-- Every declared enum has its processed form in the context. -/
def Context.EnumsLaid (ctx : Context) : Prop :=
  ∀ type d, ctx.enums.lookup type = some d →
    ∃ e, ctx.enumDefs.lookup type = some e ∧ e.Laid ∧ e.bits = computeEnumBits d

/-- Every declared enum is found processed. -/
theorem mapM_processEnum_lookup :
    ∀ (enums : Dict EnumDecl) {defs : Dict Enum},
      enums.mapM (fun e => do
        let enum ← processEnum e.1 e.2
        return (e.1, enum)) = .ok defs →
      ∀ {type : String} {d : EnumDecl}, enums.lookup type = some d →
        ∃ e, defs.lookup type = some e ∧ processEnum type d = .ok e := by
  intro enums
  induction enums with
  | nil => intro defs _ type d h; cases h
  | cons entry enums ih =>
    intro defs h type d hd
    obtain ⟨n, decl⟩ := entry
    rw [List.mapM_cons, bind_eq_ok] at h
    obtain ⟨b, hb, h⟩ := h
    rw [bind_eq_ok] at h hb
    obtain ⟨bs, hbs, h⟩ := h
    obtain ⟨e, he, hb⟩ := hb
    rw [pure_eq_ok] at h hb
    subst h hb
    rw [List.lookup_cons] at hd ⊢
    split at hd
    next heq =>
      cases hd
      have hname : type = n := by simpa using heq
      subst hname
      exact ⟨e, by rw [heq], he⟩
    next hne =>
      rw [hne]
      exact ih hbs hd

/-! ## Leaves -/

/-- An element of an accepted type that is not nested. -/
structure Elem.Leaf (rnd : Rat → Rat) (ctx : Context) (isPacked : Bool) (e : Elem) : Prop where
  made : ∃ f raw, e = ctx.enrich rnd f raw e.size ∧ e.size = ctx.leafSize rnd isPacked f
  not_nested : e.isNested = false

section Leaf

variable {isPacked : Bool} {e : Elem}

/-- A leaf that is laid out is one of the schema. -/
theorem Elem.Laid.leaf {scope : Scope} (h : e.Laid rnd ctx scope isPacked)
    (hn : e.isNested = false) : e.Leaf rnd ctx isPacked := by
  obtain ⟨f, raw, hmade, hsize⟩ := h.made
  exact ⟨⟨f, raw, hmade, hsize hn⟩, hn⟩

/-- Signed are the types that are called `int`. -/
theorem Elem.Leaf.signed_eq (h : e.Leaf rnd ctx isPacked) :
    e.isSigned = (startsWith e.type "int" && !startsWith e.type "uint") := by
  obtain ⟨f, raw, hmade, _⟩ := h.made
  rw [hmade]
  rfl

/-- A scale of 1 counts as none. -/
theorem Elem.Leaf.hasScale_iff (h : e.Leaf rnd ctx isPacked) :
    e.hasScale = true ↔ e.scale.toRat ≠ 1 := by
  obtain ⟨f, raw, hmade, _⟩ := h.made
  rw [hmade]
  exact decide_eq_true_iff

/-- The stored minimum is the scaled one. -/
theorem Elem.Leaf.minWire_eq (h : e.Leaf rnd ctx isPacked) :
    e.minWire = e.min.map fun m => (m.mul rnd e.scale).toInt := by
  obtain ⟨f, raw, hmade, _⟩ := h.made
  rw [hmade]
  rfl

/-- A bool has one bit, or one byte. -/
theorem Elem.Leaf.bool_size (h : e.Leaf rnd ctx isPacked) (hb : e.isBool = true) : e.size = 1 := by
  obtain ⟨f, raw, hmade, hsize⟩ := h.made
  have htype : f.type = "bool" := by
    rw [hmade] at hb
    exact of_decide_eq_true hb
  rw [hsize, Context.leafSize]
  split
  · rw [computeFieldBits, if_pos htype]
  · simp [fieldByteSize, htype]

/-- The table of an enum leaf, and its size. -/
theorem Elem.Leaf.enum_eq (h : e.Leaf rnd ctx isPacked) (hctx : ctx.EnumsLaid)
    (he : e.isEnum = true) (hb : e.isBool = false) (hs : e.isString = false) :
    ∃ t, e.enum = some t ∧ t.Laid ∧ e.size = if isPacked then t.bits else 1 := by
  obtain ⟨f, raw, hmade, hsize⟩ := h.made
  rw [hmade] at he hb hs
  have htype : ¬ f.type = "bool" := of_decide_eq_false hb
  have hstr : ¬ f.type = "string" := of_decide_eq_false hs
  obtain ⟨d, hd⟩ := Option.isSome_iff_exists.mp he
  obtain ⟨t, ht, hlaid, hbits⟩ := hctx f.type d hd
  refine ⟨t, ?_, hlaid, ?_⟩
  · rw [hmade]
    exact ht
  · rw [hsize, Context.leafSize]
    split
    · rw [computeFieldBits, if_neg htype, hd, hbits]
    · have hsome : (ctx.enums.lookup f.type).isSome = true := by rw [hd]; rfl
      rw [fieldByteSize, if_neg hstr, if_pos hsome]

/-- In a packed type an enum leaf has the bits of its table, whatever the enum is called. -/
theorem Elem.Leaf.packedEnum_eq (h : e.Leaf rnd ctx true) (hctx : ctx.EnumsLaid)
    (he : e.isEnum = true) (hb : e.isBool = false) :
    ∃ t, e.enum = some t ∧ t.Laid ∧ e.size = t.bits := by
  obtain ⟨f, raw, hmade, hsize⟩ := h.made
  rw [hmade] at he hb
  have htype : ¬ f.type = "bool" := of_decide_eq_false hb
  obtain ⟨d, hd⟩ := Option.isSome_iff_exists.mp he
  obtain ⟨t, ht, hlaid, hbits⟩ := hctx f.type d hd
  refine ⟨t, ?_, hlaid, ?_⟩
  · rw [hmade]
    exact ht
  · rw [hsize, Context.leafSize, if_pos rfl, computeFieldBits, if_neg htype, hd, hbits]

end Leaf

/-! ## `validate_schema` -/

/-- A field of an accepted struct. -/
structure Field.Valid (f : Field) : Prop where
  array : f.decl.count.isSome = true → f.decl.optional = false ∧ f.elem.isString = false
  optional : f.decl.optional = true → f.elem.isString = false

/-- A variant of an accepted union. -/
structure Variant.Valid (v : Variant) : Prop where
  not_string : v.elem.type ≠ "string"
  leaf : v.elem.isNested = false
  known : v.elem.type ∈ primitiveTypes ∨ v.elem.isEnum = true

/-- Every field or variant of the type is valid. -/
def TypeDef.Valid : TypeDef → Prop
  | .struct s => ∀ f ∈ s.fields, f.Valid
  | .union u => ∀ v ∈ u.variants, v.Valid

/-- A variant of an accepted union is laid out over any scope, and no string. -/
theorem Union.Laid.variant {u : Union} (h : u.Laid rnd ctx) (hv : ∀ w ∈ u.variants, w.Valid)
    {w : Variant} (hw : w ∈ u.variants) (scope : Scope) :
    w.elem.Laid rnd ctx scope u.isPacked ∧ w.elem.isString = false := by
  have hvalid := hv w hw
  have hlaid := h.variants w hw hvalid.leaf hvalid.not_string
  refine ⟨⟨hlaid.made, fun hn => ?_⟩, ?_⟩
  · rw [hvalid.leaf] at hn
    cases hn
  · obtain ⟨f, raw, hmade, _⟩ := hlaid.made
    have hne := hvalid.not_string
    rw [hmade] at hne ⊢
    exact decide_eq_false hne

/-- A field without errors is valid. -/
theorem validateField_valid {struct : String} {isPacked : Bool} {f : Field}
    (h : validateField rnd struct isPacked f = []) : f.Valid := by
  unfold validateField at h
  simp only [List.append_eq_nil_iff, errorIf_eq_nil] at h
  obtain ⟨⟨⟨⟨_, hcount⟩, hopt⟩, _⟩, _⟩ := h
  constructor
  · intro hsome
    obtain ⟨n, hn⟩ := Option.isSome_iff_exists.mp hsome
    rw [hn] at hcount
    simp only [List.append_eq_nil_iff, errorIf_eq_nil] at hcount
    exact ⟨by simpa using hcount.2, by simpa using hcount.1.2⟩
  · intro ho
    simpa [ho] using hopt

/-- So is a variant. -/
theorem validateVariant_valid {union : String} {v : Variant}
    (h : validateVariant union v = []) : v.Valid := by
  unfold validateVariant at h
  by_cases hs : v.elem.type = "string"
  · rw [if_pos hs] at h
    cases h
  rw [if_neg hs] at h
  by_cases hu : v.elem.isUnion = true
  · rw [if_pos hu] at h
    cases h
  rw [if_neg hu] at h
  by_cases ht : v.elem.isStruct = true
  · rw [if_pos ht] at h
    cases h
  rw [if_neg ht, errorIf_eq_nil] at h
  exact ⟨hs, by simp [Elem.isNested, hu, ht], not_not.mp h⟩

/-- And every type of a schema without errors. -/
theorem validateSchema_valid {data : Data} (h : validateSchema rnd data = []) :
    ∀ t ∈ data.types, t.2.Valid := by
  unfold validateSchema at h
  simp only [List.append_eq_nil_iff, List.flatMap_eq_nil_iff] at h
  obtain ⟨⟨⟨⟨⟨⟨hunions, _⟩, hstructs⟩, _⟩, _⟩, _⟩, _⟩ := h
  intro t ht
  obtain ⟨name, def_⟩ := t
  cases def_ with
  | struct s =>
    have hmem : s ∈ data.structs :=
      List.mem_filterMap.mpr ⟨(name, .struct s), List.mem_reverse.mpr ht, rfl⟩
    have hs := hstructs s hmem
    unfold validateStruct at hs
    simp only [List.append_eq_nil_iff, List.flatMap_eq_nil_iff] at hs
    intro f hf
    exact validateField_valid (hs.2 f hf)
  | union u =>
    have hmem : u ∈ data.unions :=
      List.mem_filterMap.mpr ⟨(name, .union u), List.mem_reverse.mpr ht, rfl⟩
    have hu := hunions u hmem
    unfold validateUnion at hu
    simp only [List.append_eq_nil_iff, List.flatMap_eq_nil_iff] at hu
    intro v hv
    exact validateVariant_valid (hu.2 v hv)

/-! ## Accepted schemas -/

/-- Types that are laid out over one another and valid. -/
structure Scope.Accepted (rnd : Rat → Rat) (ctx : Context) (scope : Scope) : Prop where
  laid : scope.Laid rnd ctx
  valid : ∀ t ∈ scope, t.2.Valid

/-- The rest of an accepted scope is accepted. -/
theorem Scope.Accepted.tail {entry : String × TypeDef} {rest : Scope}
    (h : Scope.Accepted rnd ctx (entry :: rest)) : Scope.Accepted rnd ctx rest :=
  ⟨h.laid.2, fun t ht => h.valid t (List.mem_cons_of_mem _ ht)⟩

/-- What the codec relies on. -/
structure Data.Accepted (rnd : Rat → Rat) (ctx : Context) (data : Data) : Prop where
  types : data.types.Accepted rnd ctx
  enums : ctx.EnumsLaid

/-- **Every schema that `process_schema` and `validate_schema` accept is laid out.** -/
theorem accepted {schema : SchemaDecl} {data : Data} (hp : processSchema rnd schema = .ok data)
    (hv : validateSchema rnd data = []) : ∃ ctx, data.Accepted rnd ctx := by
  obtain ⟨order, h⟩ := processSchema_ok hp
  refine ⟨_, ⟨foldlM_ok_of_step (fun _ _ _ h hs => processType_laid h hs) order h.types trivial,
    validateSchema_valid hv⟩, ?_⟩
  intro type d hd
  obtain ⟨e, he, hproc⟩ := mapM_processEnum_lookup schema.enums h.enums hd
  exact ⟨e, he, processEnum_laid hproc⟩

end ProtoEmb.Schema

import ProtoEmb.Schema.Layout

/-!
# Another `remap_style`

`remap_style` says which table C searches for a wire index, or leaves the choice to the
generator. A schema that differs from another one in nothing but these keys is processed to
data that differ in nothing but the chosen tables (`processSchema_restyle`): offsets, sizes
and the order of the types never depend on them.

`style` gives the key of every enum by name, or `none` where the generator chooses.
-/

namespace ProtoEmb.Schema

open ProtoEmb.Lib

variable (style : String → Option String)

/-! ## Declarations -/

/-- The declaration with this `remap_style` in place of its own. -/
def EnumDecl.restyle (s : Option String) (e : EnumDecl) : EnumDecl := { e with remapStyle := s }

/-- The schema with other `remap_style` keys. -/
def SchemaDecl.restyle (schema : SchemaDecl) : SchemaDecl :=
  { schema with enums := schema.enums.map fun e => (e.1, e.2.restyle (style e.1)) }

/-! ## Processed data -/

/-- An enum without variants has no table to choose. -/
def Enum.restyle (s : Option String) (e : Enum) : Enum :=
  if e.variants = [] then e else { e with remapStyle := remapStyleOf s e.maxValue e.count }

/-- Only an enum leaf carries a table, so only that changes. -/
def Elem.restyle (e : Elem) : Elem :=
  if e.isEnum then { e with enum := e.enum.map (Enum.restyle (style e.type)) } else e

def Field.restyle (f : Field) : Field := { f with elem := f.elem.restyle style }

def Struct.restyle (s : Struct) : Struct := { s with fields := s.fields.map (Field.restyle style) }

def Variant.restyle (v : Variant) : Variant := { v with elem := v.elem.restyle style }

def Union.restyle (u : Union) : Union :=
  { u with variants := u.variants.map (Variant.restyle style) }

/-- A type whose enum leaves have the tables of these styles. -/
def TypeDef.restyle : TypeDef → TypeDef
  | .struct s => .struct (s.restyle style)
  | .union u => .union (u.restyle style)

/-- Every type of the scope, under its name and at its place. -/
def Scope.restyle (scope : Scope) : Scope := scope.map fun t => (t.1, t.2.restyle style)

/-- What the templates read, with the tables of these styles. -/
def Data.restyle (data : Data) : Data :=
  { data with
    enums := data.enums.map fun e => (e.1, e.2.restyle (style e.1))
    types := Scope.restyle style data.types }

/-! ## Nothing else changes -/

section Unchanged

variable {style}

/-- An enum is a remap enum by its values, not by its table. -/
@[simp] theorem Enum.restyle_isRemap (s : Option String) (e : Enum) :
    (e.restyle s).isRemap = e.isRemap := by
  unfold Enum.restyle
  split <;> rfl

@[simp] theorem TypeDef.restyle_isPacked (t : TypeDef) :
    (t.restyle style).isPacked = t.isPacked := by
  cases t <;> rfl

@[simp] theorem TypeDef.restyle_encoding (t : TypeDef) :
    (t.restyle style).encoding = t.encoding := by
  cases t <;> rfl

/-- A table takes no room on the wire, so sizes stay. -/
@[simp] theorem TypeDef.restyle_total (t : TypeDef) : (t.restyle style).total = t.total := by
  cases t <;> rfl

@[simp] theorem TypeDef.restyle_wireSize (t : TypeDef) :
    (t.restyle style).wireSize = t.wireSize := by
  cases t <;> rfl

@[simp] theorem TypeDef.restyle_isUnion (t : TypeDef) : (t.restyle style).isUnion = t.isUnion := by
  cases t <;> rfl

/-- The variants and their values stay, only the search changes. -/
@[simp] theorem Enum.restyle_variants (s : Option String) (e : Enum) :
    (e.restyle s).variants = e.variants := by
  unfold Enum.restyle
  split <;> rfl

/-- Both tables of an enum stay as they are. -/
theorem Enum.Laid.restyle {e : Enum} (h : e.Laid) (s : Option String) : (e.restyle s).Laid := by
  unfold Enum.restyle
  split
  · exact h
  · exact ⟨h.count_eq, h.index_eq, h.count_fits, h.sorted, h.max_le⟩

/-- A leaf that is no enum has nothing to restyle. -/
theorem Elem.restyle_of_not_enum {e : Elem} (h : e.isEnum = false) : e.restyle style = e := by
  rw [Elem.restyle, h, if_neg Bool.false_ne_true]

/-- An enum leaf gets the table that the style names for its type. -/
theorem Elem.restyle_of_enum {e : Elem} (h : e.isEnum = true) :
    e.restyle style = { e with enum := e.enum.map (Enum.restyle (style e.type)) } := by
  rw [Elem.restyle, if_pos h]

@[simp] theorem Elem.restyle_type (e : Elem) : (e.restyle style).type = e.type := by
  unfold Elem.restyle
  split <;> rfl

/-- The bits of an enum leaf are counted from its variants. -/
@[simp] theorem Elem.restyle_size (e : Elem) : (e.restyle style).size = e.size := by
  unfold Elem.restyle
  split <;> rfl

@[simp] theorem Elem.restyle_isBool (e : Elem) : (e.restyle style).isBool = e.isBool := by
  unfold Elem.restyle
  split <;> rfl

@[simp] theorem Elem.restyle_isNested (e : Elem) : (e.restyle style).isNested = e.isNested := by
  unfold Elem.restyle
  split <;> rfl

@[simp] theorem Field.restyle_elem (f : Field) :
    (f.restyle style).elem = f.elem.restyle style := rfl

@[simp] theorem Field.restyle_isArray (f : Field) : (f.restyle style).isArray = f.isArray := rfl

@[simp] theorem Field.restyle_arrayLen (f : Field) : (f.restyle style).arrayLen = f.arrayLen := rfl

@[simp] theorem Field.restyle_isOptional (f : Field) :
    (f.restyle style).isOptional = f.isOptional := rfl

/-- Offsets do not depend on the tables. -/
@[simp] theorem Field.restyle_offset (f : Field) : (f.restyle style).offset = f.offset := rfl

@[simp] theorem Field.restyle_valueOffset (f : Field) :
    (f.restyle style).valueOffset = f.valueOffset := rfl

/-- A restyled type refers to the restyled leaves, in the same order. -/
theorem TypeDef.restyle_references (t : TypeDef) :
    (t.restyle style).references = t.references.map (Elem.restyle style) := by
  cases t with
  | struct s =>
    show (s.fields.map (Field.restyle style)).map Field.elem = (s.fields.map Field.elem).map _
    rw [List.map_map, List.map_map]
    rfl
  | union u =>
    show (u.variants.map (Variant.restyle style)).map Variant.elem
      = (u.variants.map Variant.elem).map _
    rw [List.map_map, List.map_map]
    rfl

/-- Looking up a name finds the image of what stood there; the image may depend on the name. -/
theorem lookup_map {α β : Type} (f : String → α → β) (d : Dict α) (name : String) :
    (d.map fun e => (e.1, f e.1 e.2)).lookup name = (d.lookup name).map (f name) := by
  induction d with
  | nil => rfl
  | cons e d ih =>
    rw [List.map_cons, List.lookup_cons, List.lookup_cons, ih]
    cases heq : name == e.1 with
    | false => rfl
    | true => rw [beq_iff_eq.mp heq]; rfl

/-- A name is found in the restyled scope exactly if it was in the scope. -/
theorem Scope.restyle_lookup (scope : Scope) (name : String) :
    (Scope.restyle style scope).lookup name = (scope.lookup name).map (TypeDef.restyle style) :=
  lookup_map (fun _ => TypeDef.restyle style) scope name

end Unchanged

/-! ## `process_schema` -/

/-- The declared names with other keys, and the enums processed with these. -/
def Context.restyle (ctx : Context) : Context :=
  { ctx with
    enums := ctx.enums.map fun e => (e.1, e.2.restyle (style e.1))
    enumDefs := ctx.enumDefs.map fun e => (e.1, e.2.restyle (style e.1)) }

section Process

variable {rnd : Rat → Rat} {style} {ctx : Context}

/-- Processing an enum under another `remap_style` gives the same enum with another table. -/
theorem processEnum_restyle (name : String) (s : Option String) (d : EnumDecl) :
    Enum.restyle s <$> processEnum name d = processEnum name (d.restyle s) := by
  obtain ⟨variants, remap, _⟩ := d
  unfold processEnum
  simp only [EnumDecl.restyle]
  cases hvs : processVariants variants with
  | nil =>
    cases remap with
    | true => rfl
    | false => exact congrArg Except.ok (if_pos rfl)
  | cons v vs =>
    simp only [List.map_cons]
    exact congrArg Except.ok (if_neg (List.cons_ne_nil v vs))

/-- The context of the restyled schema declares the same enums. -/
theorem enums_lookup_restyle (type : String) :
    (ctx.restyle style).enums.lookup type
      = (ctx.enums.lookup type).map (EnumDecl.restyle (style type)) :=
  lookup_map (fun n => EnumDecl.restyle (style n)) ctx.enums type

/-- The bits of a field are computed without looking at a table. -/
theorem computeFieldBits_restyle (f : FieldDecl) :
    computeFieldBits rnd f (ctx.restyle style).enums = computeFieldBits rnd f ctx.enums := by
  unfold computeFieldBits
  rw [enums_lookup_restyle]
  cases ctx.enums.lookup f.type <;> rfl

/-- An enum that is not declared is not processed. -/
def Context.EnumsDeclared (ctx : Context) : Prop :=
  ∀ type, ctx.enums.lookup type = none → ctx.enumDefs.lookup type = none

/-- Enriching a leaf commutes with restyling it. -/
theorem enrich_restyle (hctx : ctx.EnumsDeclared) (f : FieldDecl) (raw : Bool) (size : Nat) :
    (ctx.restyle style).enrich rnd f raw size = (ctx.enrich rnd f raw size).restyle style := by
  have hdefs : (ctx.restyle style).enumDefs.lookup f.type
      = (ctx.enumDefs.lookup f.type).map (Enum.restyle (style f.type)) :=
    lookup_map (fun n => Enum.restyle (style n)) ctx.enumDefs f.type
  cases hd : ctx.enums.lookup f.type with
  | none =>
    rw [hctx f.type hd] at hdefs
    rw [Elem.restyle_of_not_enum (by simp [Context.enrich, hd])]
    simp only [Context.enrich, enums_lookup_restyle, hdefs, hctx f.type hd, hd, Option.map_none]
    rfl
  | some d =>
    rw [Elem.restyle_of_enum (by simp [Context.enrich, hd])]
    simp only [Context.enrich, enums_lookup_restyle, hdefs, hd, Option.map_some]
    rfl

/-- What a nested field embeds is the restyled type. -/
theorem child_restyle (scope : Scope) (isStruct : Bool) (type : String) :
    TypeDef.restyle style <$> scope.child isStruct type
      = (Scope.restyle style scope).child isStruct type := by
  unfold Scope.child
  rw [Scope.restyle_lookup]
  cases scope.lookup type with
  | none => rfl
  | some t =>
    simp only [Option.map_some, TypeDef.restyle_isUnion]
    split <;> rfl

/-- An element is as large as before. -/
theorem elemSize_restyle (scope : Scope) (name encoding : String) (isPacked : Bool)
    (f : FieldDecl) :
    (ctx.restyle style).elemSize rnd (Scope.restyle style scope) name encoding isPacked f
      = ctx.elemSize rnd scope name encoding isPacked f := by
  unfold Context.elemSize
  simp only [← child_restyle, computeFieldBits_restyle, enums_lookup_restyle, Option.isSome_map,
    bind_map_left, TypeDef.restyle_isPacked, TypeDef.restyle_total, TypeDef.restyle_wireSize,
    TypeDef.restyle_encoding]
  rfl

/-- A field lands on the same offset, with its leaf restyled. -/
theorem processField_restyle (hctx : ctx.EnumsDeclared) (scope : Scope)
    (name encoding : String) (isPacked : Bool)
    (offset : Nat) (f : FieldDecl) :
    Field.restyle style <$> ctx.processField rnd scope name encoding isPacked offset f
      = (ctx.restyle style).processField rnd (Scope.restyle style scope) name encoding isPacked
          offset f := by
  unfold Context.processField
  simp only [elemSize_restyle, enrich_restyle hctx, map_bind, map_pure]
  rfl

/-- The fields of a struct, one after the other, keep their offsets. -/
theorem processFields_restyle (hctx : ctx.EnumsDeclared) (scope : Scope)
    (name encoding : String) (isPacked : Bool) :
    ∀ (fs : List FieldDecl) (offset : Nat),
      List.map (Field.restyle style) <$>
          ctx.processFields rnd scope name encoding isPacked offset fs
        = (ctx.restyle style).processFields rnd (Scope.restyle style scope) name encoding isPacked
            offset fs := by
  intro fs
  induction fs with
  | nil => intro offset; rfl
  | cons f fs ih =>
    intro offset
    simp only [Context.processFields, ← processField_restyle hctx, ← ih, map_bind, map_pure,
      bind_map_left, List.map_cons]
    rfl

/-- A struct has the same layout and restyled leaves. -/
theorem processStruct_restyle (hctx : ctx.EnumsDeclared) (scope : Scope)
    (name : String) (s : StructDecl) :
    Struct.restyle style <$> ctx.processStruct rnd scope name s
      = (ctx.restyle style).processStruct rnd (Scope.restyle style scope) name s := by
  unfold Context.processStruct
  simp only [← processFields_restyle hctx, map_bind, map_pure, bind_map_left, List.any_map,
    List.map_map]
  simp only [Function.comp_def, Field.restyle, Elem.restyle_isNested]
  rfl

/-- A variant of a union is as large as before. -/
theorem variantSize_restyle (scope : Scope) (isPacked : Bool) (v : FieldDecl) :
    (ctx.restyle style).variantSize rnd (Scope.restyle style scope) isPacked v
      = ctx.variantSize rnd scope isPacked v := by
  unfold Context.variantSize
  simp only [← child_restyle, computeFieldBits_restyle, enums_lookup_restyle, Option.isSome_map,
    bind_map_left, TypeDef.restyle_isPacked, TypeDef.restyle_total, TypeDef.restyle_wireSize]
  rfl

/-- A union has the same tag, the same size and restyled variants. -/
theorem enrichUnion_restyle (hctx : ctx.EnumsDeclared) (scope : Scope)
    (name : String) (u : UnionDecl) :
    Union.restyle style <$> ctx.enrichUnion rnd scope name u
      = (ctx.restyle style).enrichUnion rnd (Scope.restyle style scope) name u := by
  have hvariant : ∀ (isPacked : Bool) (v : FieldDecl),
      Variant.restyle style <$> (do
        let size ← ctx.variantSize rnd scope isPacked v
        return { name := v.name, elem := ctx.enrich rnd v false size : Variant })
      = (do
        let size ← (ctx.restyle style).variantSize rnd (Scope.restyle style scope) isPacked v
        return { name := v.name,
                 elem := (ctx.restyle style).enrich rnd v false size : Variant }) := by
    intro isPacked v
    simp only [variantSize_restyle, enrich_restyle hctx, map_bind, map_pure]
    rfl
  have hvariants := map_mapM (hvariant (ctx.encoding u.encoding = "packed")) u.variants
  have hsizes : ∀ vs : List Variant, (vs.map (Variant.restyle style)).map (fun v => v.elem.size)
      = vs.map fun v => v.elem.size := fun vs => by
    rw [List.map_map]
    exact List.map_congr_left fun v _ => Elem.restyle_size v.elem
  unfold Context.enrichUnion
  simp only [map_bind, map_pure]
  rw [show (ctx.restyle style).encoding u.encoding = ctx.encoding u.encoding from rfl, ← hvariants]
  simp only [bind_map_left, hsizes]
  rfl

/-- One type more in the scope, whichever it is. -/
theorem processType_restyle (hctx : ctx.EnumsDeclared) (scope : Scope) (name : String) :
    Scope.restyle style <$> ctx.processType rnd scope name
      = (ctx.restyle style).processType rnd (Scope.restyle style scope) name := by
  unfold Context.processType
  have hunions : (ctx.restyle style).unions = ctx.unions := rfl
  have hstructs : (ctx.restyle style).structs = ctx.structs := rfl
  rw [hunions, hstructs]
  cases ctx.unions.lookup name with
  | some u =>
    simp only [← enrichUnion_restyle hctx, map_bind, map_pure, bind_map_left]
    rfl
  | none =>
    cases ctx.structs.lookup name with
    | some s =>
      simp only [← processStruct_restyle hctx, map_bind, map_pure, bind_map_left]
      rfl
    | none => rfl

/-- All enums of the schema at once. -/
theorem processEnums_restyle (enums : Dict EnumDecl) :
    List.map (fun e => (e.1, e.2.restyle (style e.1))) <$> enums.mapM (fun e => do
        let enum ← processEnum e.1 e.2
        return (e.1, enum))
      = (enums.map fun e => (e.1, e.2.restyle (style e.1))).mapM (fun e => do
        let enum ← processEnum e.1 e.2
        return (e.1, enum)) := by
  rw [List.mapM_map]
  refine map_mapM (fun e => ?_) enums
  simp only [Function.comp_apply, ← processEnum_restyle, map_bind, map_pure, bind_map_left]

/-- The types in their order: an induction over it, one type at a time. -/
theorem processTypes_restyle (hctx : ctx.EnumsDeclared) (order : List String) :
    Scope.restyle style <$> order.foldlM (ctx.processType rnd) []
      = order.foldlM ((ctx.restyle style).processType rnd) [] :=
  map_foldlM order [] fun name _ scope => processType_restyle hctx scope name

/-- Every processed enum comes from a declaration of its name. -/
theorem enumsDeclared {schema : SchemaDecl} {defs : Dict Enum}
    (h : schema.enums.mapM (fun e => do
      let enum ← processEnum e.1 e.2
      return (e.1, enum)) = .ok defs) : (schema.context defs).EnumsDeclared := by
  intro type hnone
  rw [List.lookup_eq_none_iff] at hnone ⊢
  intro e he
  obtain ⟨entry, hmem, hentry⟩ := (mapM_ok h).2 e he
  rw [bind_eq_ok] at hentry
  obtain ⟨enum, -, hentry⟩ := hentry
  rw [pure_eq_ok] at hentry
  rw [← hentry]
  exact hnone entry hmem

/-- **Other `remap_style` keys choose other tables and change nothing else.** -/
theorem processSchema_restyle (schema : SchemaDecl) :
    Data.restyle style <$> processSchema rnd schema
      = processSchema rnd (schema.restyle style) := by
  unfold processSchema
  simp only [SchemaDecl.restyle, ← processEnums_restyle, map_bind, map_pure, bind_map_left]
  cases hdefs : schema.enums.mapM (fun e => do
      let enum ← processEnum e.1 e.2
      return (e.1, enum)) with
  | error e => rfl
  | ok defs =>
    have htypes := @processTypes_restyle style rnd _ (enumsDeclared hdefs)
    simp only [SchemaDecl.context, Context.restyle] at htypes
    show (topoSortTypes schema.structs schema.unions >>= fun order => _) = _
    congr 1
    funext order
    rw [← htypes, bind_map_left]
    rfl

end Process

end ProtoEmb.Schema

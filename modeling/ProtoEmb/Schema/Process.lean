import ProtoEmb.Schema.Syntax
import Mathlib.Data.List.Sort

/-!
# `process_schema`

`generate.py`, from a schema to the enriched data the templates read: enum tables, the dependency
order of structs and unions, and the layout of every type. The underscored keys the
generator adds are the fields here, under the same words.

A struct or union is laid out either in bits (`packed`) or in bytes (`aligned`).
The generator keeps two sets of keys for that, `_bit_offset` and `_byte_offset` and
so on; here one set is used for both, in the unit of the type (`Elem.size` is
`_elem_bits` or `_elem_byte_size`, `Field.offset` is `_bit_offset` or
`_byte_offset`).

The templates call the code of a nested type by name, so a processed schema is a
*scope*: the types in dependency order, the last one first, each of which refers
only to types after it in the list.
-/

namespace ProtoEmb.Schema

variable (rnd : Rat → Rat)

/-- `math.ceil(math.log2(n))`. The float logarithm gives the exact ceiling below
`2 ^ 48`; a field that wide is beyond what the codecs support. -/
def ceilLog2 (n : Nat) : Nat := Nat.clog 2 n

/-! ## Enums -/

structure EnumVariant where
  name : String
  value : Int
  index : Nat
  deriving DecidableEq

/-- How a remap enum's semantic value is turned into its wire index. -/
inductive RemapStyle where
  | array
  | search
  deriving DecidableEq

structure Enum where
  name : String
  isRemap : Bool
  bits : Nat
  variants : List EnumVariant
  count : Nat
  maxValue : Int
  remapStyle : RemapStyle
  sortedVariants : List EnumVariant
  deriving DecidableEq

/-- `compute_enum_bits`. -/
def computeEnumBits (e : EnumDecl) : Nat :=
  if e.variants.length ≤ 1 then 1 else ceilLog2 e.variants.length

/-- The variants with their index; an undeclared value is the index. -/
def processVariants (vs : List VariantDecl) : List EnumVariant :=
  vs.mapIdx fun i v =>
    match v with
    | .plain name => { name, value := i, index := i }
    | .valued name value => { name, value, index := i }

/-- A dense value table is dropped for a sorted one when it would be large and
mostly empty. -/
def remapStyleOf (style : Option String) (maxValue : Int) (count : Nat) : RemapStyle :=
  if style = some "array" then .array
  else if style = some "search" then .search
  else if maxValue + 1 > 32 ∧ (count * 2 : Int) < maxValue + 1 then .search else .array

/-- The errors of `process_schema`. -/
inductive ProcessError where
  | cycle (path : List String)
  | encodingMismatch (struct field type childEncoding encoding : String)
  | keyError (key : String)
  | emptyRemap (enum : String)
  deriving DecidableEq

def processEnum (name : String) (e : EnumDecl) : Except ProcessError Enum :=
  let variants := processVariants e.variants
  match variants.map EnumVariant.value with
  | [] =>
    if e.remap then .error (.emptyRemap name)
    else .ok { name, isRemap := false, bits := computeEnumBits e, variants, count := 0,
               maxValue := 0, remapStyle := .array, sortedVariants := [] }
  | v :: vs =>
    let maxValue := vs.foldl max v
    .ok { name, isRemap := e.remap, bits := computeEnumBits e, variants,
          count := variants.length, maxValue,
          remapStyle := remapStyleOf e.remapStyle maxValue variants.length,
          sortedVariants := variants.insertionSort fun a b => a.value ≤ b.value }

/-! ## Fields -/

/-- What the templates know about the type of a field, an array element, an optional
value or a union variant. -/
structure Elem where
  type : String
  isEnum : Bool
  isStruct : Bool
  isUnion : Bool
  isBool : Bool
  isString : Bool
  isFloat : Bool
  isNumeric : Bool
  isSigned : Bool
  /-- `enums[f.type]` -/
  enum : Option Enum
  scale : Num
  hasScale : Bool
  rawStorage : Bool
  min : Option Num
  max : Option Num
  minWire : Option Int
  maxWire : Option Int
  maxLength : Option Nat
  /-- `_elem_bits` of a packed type, `_elem_byte_size` of an aligned one -/
  size : Nat
  deriving DecidableEq

/-- A struct or union is laid out by the code of its own. -/
def Elem.isNested (e : Elem) : Bool := e.isStruct || e.isUnion

structure Field where
  decl : FieldDecl
  elem : Elem
  isArray : Bool
  arrayLen : Nat
  isOptional : Bool
  /-- `_bits` or `_byte_size` -/
  size : Nat
  /-- `_bit_offset` or `_byte_offset` -/
  offset : Nat
  /-- `_value_bit_offset` or `_value_byte_offset` -/
  valueOffset : Nat
  deriving DecidableEq

structure Struct where
  name : String
  encoding : String
  isPacked : Bool
  hasNested : Bool
  fields : List Field
  /-- `_total_bits`, or the sum of the byte sizes -/
  total : Nat
  wireSize : Nat
  deriving DecidableEq

structure Variant where
  name : String
  elem : Elem
  deriving DecidableEq

structure Union where
  name : String
  encoding : String
  isPacked : Bool
  variants : List Variant
  tagBits : Nat
  payloadOffset : Nat
  /-- `_total_bits`, or the number of bytes -/
  total : Nat
  wireSize : Nat
  deriving DecidableEq

/-- The room of the tag: `_tag_bits` bits, or one byte. -/
def Union.tagSize (u : Union) : Nat := if u.isPacked then u.tagBits else 1

inductive TypeDef where
  | struct (s : Struct)
  | union (u : Union)
  deriving DecidableEq

namespace TypeDef

def isPacked : TypeDef → Bool
  | struct s => s.isPacked
  | union u => u.isPacked

def encoding : TypeDef → String
  | struct s => s.encoding
  | union u => u.encoding

def total : TypeDef → Nat
  | struct s => s.total
  | union u => u.total

def wireSize : TypeDef → Nat
  | struct s => s.wireSize
  | union u => u.wireSize

def isUnion : TypeDef → Bool
  | struct _ => false
  | union _ => true

/-- The types the definition refers to. -/
def references : TypeDef → List Elem
  | struct s => s.fields.map Field.elem
  | union u => u.variants.map Variant.elem

end TypeDef

/-- The processed types, the last one first. -/
abbrev Scope := List (String × TypeDef)

/-- `_needs_pack_helper`: some type embeds this one. -/
def Scope.needsPackHelper (scope : Scope) (name : String) : Bool :=
  scope.any fun t => t.2.references.any fun e => e.isNested && e.type == name

/-- The fallback widths of `compute_field_bits`. -/
def typeBits (type : String) : Nat :=
  if type = "int8" ∨ type = "uint8" then 8
  else if type = "int16" ∨ type = "uint16" then 16
  else if type = "int64" ∨ type = "uint64" then 64
  else 32

/-- The native sizes of the aligned layout. -/
def typeSize (type : String) : Nat :=
  if type = "int8" ∨ type = "uint8" then 1
  else if type = "int16" ∨ type = "uint16" then 2
  else 4

/-- The number of wire values of a range, `int((fmax - fmin) * scale) + 1`. -/
def valueRange (min max scale : Num) : Int := ((max.sub rnd min).mul rnd scale).toInt + 1

/-- `compute_field_bits`. -/
def computeFieldBits (f : FieldDecl) (enums : Dict EnumDecl) : Nat :=
  if f.type = "bool" then 1
  else match enums.lookup f.type with
    | some e => computeEnumBits e
    | none =>
      if f.type = "string" then f.maxLength.getD 16 * 8
      else match f.bits with
        | some b => b
        | none =>
          match f.min, f.max with
          | some fmin, some fmax =>
            let range := valueRange rnd fmin fmax (f.scale.getD (.int 1))
            if range ≤ 1 then 1 else ceilLog2 range.toNat
          | _, _ => typeBits f.type

/-- The element size of a non-nested field in an aligned struct. -/
def fieldByteSize (f : FieldDecl) (isEnum : Bool) : Nat :=
  if f.type = "string" then f.maxLength.getD 16
  else if isEnum then 1
  else if f.type = "bool" then 1
  else typeSize f.type

/-- The payload size of a non-nested variant of an aligned union. -/
def variantByteSize (f : FieldDecl) (isEnum : Bool) : Nat :=
  if isEnum ∨ f.type = "bool" then 1 else typeSize f.type

/-- The declared names a type is looked up in. -/
structure Context where
  enums : Dict EnumDecl
  enumDefs : Dict Enum
  structs : Dict StructDecl
  unions : Dict UnionDecl
  defaultEncoding : Option String

/-- The keys a field and a variant share. -/
def Context.enrich (ctx : Context) (f : FieldDecl) (rawStorage : Bool) (size : Nat) : Elem :=
  let isEnum := (ctx.enums.lookup f.type).isSome
  let isStruct := (ctx.structs.lookup f.type).isSome
  let isUnion := (ctx.unions.lookup f.type).isSome
  let isBool : Bool := f.type = "bool"
  let isString : Bool := f.type = "string"
  let scale := f.scale.getD (.int 1)
  { type := f.type, isEnum, isStruct, isUnion, isBool, isString, isFloat := f.type = "float",
    isNumeric := !(isEnum || isBool || isString || isStruct || isUnion),
    isSigned := startsWith f.type "int" && !startsWith f.type "uint",
    enum := ctx.enumDefs.lookup f.type, scale, hasScale := scale.toRat ≠ 1, rawStorage,
    min := f.min, max := f.max,
    minWire := f.min.map fun m => (m.mul rnd scale).toInt,
    maxWire := f.max.map fun m => (m.mul rnd scale).toInt,
    maxLength := f.maxLength, size }

/-- `structs[ftype]`, or `unions[ftype]` if there is no struct of that name, as a type
that has been processed. -/
def Scope.child (scope : Scope) (isStruct : Bool) (type : String) : Except ProcessError TypeDef :=
  match scope.lookup type with
  | some t => if t.isUnion = !isStruct then .ok t else .error (.keyError type)
  | none => .error (.keyError type)

/-- The element size of a field. A nested type must share the parent's encoding. -/
def Context.elemSize (ctx : Context) (scope : Scope) (name encoding : String) (isPacked : Bool)
    (f : FieldDecl) : Except ProcessError Nat :=
  let isStruct := (ctx.structs.lookup f.type).isSome
  let isUnion := (ctx.unions.lookup f.type).isSome
  if isStruct || isUnion then do
    let child ← scope.child isStruct f.type
    if child.isPacked = isPacked then
      return if isPacked then child.total else child.wireSize
    else throw (.encodingMismatch name f.name f.type child.encoding encoding)
  else if isPacked then return computeFieldBits rnd f ctx.enums
  else return fieldByteSize f (ctx.enums.lookup f.type).isSome

/-- One field, placed at `offset`. -/
def Context.processField (ctx : Context) (scope : Scope) (name encoding : String)
    (isPacked : Bool) (offset : Nat) (f : FieldDecl) : Except ProcessError Field := do
  let size ← ctx.elemSize rnd scope name encoding isPacked f
  let flag := if f.optional then 1 else 0
  let n := f.count.getD 1
  return { decl := f, elem := ctx.enrich rnd f f.rawStorage size, isArray := f.count.isSome,
           arrayLen := n, isOptional := f.optional, size := flag + size * n, offset,
           valueOffset := offset + flag }

/-- The fields in order, one after the other. -/
def Context.processFields (ctx : Context) (scope : Scope) (name encoding : String)
    (isPacked : Bool) : Nat → List FieldDecl → Except ProcessError (List Field)
  | _, [] => return []
  | offset, f :: fs => do
    let field ← ctx.processField rnd scope name encoding isPacked offset f
    let rest ← ctx.processFields scope name encoding isPacked (offset + field.size) fs
    return field :: rest

def Context.encoding (ctx : Context) (encoding : Option String) : String :=
  encoding.getD (ctx.defaultEncoding.getD "packed")

/-- The struct layout of `process_schema`. -/
def Context.processStruct (ctx : Context) (scope : Scope) (name : String) (s : StructDecl) :
    Except ProcessError Struct := do
  let encoding := ctx.encoding s.encoding
  let isPacked : Bool := encoding = "packed"
  let fields ← ctx.processFields rnd scope name encoding isPacked 0 s.fields
  let total := (fields.map Field.size).sum
  return { name, encoding, isPacked, hasNested := fields.any fun f => f.elem.isNested, fields,
           total, wireSize := if isPacked then (total + 7) / 8 else total }

/-- The payload size of a union variant. -/
def Context.variantSize (ctx : Context) (scope : Scope) (isPacked : Bool) (v : FieldDecl) :
    Except ProcessError Nat :=
  if (ctx.structs.lookup v.type).isSome then do
    let child ← scope.child true v.type
    if isPacked then
      -- `_total_bits` is a key of packed structs only
      if child.isPacked then return child.total else throw (.keyError "_total_bits")
    else return child.wireSize
  else if isPacked then return computeFieldBits rnd v ctx.enums
  else return variantByteSize v (ctx.enums.lookup v.type).isSome

/-- `enrich_union`. -/
def Context.enrichUnion (ctx : Context) (scope : Scope) (name : String) (u : UnionDecl) :
    Except ProcessError Union := do
  let encoding := ctx.encoding u.encoding
  let isPacked : Bool := encoding = "packed"
  let count := u.variants.length
  let tagBits := if count > 1 then max 1 (ceilLog2 count) else 1
  let variants ← u.variants.mapM fun v => do
    let size ← ctx.variantSize rnd scope isPacked v
    return { name := v.name, elem := ctx.enrich rnd v false size : Variant }
  let maxSize := (variants.map fun v => v.elem.size).foldl max 0
  let payloadOffset := if isPacked then tagBits else 1
  let total := payloadOffset + maxSize
  return { name, encoding, isPacked, variants, tagBits, payloadOffset, total,
           wireSize := if isPacked then (total + 7) / 8 else total }

/-! ## Dependency order -/

/-- `referenced_types`. -/
def referencedTypes (structs : Dict StructDecl) (unions : Dict UnionDecl) (name : String) :
    List String :=
  match structs.lookup name with
  | some s => s.fields.map FieldDecl.type
  | none => ((unions.lookup name).map fun u => u.variants.map FieldDecl.type).getD []

/-- `visit`, on the names already emitted. The names being visited are those on the
stack, so no chain of visits is longer than the number of types; `fuel` is that
number and one more. -/
def visit (structs : Dict StructDecl) (unions : Dict UnionDecl) :
    Nat → List String → List String → String → Except ProcessError (List String)
  | 0, _, stack, name => throw (.cycle (stack ++ [name]))
  | fuel + 1, order, stack, name =>
    if order.contains name then return order
    else if stack.contains name then throw (.cycle (stack ++ [name]))
    else do
      let order ← (referencedTypes structs unions name).foldlM
        (fun order t =>
          if (structs.lookup t).isSome || (unions.lookup t).isSome then
            visit structs unions fuel order (stack ++ [name]) t
          else return order)
        order
      return order ++ [name]

/-- `topo_sort_types`: a referenced type before its users. -/
def topoSortTypes (structs : Dict StructDecl) (unions : Dict UnionDecl) :
    Except ProcessError (List String) :=
  (structs.map Prod.fst ++ unions.map Prod.fst).foldlM
    (fun order name => visit structs unions (structs.length + unions.length + 1) order [] name) []

/-! ## The whole schema -/

/-- One type of the dependency order, on top of the types before it. -/
def Context.processType (ctx : Context) (scope : Scope) (name : String) :
    Except ProcessError Scope :=
  match ctx.unions.lookup name, ctx.structs.lookup name with
  | some u, _ => do
    let u ← ctx.enrichUnion rnd scope name u
    return (name, .union u) :: scope
  | none, some s => do
    let s ← ctx.processStruct rnd scope name s
    return (name, .struct s) :: scope
  | none, none => throw (.keyError name)

/-- The frame a message is sent in. -/
inductive CommandFrame where
  | read
  | write
  deriving DecidableEq

structure Message where
  name : String
  decl : MessageDecl
  requestName : Option String
  requestScalar : Option String
  isPeriodic : Bool
  hasRequestPayload : Bool
  commandFrame : Option CommandFrame
  deriving DecidableEq

/-- The message part of `process_schema`. -/
def processMessage (name : String) (m : MessageDecl) : Message :=
  let scalar := m.request.filter fun r => r = "bool" ∨ r = "none" ∨ r = "raw" ∨ r = "bytes"
  let requestName := if scalar.isSome then none else m.request
  let hasRequestPayload := requestName.isSome || (scalar.isSome && scalar ≠ some "none")
  let isPeriodic := m.periodMs.isSome
  let frame :=
    if m.commandId.isNone then none
    else if m.commandFrame = some "read" then some .read
    else if m.commandFrame = some "write" then some .write
    else if isPeriodic then some .read
    else if m.response.isSome && !hasRequestPayload then some .read
    else some .write
  { name, decl := m, requestName, requestScalar := scalar, isPeriodic, hasRequestPayload,
    commandFrame := frame }

/-- What the templates are rendered with. -/
structure Data where
  enums : Dict Enum
  types : Scope
  messages : List Message
  nodes : List String

/-- `process_schema`. -/
def processSchema (schema : SchemaDecl) : Except ProcessError Data := do
  let enumDefs ← schema.enums.mapM fun e => do
    let enum ← processEnum e.1 e.2
    return (e.1, enum)
  let ctx : Context :=
    { enums := schema.enums, enumDefs, structs := schema.structs, unions := schema.unions,
      defaultEncoding := schema.defaultEncoding }
  let order ← topoSortTypes schema.structs schema.unions
  let types ← order.foldlM (ctx.processType rnd) []
  return { enums := enumDefs, types,
           messages := schema.messages.map fun m => processMessage m.1 m.2,
           nodes := schema.nodes }

end ProtoEmb.Schema

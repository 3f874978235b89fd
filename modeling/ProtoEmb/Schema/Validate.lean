import ProtoEmb.Schema.Process

/-!
# `validate_schema`

The checks of `generate.py` on processed data, in its order. Each error names the struct, union,
enum or message and the field it is about; a schema is accepted if there is none.
-/

namespace ProtoEmb.Schema

variable (rnd : Rat → Rat)

/-- The errors of `validate_schema` and `validate_unions`, one per message text. -/
inductive SchemaError where
  | unionEmpty (union : String)
  | unionDuplicateVariant (union variant : String)
  | unionStringVariant (union variant : String)
  | unionNestedUnion (union variant : String)
  | unionStructVariant (union variant : String)
  | unionUnknownType (union variant type : String)
  | enumTooManyVariants (enum : String) (count bits : Nat)
  | duplicateField (struct field : String)
  | minBelowType (struct field type : String) (min : Num)
  | maxAboveType (struct field type : String) (max : Num)
  | countNotPositive (struct field : String) (count : Nat)
  | stringArray (struct field : String)
  | optionalArray (struct field : String)
  | optionalString (struct field : String)
  | fractionalScale (struct field : String) (scale : Num)
  | rangeTooWide (struct field : String) (needed bits : Nat)
  | txNodeEmpty (message : String)
  | txNodeUnknown (message node : String)
  | responseRequired (message : String)
  | periodicWithoutCommand (message : String)
  | periodNotPositive (message : String) (periodMs : Int)
  | unknownRequest (message struct : String)
  | unknownResponse (message struct : String)
  | badCommandFrame (message frame : String)
  | badPriority (message priority : String)
  | duplicateReadCommand (message other : String) (id : Int)
  | duplicateWriteCommand (message other : String) (id : Int)
  | duplicateDataCommand (message other : String) (id : Int)
  deriving DecidableEq

/-- One error if the condition holds. -/
def errorIf (c : Prop) [Decidable c] (e : SchemaError) : List SchemaError := if c then [e] else []

@[simp] theorem errorIf_eq_nil {c : Prop} [Decidable c] {e : SchemaError} :
    errorIf c e = [] ↔ ¬ c := by
  unfold errorIf
  split <;> simp_all

/-- `_PRIMITIVE_TYPES`. -/
def primitiveTypes : List String :=
  ["bool", "float", "int8", "uint8", "int16", "uint16", "int32", "uint32", "int64", "uint64"]

/-- `TYPE_RANGES`. -/
def typeRange (type : String) : Option (Int × Int) :=
  List.lookup type
    [("int8", (-128, 127)), ("uint8", (0, 255)), ("int16", (-32768, 32767)),
      ("uint16", (0, 65535)), ("int32", (-2147483648, 2147483647)), ("uint32", (0, 4294967295)),
      ("int64", (-9223372036854775808, 9223372036854775807)),
      ("uint64", (0, 18446744073709551615))]

/-- A variant's type must be a primitive or an enum. -/
def validateVariant (union : String) (v : Variant) : List SchemaError :=
  if v.elem.type = "string" then [.unionStringVariant union v.name]
  else if v.elem.isUnion then [.unionNestedUnion union v.name]
  else if v.elem.isStruct then [.unionStructVariant union v.name]
  else errorIf (¬ (v.elem.type ∈ primitiveTypes ∨ v.elem.isEnum = true))
    (.unionUnknownType union v.name v.elem.type)

/-- The names that occurred before, in order of the list. -/
def duplicates : List String → List String → List String
  | _, [] => []
  | seen, n :: ns => (if n ∈ seen then [n] else []) ++ duplicates (n :: seen) ns

/-- `validate_unions`, one union. -/
def validateUnion (u : Union) : List SchemaError :=
  errorIf (u.variants = []) (.unionEmpty u.name)
    ++ (duplicates [] (u.variants.map Variant.name)).map (.unionDuplicateVariant u.name)
    ++ u.variants.flatMap (validateVariant u.name)

def validateEnum (e : Enum) : List SchemaError :=
  errorIf (e.count > 2 ^ e.bits) (.enumTooManyVariants e.name e.count e.bits)

/-- The declared range must lie inside the type's. -/
def validateTypeRange (struct : String) (f : Field) : List SchemaError :=
  match typeRange f.elem.type with
  | none => []
  | some (tmin, tmax) =>
    (match f.decl.min with
      | some m => errorIf (m.toRat < tmin) (.minBelowType struct f.decl.name f.elem.type m)
      | none => [])
    ++ (match f.decl.max with
      | some m => errorIf (m.toRat > tmax) (.maxAboveType struct f.decl.name f.elem.type m)
      | none => [])

/-- A fractional scale needs a float field. -/
def validateScale (struct : String) (f : Field) : List SchemaError :=
  match f.decl.scale with
  | some (.float q) =>
    errorIf (f.elem.isNumeric = true ∧ f.elem.isFloat = false ∧ q.den ≠ 1)
      (.fractionalScale struct f.decl.name (.float q))
  | _ => []

/-- The declared range of a packed field must fit its bits. The check compares with
the whole field, so for an array it compares one element with all of them. -/
def validateRangeBits (struct : String) (isPacked : Bool) (f : Field) : List SchemaError :=
  match f.decl.min, f.decl.max with
  | some fmin, some fmax =>
    let range := valueRange rnd fmin fmax (f.decl.scale.getD (.int 1))
    let needed := if range > 1 then ceilLog2 range.toNat else 1
    errorIf (isPacked = true ∧ f.elem.isNumeric = true ∧ needed > f.size)
      (.rangeTooWide struct f.decl.name needed f.size)
  | _, _ => []

def validateField (struct : String) (isPacked : Bool) (f : Field) : List SchemaError :=
  validateTypeRange struct f
    ++ (match f.decl.count with
      | some n =>
        errorIf (n < 1) (.countNotPositive struct f.decl.name n)
          ++ errorIf (f.elem.isString = true) (.stringArray struct f.decl.name)
          ++ errorIf (f.decl.optional = true) (.optionalArray struct f.decl.name)
      | none => [])
    ++ errorIf (f.decl.optional = true ∧ f.elem.isString = true)
      (.optionalString struct f.decl.name)
    ++ validateScale struct f
    ++ validateRangeBits rnd struct isPacked f

def validateStruct (s : Struct) : List SchemaError :=
  (duplicates [] (s.fields.map fun f => f.decl.name)).map (.duplicateField s.name)
    ++ s.fields.flatMap (validateField rnd s.name s.isPacked)

/-- The checks on one message, apart from command ids used twice. -/
def validateMessage (structs nodes : List String) (m : Message) : List SchemaError :=
  (match m.decl.txNode with
    | some node =>
      if node = "" then [.txNodeEmpty m.name]
      else errorIf (nodes ≠ [] ∧ node ∉ nodes) (.txNodeUnknown m.name node)
    | none => [.txNodeEmpty m.name])
  ++ errorIf (m.decl.commandId = none ∧ m.decl.response = none) (.responseRequired m.name)
  ++ errorIf (m.decl.periodMs ≠ none ∧ m.decl.commandId = none) (.periodicWithoutCommand m.name)
  ++ (match m.decl.periodMs with
    | some p => errorIf (p ≤ 0) (.periodNotPositive m.name p)
    | none => [])
  ++ (match m.requestName with
    | some r => errorIf (r ∉ structs) (.unknownRequest m.name r)
    | none => [])
  ++ (match m.decl.response with
    | some r => errorIf (r ∉ structs) (.unknownResponse m.name r)
    | none => [])
  ++ (match m.decl.commandFrame with
    | some f => errorIf (¬ (f = "read" ∨ f = "write")) (.badCommandFrame m.name f)
    | none => [])
  ++ (match m.decl.priority with
    | some p => errorIf (¬ (p = "high" ∨ p = "low")) (.badPriority m.name p)
    | none => [])

/-- Command ids used twice among the messages of one kind, in order. -/
def duplicateIds (error : String → String → Int → SchemaError) :
    List (Int × String) → List Message → List SchemaError
  | _, [] => []
  | seen, m :: ms =>
    match m.decl.commandId with
    | none => duplicateIds error seen ms
    | some id =>
      match seen.lookup id with
      | some other => error m.name other id :: duplicateIds error seen ms
      | none => duplicateIds error ((id, m.name) :: seen) ms

/-- The structs of the processed schema, in dependency order. -/
def Data.structs (data : Data) : List Struct :=
  data.types.reverse.filterMap fun t =>
    match t.2 with
    | .struct s => some s
    | .union _ => none

/-- The unions of the processed schema, in dependency order. -/
def Data.unions (data : Data) : List Union :=
  data.types.reverse.filterMap fun t =>
    match t.2 with
    | .struct _ => none
    | .union u => some u

/-- `validate_schema`; the schema is accepted if there is no error. The three checks for
command ids used twice run over the messages of their kind. -/
def validateSchema (data : Data) : List SchemaError :=
  data.unions.flatMap validateUnion
    ++ data.enums.flatMap (fun e => validateEnum e.2)
    ++ data.structs.flatMap (validateStruct rnd)
    ++ data.messages.flatMap (validateMessage (data.structs.map Struct.name) data.nodes)
    ++ duplicateIds .duplicateReadCommand []
      (data.messages.filter fun m => m.commandFrame = some .read)
    ++ duplicateIds .duplicateWriteCommand []
      (data.messages.filter fun m => m.commandFrame = some .write)
    ++ duplicateIds .duplicateDataCommand []
      (data.messages.filter fun m => m.decl.response ≠ none)

end ProtoEmb.Schema

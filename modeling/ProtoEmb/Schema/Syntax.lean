import Mathlib.Data.Rat.Floor
import Mathlib.Data.Nat.Log

/-!
# Schemas as they are written

The YAML mapping that `load_yaml` of `generate.py` returns, as far as `process_schema` and
`validate_schema` read it, and the Python arithmetic they do on its numbers. Every
optional key is an `Option`; a mapping is the list of its entries in order.

A YAML number is an `int` or a `float`. A float is the rational it stands for, and
the result of a float operation is the exact result rounded by `rnd`, the rounding
of the interpreter's `float` type: everything here takes `rnd` as a parameter, and no
result needs to know it.
-/

namespace ProtoEmb.Schema

/-- A mapping with its entries in file order. -/
abbrev Dict (α : Type) := List (String × α)

/-- `s.startswith(p)`. -/
def startsWith (s p : String) : Bool := p.toList.isPrefixOf s.toList

/-- A YAML number. -/
inductive Num where
  | int (n : Int)
  | float (q : Rat)
  deriving DecidableEq

namespace Num

/-- The number's value; comparisons between Python numbers are exact. -/
def toRat : Num → Rat
  | int n => n
  | float q => q

variable (rnd : Rat → Rat)

/-- The number as a Python `float`. -/
def toFloat : Num → Rat
  | int n => rnd n
  | float q => q

def sub : Num → Num → Num
  | int a, int b => int (a - b)
  | a, b => float (rnd (a.toFloat rnd - b.toFloat rnd))

def mul : Num → Num → Num
  | int a, int b => int (a * b)
  | a, b => float (rnd (a.toFloat rnd * b.toFloat rnd))

/-- `int(x)`: truncation towards zero. -/
def toInt : Num → Int
  | int n => n
  | float q => if 0 ≤ q then ⌊q⌋ else ⌈q⌉

end Num

/-- A variant of an enum: a name, or a name with a semantic value. -/
inductive VariantDecl where
  | plain (name : String)
  | valued (name : String) (value : Int)
  deriving DecidableEq

structure EnumDecl where
  variants : List VariantDecl
  remap : Bool := false
  remapStyle : Option String := none
  deriving DecidableEq

/-- A struct field, or a variant of a tagged union (which reads fewer keys).

The generator takes any integer for `bits`, also a negative one: `compute_field_bits` returns it
as it is, and no check compares it with anything unless `min` and `max` are both given. Here the
width is a natural number, since every size and offset is made of widths. What a call with a
negative width does is said of the helpers (`C.widthArg`, `Rust.unpackCall`). -/
structure FieldDecl where
  name : String
  type : String
  count : Option Nat := none
  optional : Bool := false
  maxLength : Option Nat := none
  bits : Option Nat := none
  min : Option Num := none
  max : Option Num := none
  scale : Option Num := none
  rawStorage : Bool := false
  deriving DecidableEq

structure StructDecl where
  encoding : Option String := none
  fields : List FieldDecl
  deriving DecidableEq

structure UnionDecl where
  encoding : Option String := none
  variants : List FieldDecl
  deriving DecidableEq

structure MessageDecl where
  txNode : Option String := none
  commandId : Option Int := none
  request : Option String := none
  response : Option String := none
  periodMs : Option Int := none
  commandFrame : Option String := none
  priority : Option String := none
  deriving DecidableEq

/-- The schema file. `defaultEncoding` is `defaults.encoding`; `nodes` are the
allowed transmitters, from the schema or else from the generator config. -/
structure SchemaDecl where
  enums : Dict EnumDecl := []
  structs : Dict StructDecl := []
  unions : Dict UnionDecl := []
  messages : Dict MessageDecl := []
  defaultEncoding : Option String := none
  nodes : List String := []
  deriving DecidableEq

end ProtoEmb.Schema

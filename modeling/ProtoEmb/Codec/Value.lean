import ProtoEmb.Schema.Layout

/-!
# Values and their layout

A value of a struct or union of the schema, in the terms of one target language: an
integer, an enum constant, a presence flag with its payload, and so on. The payload of
an absent optional and the inactive members of a union are not part of a value.

The code that the templates generate for a type calls the generated code of the types it embeds by
name. `resolve` is that recursion, once and for all: a body for a type, written over the bodies of
the types before it in the scope, becomes a function on names.

`layout` is the documented order of things on the wire, for both encodings: every
field in declaration order, array elements one after the other, an optional as a flag
followed by its value or by padding, a union as a tag, the active variant and padding
up to the largest one. It says where each leaf goes and leaves open how a leaf is
written. `mapLeaves` rebuilds a value with its leaves replaced.
-/

namespace ProtoEmb.Codec

open ProtoEmb.Schema

/-- A value, in the terms of one language; which form a leaf has depends on the language. -/
inductive Value where
  | bool (b : Bool)
  | enum (c : Int)
  | int (n : Int)
  | num (q : Rat)
  | float (bits : UInt32)
  | str (bytes : List UInt8)
  | absent
  | present (v : Value)
  | array (vs : List Value)
  | struct (vs : List Value)
  | union (tag : Nat) (v : Value)

/-! ## Recursion over a scope -/

/-- The body of the type `name`, over the bodies of the types after it in the list. -/
def resolve {β : Type} (undefined : β) (body : (String → β) → TypeDef → β) : Scope → String → β
  | [], _ => undefined
  | (n, t) :: rest, name =>
    if name = n then body (resolve undefined body rest) t else resolve undefined body rest name

/-- **Induction over a scope.** To show something of every type in it, show it of one
type from what is known of the names after it. -/
theorem scope_induction {P : Scope → String → TypeDef → Prop}
    (head : ∀ n t rest, (∀ m t', rest.lookup m = some t' → P rest m t') →
      P ((n, t) :: rest) n t)
    (tail : ∀ n t rest m t', m ≠ n → P rest m t' → P ((n, t) :: rest) m t') :
    ∀ scope name t, scope.lookup name = some t → P scope name t := by
  intro scope
  induction scope with
  | nil => intro name t h; cases h
  | cons entry rest ih =>
    intro name t h
    obtain ⟨n, t₀⟩ := entry
    rw [List.lookup_cons] at h
    split at h
    next heq =>
      cases h
      have hname : name = n := by simpa using heq
      subst hname
      exact head name t rest ih
    next hne =>
      have hname : name ≠ n := by simpa using hne
      exact tail n t₀ rest name t hname (ih name t h)

section Resolve

variable {β : Type} {undefined : β} {body : (String → β) → TypeDef → β}

/-- The last type of a scope means its body, over the types before it. -/
theorem resolve_head (n : String) (t : TypeDef) (rest : Scope) :
    resolve undefined body ((n, t) :: rest) n = body (resolve undefined body rest) t := by
  rw [resolve, if_pos rfl]

/-- Any other name means what it means in the rest. -/
theorem resolve_tail {n m : String} (t : TypeDef) (rest : Scope) (h : m ≠ n) :
    resolve undefined body ((n, t) :: rest) m = resolve undefined body rest m := by
  rw [resolve, if_neg h]

end Resolve

/-! ## Layout -/

/-- A part of the wire image, in units of the encoding. `scalar` says whether the leaf
is a field of its own or an element, an optional value or a variant: the templates
write these two kinds through different code. -/
inductive Chunk where
  | flag (b : Bool)
  | tag (size : Nat) (index : Nat)
  | pad (size : Nat)
  | leaf (scalar : Bool) (e : Elem) (v : Value)

/-- The units the part takes. -/
def Chunk.size : Chunk → Nat
  | flag _ => 1
  | tag size _ => size
  | pad size => size
  | leaf _ e _ => e.size

/-- The layout of the values of a type, or none if the value is not of that type. -/
abbrev Layout := Value → Option (List Chunk)

/-- A nested value has the layout of its type, any other one is a leaf. -/
def layoutElem (env : String → Layout) (scalar : Bool) (e : Elem) (v : Value) :
    Option (List Chunk) :=
  if e.isNested then env e.type v else some [.leaf scalar e v]

/-- The elements of an array, one after the other. -/
def layoutArray (env : String → Layout) (e : Elem) : List Value → Option (List Chunk)
  | [] => some []
  | v :: vs => do
    let c ← layoutElem env false e v
    let cs ← layoutArray env e vs
    return c ++ cs

/-- An array in a row; an optional as flag and value, or as flag and padding. -/
def layoutField (env : String → Layout) (f : Field) (v : Value) : Option (List Chunk) :=
  if f.isArray then
    match v with
    | .array vs => if vs.length = f.arrayLen then layoutArray env f.elem vs else none
    | _ => none
  else if f.isOptional then
    match v with
    | .absent => some [.flag false, .pad f.elem.size]
    | .present v => do
      let c ← layoutElem env false f.elem v
      return .flag true :: c
    | _ => none
  else layoutElem env true f.elem v

/-- The fields of a struct in the order of their declaration. -/
def layoutFields (env : String → Layout) : List Field → List Value → Option (List Chunk)
  | [], [] => some []
  | f :: fs, v :: vs => do
    let c ← layoutField env f v
    let cs ← layoutFields env fs vs
    return c ++ cs
  | _, _ => none

/-- A union is its tag, the active variant and padding up to the largest. -/
def layoutType (env : String → Layout) : TypeDef → Layout
  | .struct s, .struct vs => layoutFields env s.fields vs
  | .union u, .union tag v =>
    match u.variants[tag]? with
    | some w => do
      let c ← layoutElem env false w.elem v
      return .tag u.tagSize tag :: c ++ [.pad (u.total - u.payloadOffset - w.elem.size)]
    | none => none
  | _, _ => none

/-- The layout of a value of the type `name`. -/
def layout : Scope → String → Layout := resolve (fun _ => none) layoutType

/-! ## Rebuilding a value -/

/-- Replace the leaves of a value; `none` if one of them has no replacement. -/
abbrev LeafMap := Bool → Elem → Value → Option Value

section MapLeaves

variable (g : LeafMap)

/-- A nested value is mapped as its type says, a leaf by `g`. -/
def mapElem (env : String → Value → Option Value) (scalar : Bool) (e : Elem) (v : Value) :
    Option Value :=
  if e.isNested then env e.type v else g scalar e v

/-- Every element of an array. -/
def mapArray (env : String → Value → Option Value) (e : Elem) : List Value → Option (List Value)
  | [] => some []
  | v :: vs => do
    let w ← mapElem g env false e v
    let ws ← mapArray env e vs
    return w :: ws

/-- An absent optional has no leaf to replace. -/
def mapField (env : String → Value → Option Value) (f : Field) (v : Value) : Option Value :=
  if f.isArray then
    match v with
    | .array vs => do
      let ws ← mapArray g env f.elem vs
      return .array ws
    | _ => none
  else if f.isOptional then
    match v with
    | .absent => some .absent
    | .present v => do
      let w ← mapElem g env false f.elem v
      return .present w
    | _ => none
  else mapElem g env true f.elem v

/-- Field by field. -/
def mapFields (env : String → Value → Option Value) :
    List Field → List Value → Option (List Value)
  | [], [] => some []
  | f :: fs, v :: vs => do
    let w ← mapField g env f v
    let ws ← mapFields env fs vs
    return w :: ws
  | _, _ => none

/-- A union keeps its tag. -/
def mapType (env : String → Value → Option Value) : TypeDef → Value → Option Value
  | .struct s, .struct vs => do
    let ws ← mapFields g env s.fields vs
    return .struct ws
  | .union u, .union tag v =>
    match u.variants[tag]? with
    | some w => do
      let x ← mapElem g env false w.elem v
      return .union tag x
    | none => none
  | _, _ => none

/-- The value of type `name` with its leaves replaced. -/
def mapLeaves : Scope → String → Value → Option Value := resolve (fun _ => none) (mapType g)

end MapLeaves

end ProtoEmb.Codec

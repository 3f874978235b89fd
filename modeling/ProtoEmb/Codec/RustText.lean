import ProtoEmb.Codec.Rust
import ProtoEmb.Lib.Precedence

/-!
# The text of the Rust leaf expressions

`protocol.rs.j2` writes every packed leaf expression twice for each direction: in a macro,
`rs_pack_leaf` or `rs_unpack_expr`, for array elements, optional values and union variants,
and inline for a field. (The inline one stands in `encode` and again in `pack_into`, in
`decode` and again in `unpack_from`; these differ in the offset only.) Here they are as texts,
read by Rust's operator precedence.

* `unpack_eq`: what the two decode expressions of a leaf mean is what `unstep` says of them.
* `pack_eq`: the same for `step`; the inline text of an encode expression is that of the macro.
-/

namespace ProtoEmb.Codec.Rust.Text

open ProtoEmb.Lib ProtoEmb.Schema

/-! ## Tokens -/

/-- The types that the expressions name. -/
inductive Ty where
  | i32
  | u32
  | u8
  | f32

/-- What an expression is made from. -/
inductive Atom where
  /-- the value to encode: `self.field`, `self.field[i]`, `(*v)` -/
  | val
  /-- `unpack_bits(buf, off, bits)` -/
  | unpackBits (bits : Nat)
  /-- a literal with a type suffix -/
  | lit (n : Schema.Num) (ty : Ty)

inductive Unary where
  /-- `as ty` -/
  | cast (ty : Ty)
  /-- `if val { 1 } else { 0 }` -/
  | ifElse
  | toWire
  | fromWire
  | unwrapOrDefault
  /-- `!= 0` -/
  | nonzero

/-- The infix operators and the methods of one argument. -/
inductive Binary where
  | add
  | sub
  | mul
  | div
  | wrappingAdd
  | wrappingSub
  | wrappingMul

/-- A text. -/
abbrev Tokens := List (Token Atom Unary Binary)

/-- Method calls bind most tightly, then `as`, `*` and `/`, `+` and `-`, comparisons. -/
def grammar : Grammar Unary Binary where
  before _ := 6
  after
    | .cast _ => 5
    | .nonzero => 2
    | _ => 7
  between
    | .mul | .div => 4
    | _ => 3
  method _ := 7

/-! ## The templates -/

/-- `.wrapping_mul(scale)`, printed only if the scale is not 1. -/
def timesScale (e : Elem) (ty : Ty) : Tokens :=
  if e.hasScale then [.method .wrappingMul, .atom (.lit e.scale ty), .closing] else []

/-- `/ scale`, printed only if the scale is not 1. -/
def overScale (e : Elem) (ty : Ty) : Tokens :=
  if e.hasScale then [.between .div, .atom (.lit e.scale ty)] else []

/-- The `min` of an unsigned leaf is printed if it is not zero. -/
def unsignedMin (e : Elem) : Option Schema.Num := e.min.filter fun m => m.toRat ≠ 0

/-- `rs_pack_leaf`: the width and the value argument of `pack_bits`. -/
def rsPackLeaf (e : Elem) : Nat × Tokens :=
  if e.isBool then (1, [.call .ifElse, .atom .val, .closing])
  else if e.isEnum then (e.size, [.atom .val, .after .toWire, .after (.cast .u32)])
  else if e.isFloat then
    match e.min with
    | some m =>
      (e.size, [.opening, .opening, .atom .val, .between .sub, .opening, .atom (.lit m .f32),
        .closing, .closing, .between .mul, .atom (.lit e.scale .f32), .closing,
        .after (.cast .u32)])
    | none =>
      (e.size, [.opening, .atom .val, .between .mul, .atom (.lit e.scale .f32), .closing,
        .after (.cast .u32)])
  else if e.rawStorage then
    match e.minWire with
    | some m =>
      if e.isSigned then
        (e.size, [.opening, .opening, .atom .val, .between .sub, .opening,
          .atom (.lit (.int m) .i32), .closing, .closing, .after (.cast .u32), .closing])
      else (e.size, [.atom .val, .method .wrappingSub, .atom (.lit (.int m) .u32), .closing])
    | none => (e.size, [.atom .val, .after (.cast .u32)])
  else if e.isSigned then
    match e.min with
    | some m =>
      (e.size, [.opening, .opening, .atom .val, .between .sub, .opening,
        .atom (.lit (.int m.toInt) .i32), .closing, .closing] ++ timesScale e .i32 ++
        [.closing, .after (.cast .u32)])
    | none =>
      (e.size, [.opening, .atom .val] ++ timesScale e .i32 ++ [.closing, .after (.cast .u32)])
  else
    match unsignedMin e with
    | some m =>
      (e.size, [.opening, .atom .val, .method .wrappingSub, .atom (.lit (.int m.toInt) .u32),
        .closing, .closing] ++ timesScale e .u32)
    | none => (e.size, .atom .val :: timesScale e .u32)

/-- The same inline for a field with `_bits` bits, in `encode` and `pack_into`. -/
def packField (bits : Nat) (e : Elem) : Nat × Tokens :=
  if e.isBool then (1, [.call .ifElse, .atom .val, .closing])
  else if e.isEnum then (bits, [.atom .val, .after .toWire, .after (.cast .u32)])
  else if e.isFloat then
    match e.min with
    | some m =>
      (bits, [.opening, .opening, .atom .val, .between .sub, .opening, .atom (.lit m .f32),
        .closing, .closing, .between .mul, .atom (.lit e.scale .f32), .closing,
        .after (.cast .u32)])
    | none =>
      (bits, [.opening, .atom .val, .between .mul, .atom (.lit e.scale .f32), .closing,
        .after (.cast .u32)])
  else if e.rawStorage then
    match e.minWire with
    | some m =>
      if e.isSigned then
        (bits, [.opening, .opening, .atom .val, .between .sub, .opening,
          .atom (.lit (.int m) .i32), .closing, .closing, .after (.cast .u32), .closing])
      else (bits, [.atom .val, .method .wrappingSub, .atom (.lit (.int m) .u32), .closing])
    | none => (bits, [.atom .val, .after (.cast .u32)])
  else if e.isSigned then
    match e.min with
    | some m =>
      (bits, [.opening, .opening, .atom .val, .between .sub, .opening,
        .atom (.lit (.int m.toInt) .i32), .closing, .closing] ++ timesScale e .i32 ++
        [.closing, .after (.cast .u32)])
    | none =>
      (bits, [.opening, .atom .val] ++ timesScale e .i32 ++ [.closing, .after (.cast .u32)])
  else
    match unsignedMin e with
    | some m =>
      (bits, [.opening, .atom .val, .method .wrappingSub, .atom (.lit (.int m.toInt) .u32),
        .closing, .closing] ++ timesScale e .u32)
    | none => (bits, .atom .val :: timesScale e .u32)

/-- `rs_unpack_expr` -/
def rsUnpackExpr (e : Elem) : Tokens :=
  if e.isBool then [.atom (.unpackBits 1), .after .nonzero]
  else if e.isEnum then
    [.call .fromWire, .atom (.unpackBits e.size), .after (.cast .u8), .closing,
      .after .unwrapOrDefault]
  else if e.isFloat then
    match e.min with
    | some m =>
      [.opening, .atom (.unpackBits e.size), .after (.cast .f32), .closing, .between .div,
        .atom (.lit e.scale .f32), .between .add, .opening, .atom (.lit m .f32), .closing]
    | none =>
      [.opening, .atom (.unpackBits e.size), .after (.cast .f32), .closing, .between .div,
        .atom (.lit e.scale .f32)]
  else if e.rawStorage then
    match e.minWire with
    | some m =>
      if e.isSigned then
        [.opening, .atom (.unpackBits e.size), .after (.cast .i32), .closing, .between .add,
          .opening, .atom (.lit (.int m) .i32), .closing]
      else
        [.atom (.unpackBits e.size), .method .wrappingAdd, .atom (.lit (.int m) .u32), .closing]
    | none =>
      if e.isSigned then [.opening, .atom (.unpackBits e.size), .after (.cast .i32), .closing]
      else [.atom (.unpackBits e.size)]
  else if e.isSigned then
    match e.min with
    | some m =>
      [.opening, .atom (.unpackBits e.size), .after (.cast .i32), .closing] ++ overScale e .i32 ++
        [.between .add, .opening, .atom (.lit (.int m.toInt) .i32), .closing]
    | none =>
      [.opening, .atom (.unpackBits e.size), .after (.cast .i32), .closing] ++ overScale e .i32
  else
    match unsignedMin e with
    | some m =>
      .opening :: .atom (.unpackBits e.size) :: (overScale e .u32 ++
        [.closing, .method .wrappingAdd, .atom (.lit (.int m.toInt) .u32), .closing])
    | none => .atom (.unpackBits e.size) :: overScale e .u32

/-- The same inline for a field with `_bits` bits, in `decode` and `unpack_from`. -/
def unpackField (bits : Nat) (e : Elem) : Tokens :=
  if e.isBool then [.atom (.unpackBits 1), .after .nonzero]
  else if e.isEnum then
    [.call .fromWire, .atom (.unpackBits bits), .after (.cast .u8), .closing,
      .after .unwrapOrDefault]
  else if e.isFloat then
    match e.min with
    | some m =>
      [.opening, .atom (.unpackBits bits), .after (.cast .f32), .closing, .between .div,
        .atom (.lit e.scale .f32), .between .add, .opening, .atom (.lit m .f32), .closing]
    | none =>
      [.opening, .atom (.unpackBits bits), .after (.cast .f32), .closing, .between .div,
        .atom (.lit e.scale .f32)]
  else if e.rawStorage then
    match e.minWire with
    | some m =>
      if e.isSigned then
        [.opening, .atom (.unpackBits bits), .after (.cast .i32), .closing, .between .add,
          .opening, .atom (.lit (.int m) .i32), .closing]
      else
        [.atom (.unpackBits bits), .method .wrappingAdd, .atom (.lit (.int m) .u32), .closing]
    | none =>
      if e.isSigned then [.opening, .atom (.unpackBits bits), .after (.cast .i32), .closing]
      else [.atom (.unpackBits bits)]
  else if e.isSigned then
    match e.min with
    | some m =>
      [.opening, .atom (.unpackBits bits), .after (.cast .i32), .closing] ++ overScale e .i32 ++
        [.between .add, .opening, .atom (.lit (.int m.toInt) .i32), .closing]
    | none =>
      [.opening, .atom (.unpackBits bits), .after (.cast .i32), .closing] ++ overScale e .i32
  else
    match unsignedMin e with
    | some m =>
      -- no parentheses around the quotient here
      .atom (.unpackBits bits) :: (overScale e .u32 ++
        [.method .wrappingAdd, .atom (.lit (.int m.toInt) .u32), .closing])
    | none => .atom (.unpackBits bits) :: overScale e .u32

/-! ## Their meaning -/

/-- `f32`, as bit patterns. -/
structure F32 where
  lit : Schema.Num → UInt32
  /-- `n as f32` -/
  ofInt : Int → UInt32
  /-- `x as u32` -/
  toU32 : UInt32 → UInt32
  add : UInt32 → UInt32 → UInt32
  sub : UInt32 → UInt32 → UInt32
  mul : UInt32 → UInt32 → UInt32
  div : UInt32 → UInt32 → UInt32

/-- What an expression can be, with its type. -/
inductive Val where
  | int (ty : Ty) (n : Int)
  | f32 (x : UInt32)
  | bool (b : Bool)
  | enum (i : Int)
  | option (i : Option Int)

/-- The operators on `i32`, or on `u32` if `u`. -/
def intOp (u : Bool) (a b : Int) : Binary → Option Int
  | .add => checked u (a + b)
  | .sub => checked u (a - b)
  | .mul => checked u (a * b)
  | .div => div u a b
  | .wrappingAdd => some (wrapping u (a + b))
  | .wrappingSub => some (wrapping u (a - b))
  | .wrappingMul => some (wrapping u (a * b))

/-- What a leaf expression is evaluated over. -/
structure Env where
  fl : F32
  /-- the type of an enum leaf -/
  enum : Option Enum
  /-- the value to encode -/
  val : Option Val
  /-- `unpack_bits` at the leaf's offset -/
  read : Nat → Option Nat

namespace Env

variable (E : Env)

/-- The value of an atom; a literal has to fit its type. -/
def atom : Atom → Option Val
  | .val => E.val
  | .unpackBits bits => (E.read bits).map fun u : Nat => .int .u32 u
  | .lit n .f32 => some (.f32 (E.fl.lit n))
  | .lit (.int n) .i32 => (lit false n).map (.int .i32)
  | .lit (.int n) .u32 => (lit true n).map (.int .u32)
  | .lit _ _ => none

def unary : Unary → Val → Option Val
  | .cast .i32, .int _ n => some (.int .i32 (wrapS 32 n))
  | .cast .u32, .int _ n => some (.int .u32 (wrapU 32 n))
  | .cast .u8, .int _ n => some (.int .u8 (wrapU 8 n))
  | .cast .f32, .int _ n => some (.f32 (E.fl.ofInt n))
  | .cast .u32, .f32 x => some (.int .u32 (E.fl.toU32 x).toNat)
  | .ifElse, .bool b => some (.int .u32 (if b then 1 else 0))
  | .toWire, .enum i => do
    let t ← E.enum
    (toWire t i).map fun w : Nat => .int .u8 w
  | .fromWire, .int .u8 n => do
    let t ← E.enum
    if t.count ≤ 256 then some (.option (if n < t.count then some n else none)) else none
  | .unwrapOrDefault, .option i => some (.enum (i.getD 0))
  | .nonzero, .int _ n => some (.bool (n ≠ 0))
  | _, _ => none

/-- Both operands have one type. -/
def binary : Binary → Val → Val → Option Val
  | o, .int .i32 a, .int .i32 b => (intOp false a b o).map (.int .i32)
  | o, .int .u32 a, .int .u32 b => (intOp true a b o).map (.int .u32)
  | .add, .f32 x, .f32 y => some (.f32 (E.fl.add x y))
  | .sub, .f32 x, .f32 y => some (.f32 (E.fl.sub x y))
  | .mul, .f32 x, .f32 y => some (.f32 (E.fl.mul x y))
  | .div, .f32 x, .f32 y => some (.f32 (E.fl.div x y))
  | _, _, _ => none

/-- The value of an expression; one that does not type is `none`. -/
def meaning : Meaning Atom Unary Binary Val := ⟨E.atom, E.unary, E.binary⟩

@[simp] theorem meaning_atom : E.meaning.atom = E.atom := rfl

@[simp] theorem meaning_unary : E.meaning.unary = E.unary := rfl

@[simp] theorem meaning_binary : E.meaning.binary = E.binary := rfl

end Env

/-- The member of a leaf, with its type. -/
def member (e : Elem) : Value → Option Val
  | .bool b => if e.isBool then some (.bool b) else none
  | .enum i => if !e.isBool && e.isEnum then some (.enum i) else none
  | .float x => if !e.isBool && !e.isEnum && e.isFloat then some (.f32 x) else none
  | .int n =>
    if !e.isBool && !e.isEnum && !e.isFloat && !e.isString && Fits (!e.isSigned) n then
      some (.int (if e.isSigned then .i32 else .u32) n)
    else none
  | _ => none

/-- The member a decode expression is the initial value of. -/
def ofVal (e : Elem) : Val → Option Value
  | .int _ n => if e.isString then none else some (.int n)
  | .f32 x => some (.float x)
  | .bool b => some (.bool b)
  | .enum i => some (.enum i)
  | .option _ => none

/-- The value argument of `pack_bits` is a `u32`. -/
def argument : Val → Option Nat
  | .int .u32 n => some n.toNat
  | _ => none

variable (fl : F32)

/-- `pack_bits(buf, off, bits, value)` -/
def pack (e : Elem) (args : Nat × Tokens) (buf : List UInt8) (off : Nat) (v : Value) :
    Option (List UInt8) := do
  let x ← grammar.value (Env.meaning ⟨fl, e.enum, member e v, fun _ => none⟩) args.2
  let n ← argument x
  packBits buf off args.1 n

/-- The member that is read at an offset. -/
def unpack (e : Elem) (text : Tokens) (buf : List UInt8) (off : Nat) : Option Value := do
  let x ← grammar.value (Env.meaning ⟨fl, e.enum, none, unpackBits buf off⟩) text
  ofVal e x

/-! ## What the texts are read as -/

/-- The `f32` expressions of the leaves. -/
def F32.exprs : FloatExprs where
  step e
    | .float x =>
      let d := match e.min with
        | some m => fl.sub x (fl.lit m)
        | none => x
      some (fl.toU32 (fl.mul d (fl.lit e.scale))).toNat
    | _ => none
  unstep e u :=
    let q := fl.div (fl.ofInt u) (fl.lit e.scale)
    some (.float (match e.min with
      | some m => fl.add q (fl.lit m)
      | none => q))

section Read

variable {E : Env} {e : Elem} {bits w : Nat} {n : Int} {u : Bool}

/-- The type of an integer leaf. -/
def tyOf (u : Bool) : Ty := if u then .u32 else .i32

/-- The tree whose text ends in `timesScale`. -/
def timesTree (e : Elem) (ty : Ty) (t : Tree Atom Unary Binary) : Tree Atom Unary Binary :=
  if e.hasScale then .method .wrappingMul t (.atom (.lit e.scale ty)) else t

/-- The tree whose text ends in `overScale`. -/
def overTree (e : Elem) (ty : Ty) (t : Tree Atom Unary Binary) : Tree Atom Unary Binary :=
  if e.hasScale then .between .div t (.atom (.lit e.scale ty)) else t

theorem flatten_timesTree (ty : Ty) (t : Tree Atom Unary Binary) :
    (timesTree e ty t).flatten = t.flatten ++ timesScale e ty := by
  unfold timesTree timesScale
  split
  · rfl
  · exact (List.append_nil _).symm

theorem flatten_overTree (ty : Ty) (t : Tree Atom Unary Binary) :
    (overTree e ty t).flatten = t.flatten ++ overScale e ty := by
  unfold overTree overScale
  split
  · rfl
  · exact (List.append_nil _).symm

theorem eval_lit (u : Bool) (n : Int) :
    (Tree.atom (.lit (.int n) (tyOf u))).eval E.meaning = (lit u n).map (.int (tyOf u)) := by
  cases u <;> rfl

/-- Operators and methods on integers of one type. -/
theorem eval_int {l r : Tree Atom Unary Binary} {a b : Option Int} (o : Binary)
    (hl : l.eval E.meaning = a.map (.int (tyOf u)))
    (hr : r.eval E.meaning = b.map (.int (tyOf u))) :
    (do E.binary o (← l.eval E.meaning) (← r.eval E.meaning))
      = (a.bind fun x => b.bind fun y => intOp u x y o).map (.int (tyOf u)) := by
  rw [hl, hr]
  cases a with
  | none => rfl
  | some x =>
    cases b with
    | none => rfl
    | some y => cases u <;> rfl

theorem eval_add {l : Tree Atom Unary Binary} {a : Option Int}
    (hl : l.eval E.meaning = a.map (.int (tyOf u))) (n : Int) :
    (Tree.between .add l (.paren (.atom (.lit (.int n) (tyOf u))))).eval E.meaning
      = (a.bind fun x => (lit u n).bind fun y => checked u (x + y)).map (.int (tyOf u)) :=
  eval_int .add hl (eval_lit u n)

theorem eval_wrappingAdd {l : Tree Atom Unary Binary} {a : Option Int}
    (hl : l.eval E.meaning = a.map (.int (tyOf u))) (n : Int) :
    (Tree.method .wrappingAdd l (.atom (.lit (.int n) (tyOf u)))).eval E.meaning
      = (a.bind fun x => (lit u n).bind fun y => some (wrapping u (x + y))).map
          (.int (tyOf u)) :=
  eval_int .wrappingAdd hl (eval_lit u n)

/-- A scale with a decimal point has no type suffix. -/
theorem eval_scale :
    (Tree.atom (.lit e.scale (tyOf u))).eval E.meaning = (scaleLit u e).map (.int (tyOf u)) := by
  unfold scaleLit
  cases e.scale with
  | int k => exact eval_lit u k
  | float q => cases u <;> rfl

theorem eval_timesTree {t : Tree Atom Unary Binary} {a : Option Int}
    (ht : t.eval E.meaning = a.map (.int (tyOf u))) :
    (timesTree e (tyOf u) t).eval E.meaning
      = (a.bind (mulScale u e)).map (.int (tyOf u)) := by
  unfold timesTree mulScale
  split
  · exact eval_int .wrappingMul ht eval_scale
  · rw [ht, Option.bind_fun_some]

theorem eval_overTree {t : Tree Atom Unary Binary} {a : Option Int}
    (ht : t.eval E.meaning = a.map (.int (tyOf u))) :
    (overTree e (tyOf u) t).eval E.meaning
      = (a.bind (divScale u e)).map (.int (tyOf u)) := by
  unfold overTree divScale
  split
  · exact eval_int .div ht eval_scale
  · rw [ht, Option.bind_fun_some]

/-- The quotient may stand in a sum. -/
theorem keeps_overTree {t : Tree Atom Unary Binary} {ty : Ty} (h : grammar.keeps 5 t = true) :
    grammar.keeps 4 (overTree e ty t) = true := by
  unfold overTree
  split
  · have hf : grammar.follows [.between .div] t = true := Grammar.follows_of_stops h rfl
    have h4 : grammar.keeps (grammar.between .div) t = true :=
      Grammar.keeps_mono (show 4 ≤ 5 by omega) h
    simp only [Grammar.keeps, h4, hf]
    rfl
  · exact Grammar.keeps_mono (by omega) h

/-- A quotient plus a literal. -/
theorem keeps_sum {q : Tree Atom Unary Binary} {a : Atom} (h : grammar.keeps 4 q = true) :
    grammar.keeps 0 (.between .add q (.paren (.atom a))) = true := by
  have hf : grammar.follows [.between .add] q = true := Grammar.follows_of_stops h rfl
  have h3 : grammar.keeps (grammar.between .add) q = true :=
    Grammar.keeps_mono (show 3 ≤ 4 by omega) h
  simp only [Grammar.keeps, h3, hf]
  rfl

/-- A quotient in parentheses, with a method called on it. -/
theorem keeps_wrapped {q : Tree Atom Unary Binary} {b : Binary} {a : Atom}
    (h : grammar.keeps 4 q = true) :
    grammar.keeps 0 (.method b (.paren q) (.atom a)) = true := by
  have h0 : grammar.keeps 0 q = true := Grammar.keeps_mono (by omega) h
  simp only [Grammar.keeps, h0]
  rfl

/-! ### Decoding -/

/-- What `unpack_bits` gives, and that as an `i32`. -/
def wire (u : Bool) (bits : Nat) : Tree Atom Unary Binary :=
  if u then .atom (.unpackBits bits) else .paren (.after (.cast .i32) (.atom (.unpackBits bits)))

theorem eval_wire (hr : E.read bits = some w) : (wire u bits).eval E.meaning
    = (some (if u then (w : Int) else wrapS 32 w)).map (.int (tyOf u)) := by
  cases u <;> simp [wire, Tree.eval, Env.atom, Env.unary, hr, tyOf]

/-- The decode expression of a leaf: the inline one if `scalar`. -/
def unpackTree (scalar : Bool) (bits : Nat) (e : Elem) : Tree Atom Unary Binary :=
  if e.isBool then .after .nonzero (wire true 1)
  else if e.isEnum then
    .after .unwrapOrDefault (.call .fromWire (.after (.cast .u8) (wire true bits)))
  else if e.isFloat then
    let q : Tree Atom Unary Binary :=
      .between .div (.paren (.after (.cast .f32) (wire true bits))) (.atom (.lit e.scale .f32))
    match e.min with
    | some m => .between .add q (.paren (.atom (.lit m .f32)))
    | none => q
  else if e.rawStorage then
    match e.minWire with
    | some m =>
      if e.isSigned then .between .add (wire false bits) (.paren (.atom (.lit (.int m) .i32)))
      else .method .wrappingAdd (wire true bits) (.atom (.lit (.int m) .u32))
    | none => wire (!e.isSigned) bits
  else if e.isSigned then
    let q := overTree e .i32 (wire false bits)
    match e.min with
    | some m => .between .add q (.paren (.atom (.lit (.int m.toInt) .i32)))
    | none => q
  else
    match unsignedMin e with
    | some m =>
      let b : Tree Atom Unary Binary := .atom (.lit (.int m.toInt) .u32)
      if scalar then
        if e.hasScale then
          .between .div (wire true bits) (.method .wrappingAdd (.atom (.lit e.scale .u32)) b)
        else .method .wrappingAdd (wire true bits) b
      else .method .wrappingAdd (.paren (overTree e .u32 (wire true bits))) b
    | none => overTree e .u32 (wire true bits)

/-- The trees have the texts of the templates. -/
theorem flatten_unpackTree (scalar : Bool) : (unpackTree scalar e.size e).flatten
    = if scalar then unpackField e.size e else rsUnpackExpr e := by
  unfold unpackTree unpackField rsUnpackExpr
  by_cases hb : e.isBool = true
  · simp only [if_pos hb]
    cases scalar <;> rfl
  simp only [if_neg hb]
  by_cases hen : e.isEnum = true
  · simp only [if_pos hen]
    cases scalar <;> rfl
  simp only [if_neg hen]
  by_cases hf : e.isFloat = true
  · simp only [if_pos hf]
    cases scalar <;> cases e.min <;> rfl
  simp only [if_neg hf]
  by_cases hr : e.rawStorage = true
  · simp only [if_pos hr]
    cases scalar <;> cases e.minWire <;> cases e.isSigned <;> rfl
  simp only [if_neg hr]
  by_cases hs : e.isSigned = true
  · simp only [if_pos hs, ite_self]
    cases e.min with
    | none => exact flatten_overTree .i32 _
    | some m => simp [Tree.flatten, flatten_overTree, wire]
  simp only [if_neg hs]
  cases unsignedMin e with
  | none =>
    simp only [ite_self, flatten_overTree]
    rfl
  | some m =>
    cases scalar with
    | false => simp [Tree.flatten, flatten_overTree, wire]
    | true => cases hs : e.hasScale <;> simp [Tree.flatten, overScale, wire, hs]

/-- The tree of a decode expression is read as it is meant. -/
theorem keeps_unpackTree {scalar : Bool} :
    grammar.keeps 0 (unpackTree scalar bits e) = true := by
  have hwire : ∀ u, grammar.keeps 5 (wire u bits) = true := by intro u; cases u <;> rfl
  have hquot : ∀ {ty u}, grammar.keeps 4 (overTree e ty (wire u bits)) = true :=
    keeps_overTree (hwire _)
  unfold unpackTree
  by_cases hb : e.isBool = true
  · rw [if_pos hb]
    rfl
  rw [if_neg hb]
  by_cases hen : e.isEnum = true
  · rw [if_pos hen]
    rfl
  rw [if_neg hen]
  by_cases hf : e.isFloat = true
  · rw [if_pos hf]
    cases e.min <;> rfl
  rw [if_neg hf]
  by_cases hr : e.rawStorage = true
  · rw [if_pos hr]
    cases e.minWire <;> cases e.isSigned <;> rfl
  rw [if_neg hr]
  by_cases hs : e.isSigned = true
  · rw [if_pos hs]
    cases e.min with
    | none => exact Grammar.keeps_mono (by omega) hquot
    | some m => exact keeps_sum hquot
  rw [if_neg hs]
  cases unsignedMin e with
  | none => exact Grammar.keeps_mono (by omega) hquot
  | some m =>
    cases scalar with
    | false => exact keeps_wrapped hquot
    | true => cases e.hasScale <;> rfl

/-- A signed leaf, read as `unstepSigned` says. -/
theorem eval_unpackTree_signed {scalar : Bool} (hr : E.read bits = some w)
    (hb : e.isBool = false) (hen : e.isEnum = false) (hf : e.isFloat = false)
    (hs : e.isSigned = true) :
    (unpackTree scalar bits e).eval E.meaning = (unstepSigned e w).map (.int .i32) := by
  have hi32 := eval_wire (u := false) hr
  rw [if_neg Bool.false_ne_true] at hi32
  cases hraw : e.rawStorage with
  | true =>
    cases hm : e.minWire with
    | none =>
      have htree : unpackTree scalar bits e = wire false bits := by
        simp [unpackTree, hb, hen, hf, hraw, hm, hs]
      have hstep : unstepSigned e w = some (wrapS 32 w) := by simp [unstepSigned, hraw, hm]
      rw [htree, hstep]
      exact hi32
    | some m =>
      -- `unpack_bits(..) as i32 + (min)`
      have htree : unpackTree scalar bits e
          = .between .add (wire false bits) (.paren (.atom (.lit (.int m) .i32))) := by
        simp [unpackTree, hb, hen, hf, hraw, hm, hs]
      have hstep : unstepSigned e w
          = (lit false m).bind fun b => checked false (wrapS 32 w + b) := by
        simp [unstepSigned, hraw, hm]
      rw [htree, hstep]
      exact (eval_add hi32 m).trans (by rw [Option.bind_some]; rfl)
  | false =>
    have hq := eval_overTree (e := e) hi32
    rw [Option.bind_some] at hq
    cases hm : e.min with
    | none =>
      have htree : unpackTree scalar bits e = overTree e .i32 (wire false bits) := by
        simp [unpackTree, hb, hen, hf, hraw, hm, hs]
      have hstep : unstepSigned e w = divScale false e (wrapS 32 w) := by
        simp [unstepSigned, hraw, hm]
      rw [htree, hstep]
      exact hq
    | some m =>
      -- the quotient first, then the minimum
      have htree : unpackTree scalar bits e = .between .add (overTree e .i32 (wire false bits))
          (.paren (.atom (.lit (.int m.toInt) .i32))) := by
        simp [unpackTree, hb, hen, hf, hraw, hm, hs]
      have hstep : unstepSigned e w = (divScale false e (wrapS 32 w)).bind fun q =>
          (lit false m.toInt).bind fun b => checked false (q + b) := by
        simp [unstepSigned, hraw, hm]
      rw [htree, hstep]
      exact eval_add hq m.toInt

/-- An unsigned leaf, read as `unstepUnsigned` says; the inline text is the one for a scalar. -/
theorem eval_unpackTree_unsigned {scalar : Bool} (hr : E.read bits = some w)
    (hb : e.isBool = false) (hen : e.isEnum = false) (hf : e.isFloat = false)
    (hs : e.isSigned = false) :
    (unpackTree scalar bits e).eval E.meaning = (unstepUnsigned scalar e w).map (.int .u32) := by
  have hu32 := eval_wire (u := true) hr
  rw [if_pos rfl] at hu32
  cases hraw : e.rawStorage with
  | true =>
    cases hm : e.minWire with
    | none =>
      have htree : unpackTree scalar bits e = wire true bits := by
        simp [unpackTree, hb, hen, hf, hraw, hm, hs]
      have hstep : unstepUnsigned scalar e w = some (w : Int) := by
        simp [unstepUnsigned, hraw, hm]
      rw [htree, hstep]
      exact hu32
    | some m =>
      have htree : unpackTree scalar bits e
          = .method .wrappingAdd (wire true bits) (.atom (.lit (.int m) .u32)) := by
        simp [unpackTree, hb, hen, hf, hraw, hm, hs]
      have hstep : unstepUnsigned scalar e w
          = (lit true m).bind fun b => some (wrapping true (w + b)) := by
        simp [unstepUnsigned, hraw, hm]
      rw [htree, hstep]
      exact (eval_wrappingAdd hu32 m).trans (by rw [Option.bind_some]; rfl)
  | false =>
    have hq := eval_overTree (e := e) hu32
    rw [Option.bind_some] at hq
    have hmin : unsignedMin e = e.packedMin := by rw [Elem.packedMin, hs]; rfl
    cases hm : e.packedMin with
    | none =>
      have htree : unpackTree scalar bits e = overTree e .u32 (wire true bits) := by
        simp [unpackTree, hb, hen, hf, hraw, hmin, hm, hs]
      have hstep : unstepUnsigned scalar e w = divScale true e w := by
        simp [unstepUnsigned, hraw, hm]
      rw [htree, hstep]
      exact hq
    | some m =>
      cases scalar with
      | false =>
        have htree : unpackTree false bits e = .method .wrappingAdd
            (.paren (overTree e .u32 (wire true bits))) (.atom (.lit (.int m.toInt) .u32)) := by
          simp [unpackTree, hb, hen, hf, hraw, hmin, hm, hs]
        have hstep : unstepUnsigned false e w = (divScale true e w).bind fun q =>
            (lit true m.toInt).bind fun b => some (wrapping true (q + b)) := by
          simp only [unstepUnsigned, hraw, hm]
          cases lit true m.toInt <;> cases divScale true e w <;> simp
        rw [htree, hstep]
        exact eval_wrappingAdd hq m.toInt
      | true =>
        -- the method is called on the scale, if there is one
        cases hsc : e.hasScale with
        | false =>
          have htree : unpackTree true bits e = .method .wrappingAdd (wire true bits)
              (.atom (.lit (.int m.toInt) .u32)) := by
            simp [unpackTree, hb, hen, hf, hraw, hmin, hm, hs, hsc]
          have hstep : unstepUnsigned true e w
              = (lit true m.toInt).bind fun b => some (wrapping true (w + b)) := by
            simp [unstepUnsigned, hraw, hm, hsc]
          rw [htree, hstep]
          exact (eval_wrappingAdd hu32 m.toInt).trans (by rw [Option.bind_some]; rfl)
        | true =>
          have htree : unpackTree true bits e = .between .div (wire true bits)
              (.method .wrappingAdd (.atom (.lit e.scale .u32))
                (.atom (.lit (.int m.toInt) .u32))) := by
            simp [unpackTree, hb, hen, hf, hraw, hmin, hm, hs, hsc]
          have hstep : unstepUnsigned true e w = ((scaleLit true e).bind fun k =>
              (lit true m.toInt).bind fun b => some (wrapping true (k + b))).bind
                (div true w) := by
            simp only [unstepUnsigned, hraw, hm, hsc]
            cases lit true m.toInt <;> cases scaleLit true e <;> simp
          have hd := eval_wrappingAdd (E := E) (eval_scale (e := e) (u := true)) m.toInt
          rw [htree, hstep]
          exact (eval_int .div hu32 hd).trans (by rw [Option.bind_some]; rfl)

/-- Nothing is decoded without the bits. -/
theorem eval_unpackTree_none {scalar : Bool} (hr : E.read (PackLang.leafWidth e bits) = none) :
    (unpackTree scalar bits e).eval E.meaning = none := by
  have hwire : ∀ u, (wire u (PackLang.leafWidth e bits)).eval E.meaning = none := by
    intro u
    cases u <;> simp [wire, Tree.eval, Env.atom, hr]
  have hover : ∀ {ty t}, t.eval E.meaning = none → (overTree e ty t).eval E.meaning = none := by
    intro ty t ht
    unfold overTree
    split
    · simp [Tree.eval, ht]
    · exact ht
  unfold unpackTree
  by_cases hb : e.isBool = true
  · have h1 := hwire true
    rw [PackLang.leafWidth, if_pos hb] at h1
    simp [hb, Tree.eval, h1]
  rw [PackLang.leafWidth, if_neg hb] at hwire
  cases e.min <;> cases e.minWire <;> cases unsignedMin e <;> split_ifs <;>
    simp [Tree.eval, hwire, hover]

theorem ofVal_int {o : Option Int} {ty : Ty} :
    (o.map (.int ty)).bind (ofVal e) = if e.isString then none else o.map .int := by
  cases o with
  | none => simp
  | some n => rfl

/-- **What `unpack_bits` gives is read as `unstep` says.** -/
theorem eval_unpackTree {scalar : Bool} (hbits : E.read (PackLang.leafWidth e bits) = some w)
    (henum : E.enum = e.enum) :
    ((unpackTree scalar bits e).eval E.meaning).bind (ofVal e)
      = unstep E.fl.exprs scalar e w := by
  by_cases hb : e.isBool = true
  · -- one bit
    rw [PackLang.leafWidth, if_pos hb] at hbits
    unfold unpackTree unstep
    rw [if_pos hb, if_pos hb, Tree.eval, eval_wire hbits]
    simp [Env.unary, ofVal]
  have hread : E.read bits = some w := by rwa [PackLang.leafWidth, if_neg hb] at hbits
  have hwire : (wire true bits).eval E.meaning = some (.int .u32 w) := eval_wire hread
  by_cases hen : e.isEnum = true
  · -- `from_wire(.. as u8)` sees the low byte only
    unfold unpackTree unstep
    rw [if_neg hb, if_neg hb, if_pos hen, if_pos hen]
    have hcast : E.unary (.cast .u8) (.int .u32 w) = some (.int .u8 ↑(w % 256)) :=
      congrArg (fun n => some (Val.int .u8 n)) (by simp [wrapU])
    simp only [Tree.eval, hwire, Env.meaning_unary, Option.bind_eq_bind, Option.bind_some, hcast]
    cases ht : e.enum with
    | none => simp [Env.unary, henum, ht]
    | some t =>
      have hfrom : E.unary .fromWire (.int .u8 ↑(w % 256)) = if t.count ≤ 256 then
          some (.option (if w % 256 < t.count then some ↑(w % 256) else none)) else none := by
        simp only [Env.unary, henum, ht, Option.bind_eq_bind, Option.bind_some, Int.ofNat_lt]
      rw [hfrom]
      unfold fromWire
      by_cases hc : t.count ≤ 256
      · simp only [if_pos hc]
        split <;> rfl
      · simp only [if_neg hc]
        rfl
  by_cases hf : e.isFloat = true
  · -- the terms of the expression are those of the float operations
    unfold unpackTree unstep
    rw [if_neg hb, if_neg hb, if_neg hen, if_neg hen, if_pos hf, if_pos hf]
    cases hm : e.min <;>
      simp [Tree.eval, hwire, Env.unary, Env.binary, Env.atom, ofVal, F32.exprs, hm]
  have hb' : e.isBool = false := by simpa using hb
  have hen' : e.isEnum = false := by simpa using hen
  have hf' : e.isFloat = false := by simpa using hf
  unfold unstep
  rw [if_neg hb, if_neg hen, if_neg hf]
  cases hs : e.isSigned with
  | false => rw [eval_unpackTree_unsigned hread hb' hen' hf' hs, ofVal_int,
    if_neg Bool.false_ne_true]
  | true => rw [eval_unpackTree_signed hread hb' hen' hf' hs, ofVal_int, if_pos rfl]

/-! ### Encoding -/

/-- The encode expression of a leaf. -/
def packTree (e : Elem) : Tree Atom Unary Binary :=
  let val : Tree Atom Unary Binary := .atom .val
  if e.isBool then .call .ifElse val
  else if e.isEnum then .after (.cast .u32) (.after .toWire val)
  else if e.isFloat then
    let d := match e.min with
      | some m => .paren (.between .sub val (.paren (.atom (.lit m .f32))))
      | none => val
    .after (.cast .u32) (.paren (.between .mul d (.atom (.lit e.scale .f32))))
  else if e.rawStorage then
    match e.minWire with
    | some m =>
      if e.isSigned then
        .paren (.after (.cast .u32)
          (.paren (.between .sub val (.paren (.atom (.lit (.int m) .i32))))))
      else .method .wrappingSub val (.atom (.lit (.int m) .u32))
    | none => .after (.cast .u32) val
  else if e.isSigned then
    let d := match e.min with
      | some m => .paren (.between .sub val (.paren (.atom (.lit (.int m.toInt) .i32))))
      | none => val
    .after (.cast .u32) (.paren (timesTree e .i32 d))
  else
    match unsignedMin e with
    | some m =>
      timesTree e .u32 (.paren (.method .wrappingSub val (.atom (.lit (.int m.toInt) .u32))))
    | none => timesTree e .u32 val

/-- The text of an encode expression is that of its tree. -/
theorem flatten_packTree :
    rsPackLeaf e = (PackLang.leafWidth e e.size, (packTree e).flatten) := by
  unfold packTree rsPackLeaf PackLang.leafWidth
  by_cases hb : e.isBool = true
  · simp only [if_pos hb]
    rfl
  simp only [if_neg hb]
  by_cases hen : e.isEnum = true
  · simp only [if_pos hen]
    rfl
  simp only [if_neg hen]
  by_cases hf : e.isFloat = true
  · simp only [if_pos hf]
    cases e.min <;> rfl
  simp only [if_neg hf]
  by_cases hr : e.rawStorage = true
  · simp only [if_pos hr]
    cases e.minWire <;> cases e.isSigned <;> rfl
  simp only [if_neg hr]
  by_cases hs : e.isSigned = true
  · simp only [if_pos hs]
    cases e.min <;> simp [Tree.flatten, flatten_timesTree]
  simp only [if_neg hs]
  cases unsignedMin e <;> simp [Tree.flatten, flatten_timesTree]

/-- **The macro and the inline code encode with the same text.** -/
theorem packField_eq : packField e.size e = rsPackLeaf e := rfl

/-- And that tree is read as it is meant. -/
theorem keeps_packTree : grammar.keeps 0 (packTree e) = true := by
  unfold packTree
  by_cases hb : e.isBool = true
  · simp only [if_pos hb]
    rfl
  simp only [if_neg hb]
  by_cases hen : e.isEnum = true
  · simp only [if_pos hen]
    rfl
  simp only [if_neg hen]
  by_cases hf : e.isFloat = true
  · simp only [if_pos hf]
    cases e.min <;> rfl
  simp only [if_neg hf]
  by_cases hr : e.rawStorage = true
  · simp only [if_pos hr]
    cases e.minWire <;> cases e.isSigned <;> rfl
  simp only [if_neg hr]
  unfold timesTree
  by_cases hs : e.isSigned = true
  · simp only [if_pos hs]
    cases e.min <;> cases e.hasScale <;> rfl
  simp only [if_neg hs]
  cases unsignedMin e <;> cases e.hasScale <;> rfl

theorem wrapU32_eq (n : Int) : wrapU 32 n = (toU32 n : Nat) := by
  unfold wrapU toU32
  omega

theorem eval_cast {t : Tree Atom Unary Binary} {a : Option Int}
    (ht : t.eval E.meaning = a.map (.int (tyOf u))) :
    (Tree.after (.cast .u32) t).eval E.meaning = a.map fun n => .int .u32 (toU32 n) := by
  rw [Tree.eval, ht]
  cases a with
  | none => rfl
  | some n => exact congrArg (fun n => some (Val.int .u32 n)) (wrapU32_eq n)

theorem eval_sub {l : Tree Atom Unary Binary} {a : Option Int}
    (hl : l.eval E.meaning = a.map (.int (tyOf u))) (n : Int) :
    (Tree.between .sub l (.paren (.atom (.lit (.int n) (tyOf u))))).eval E.meaning
      = (a.bind fun x => (lit u n).bind fun y => checked u (x - y)).map (.int (tyOf u)) :=
  eval_int .sub hl (eval_lit u n)

theorem eval_wrappingSub {l : Tree Atom Unary Binary} {a : Option Int}
    (hl : l.eval E.meaning = a.map (.int (tyOf u))) (n : Int) :
    (Tree.method .wrappingSub l (.atom (.lit (.int n) (tyOf u)))).eval E.meaning
      = (a.bind fun x => (lit u n).bind fun y => some (wrapping u (x - y))).map
          (.int (tyOf u)) :=
  eval_int .wrappingSub hl (eval_lit u n)

/-- The argument for an `i32`. -/
theorem eval_packTree_signed (hval : E.val = some (.int .i32 n))
    (hb : e.isBool = false) (hen : e.isEnum = false) (hf : e.isFloat = false)
    (hs : e.isSigned = true) :
    ((packTree e).eval E.meaning).bind argument = stepSigned e n := by
  have hi32 : (Tree.atom .val).eval E.meaning = (some n).map (.int (tyOf false)) := hval
  have harg : ∀ a : Option Int, (a.map fun x => Val.int .u32 (toU32 x)).bind argument
      = a.map toU32 := by
    intro a
    cases a <;> rfl
  cases hraw : e.rawStorage with
  | true =>
    cases hm : e.minWire with
    | none =>
      have htree : packTree e = .after (.cast .u32) (.atom .val) := by
        simp [packTree, hb, hen, hf, hraw, hm]
      have hstep : stepSigned e n = some (toU32 n) := by simp [stepSigned, hraw, hm]
      rw [htree, eval_cast hi32, harg, hstep, Option.map_some]
    | some m =>
      -- the minimum goes into the wire, unscaled
      have htree : packTree e = .paren (.after (.cast .u32)
          (.paren (.between .sub (.atom .val) (.paren (.atom (.lit (.int m) .i32)))))) := by
        simp [packTree, hb, hen, hf, hraw, hm, hs]
      have hstep : stepSigned e n
          = ((lit false m).bind fun b => checked false (n - b)).map toU32 := by
        simp [stepSigned, hraw, hm, Option.map_eq_bind, Option.bind_assoc]
      have hd := eval_sub hi32 m
      rw [Option.bind_some] at hd
      rw [htree, hstep, ← harg]
      exact congrArg (·.bind argument) (eval_cast hd)
  | false =>
    cases hm : e.min with
    | none =>
      have htree : packTree e = .after (.cast .u32) (.paren (timesTree e .i32 (.atom .val))) := by
        simp [packTree, hb, hen, hf, hraw, hm, hs]
      have hstep : stepSigned e n = (mulScale false e n).map toU32 := by
        simp [stepSigned, hraw, hm, Option.map_eq_bind]
      have hp := eval_timesTree (e := e) hi32
      rw [Option.bind_some] at hp
      rw [htree, hstep, ← harg]
      exact congrArg (·.bind argument) (eval_cast hp)
    | some m =>
      -- the difference is checked before it is scaled
      have htree : packTree e = .after (.cast .u32) (.paren (timesTree e .i32
          (.paren (.between .sub (.atom .val) (.paren (.atom (.lit (.int m.toInt) .i32))))))) := by
        simp [packTree, hb, hen, hf, hraw, hm, hs]
      have hstep : stepSigned e n = (((lit false m.toInt).bind fun b =>
          checked false (n - b)).bind (mulScale false e)).map toU32 := by
        simp [stepSigned, hraw, hm, Option.map_eq_bind, Option.bind_assoc]
      have hd : (Tree.paren (.between .sub (.atom .val)
          (.paren (.atom (.lit (.int m.toInt) .i32))))).eval E.meaning = _ :=
        eval_sub hi32 m.toInt
      rw [Option.bind_some] at hd
      have hp := eval_timesTree (e := e) hd
      rw [htree, hstep, ← harg]
      exact congrArg (·.bind argument) (eval_cast hp)

/-- A `u32` is handed to `pack_bits` as it is. -/
theorem argument_u32 {a : Option Int} (h : ∀ x ∈ a, Fits true x) :
    (a.map (Val.int .u32)).bind argument = a.map toU32 := by
  cases a with
  | none => rfl
  | some x =>
    have hx := fits_unsigned.mp (h x rfl)
    exact congrArg some (toU32_of_nonneg hx.1 hx.2).symm

theorem fits_wrapping (n : Int) : Fits true (wrapping true n) := by
  rw [fits_unsigned]
  unfold wrapping wrapU
  simp only [if_true]
  omega

theorem fits_mulScale (h : Fits true n) : ∀ x ∈ mulScale true e n, Fits true x := by
  intro x hx
  unfold mulScale at hx
  split at hx
  · cases hk : scaleLit true e with
    | none => simp [hk] at hx
    | some k =>
      have hx' : wrapping true (n * k) = x := by simpa [hk] using hx
      exact hx' ▸ fits_wrapping _
  · cases hx
    exact h

/-- The argument for a `u32`. -/
theorem eval_packTree_unsigned (hval : E.val = some (.int .u32 n)) (hn : Fits true n)
    (hb : e.isBool = false) (hen : e.isEnum = false) (hf : e.isFloat = false)
    (hs : e.isSigned = false) :
    ((packTree e).eval E.meaning).bind argument = stepUnsigned e n := by
  have hu32 : (Tree.atom .val).eval E.meaning = (some n).map (.int (tyOf true)) := hval
  cases hraw : e.rawStorage with
  | true =>
    cases hm : e.minWire with
    | none =>
      have htree : packTree e = .after (.cast .u32) (.atom .val) := by
        simp [packTree, hb, hen, hf, hraw, hm]
      have hstep : stepUnsigned e n = some (toU32 n) := by simp [stepUnsigned, hraw, hm]
      rw [htree, eval_cast hu32, hstep]
      rfl
    | some m =>
      have htree : packTree e
          = .method .wrappingSub (.atom .val) (.atom (.lit (.int m) .u32)) := by
        simp [packTree, hb, hen, hf, hraw, hm, hs]
      have hstep : stepUnsigned e n
          = ((lit true m).bind fun b => some (wrapping true (n - b))).map toU32 := by
        simp [stepUnsigned, hraw, hm, Option.map_eq_bind, Option.bind_assoc]
      have hd := eval_wrappingSub hu32 m
      rw [Option.bind_some] at hd
      -- no cast is printed: a `wrapping_sub` is a `u32` already
      rw [htree, hstep, ← argument_u32]
      · exact congrArg (·.bind argument) hd
      · intro x hx
        obtain ⟨b, -, hb⟩ := Option.bind_eq_some_iff.mp hx
        cases hb
        exact fits_wrapping _
  | false =>
    have hmin : unsignedMin e = e.packedMin := by rw [Elem.packedMin, hs]; rfl
    cases hm : e.packedMin with
    | none =>
      have htree : packTree e = timesTree e .u32 (.atom .val) := by
        simp [packTree, hb, hen, hf, hraw, hmin, hm, hs]
      have hstep : stepUnsigned e n = (mulScale true e n).map toU32 := by
        simp [stepUnsigned, hraw, hm, Option.map_eq_bind]
      have hp := eval_timesTree (e := e) hu32
      rw [Option.bind_some] at hp
      rw [htree, hstep, ← argument_u32 (fits_mulScale hn)]
      exact congrArg (·.bind argument) hp
    | some m =>
      have htree : packTree e = timesTree e .u32
          (.paren (.method .wrappingSub (.atom .val) (.atom (.lit (.int m.toInt) .u32)))) := by
        simp [packTree, hb, hen, hf, hraw, hmin, hm, hs]
      have hstep : stepUnsigned e n = (((lit true m.toInt).bind fun b =>
          some (wrapping true (n - b))).bind (mulScale true e)).map toU32 := by
        simp [stepUnsigned, hraw, hm, Option.map_eq_bind, Option.bind_assoc]
      have hd : (Tree.paren (.method .wrappingSub (.atom .val)
          (.atom (.lit (.int m.toInt) .u32)))).eval E.meaning = _ :=
        eval_wrappingSub hu32 m.toInt
      rw [Option.bind_some] at hd
      have hp := eval_timesTree (e := e) hd
      rw [htree, hstep, ← argument_u32]
      · exact congrArg (·.bind argument) hp
      · intro x hx
        obtain ⟨d, hd, hmul⟩ := Option.bind_eq_some_iff.mp hx
        obtain ⟨b, -, hb⟩ := Option.bind_eq_some_iff.mp hd
        cases hb
        exact fits_mulScale (fits_wrapping _) x hmul

/-- Nothing is encoded without a member. -/
theorem eval_packTree_none (hval : E.val = none) : (packTree e).eval E.meaning = none := by
  have hv : E.atom .val = none := hval
  have htimes : ∀ {ty t}, t.eval E.meaning = none → (timesTree e ty t).eval E.meaning = none := by
    intro ty t ht
    unfold timesTree
    split
    · simp [Tree.eval, ht]
    · exact ht
  unfold packTree
  cases e.min <;> cases e.minWire <;> cases unsignedMin e <;> split_ifs <;>
    simp [Tree.eval, hv, htimes]

/-- The argument for an enum. Its index is a `u8`, so widening it changes nothing. -/
theorem eval_packTree_enum {i : Int} (hval : E.val = some (.enum i)) (henum : E.enum = e.enum)
    (hb : e.isBool = false) (hen : e.isEnum = true) (scalar : Bool) :
    ((packTree e).eval E.meaning).bind argument = step E.fl.exprs scalar e (.enum i) := by
  have hi : (Tree.atom .val).eval E.meaning = some (.enum i) := hval
  have htree : packTree e = .after (.cast .u32) (.after .toWire (.atom .val)) := by
    simp [packTree, hb, hen]
  rw [htree, Tree.eval, Tree.eval, hi]
  unfold step
  rw [hb, if_neg Bool.false_ne_true, if_pos hen]
  cases ht : e.enum with
  | none => simp [Env.unary, henum, ht]
  | some t =>
    have hwire : E.unary .toWire (.enum i) = (toWire t i).map fun w : Nat => .int .u8 w := by
      simp only [Env.unary, henum, ht]
      rfl
    cases hw : toWire t i with
    | none => simp [hwire, hw]
    | some w =>
      have hlt : w < 4294967296 := by
        unfold toWire at hw
        split at hw
        next hc => cases hw; omega
        next => cases hw
      have hcast : E.unary (.cast .u32) (.int .u8 w) = some (.int .u32 w) :=
        congrArg (fun n => some (Val.int .u32 n)) (by rw [wrapU32_eq, toU32_natCast hlt])
      simp [hwire, hw, hcast, argument]

/-- **The argument of `pack_bits` is what `step` says.** -/
theorem eval_packTree {v : Value} (hval : E.val = member e v) (henum : E.enum = e.enum)
    (scalar : Bool) :
    ((packTree e).eval E.meaning).bind argument = step E.fl.exprs scalar e v := by
  by_cases hb : e.isBool = true
  · cases v with
    | bool b =>
      have hb' : E.val = some (.bool b) := by rw [hval, member, if_pos hb]
      simp [packTree, step, hb, Tree.eval, Env.atom, Env.unary, hb', argument]
      cases b <;> rfl
    | _ =>
      rw [eval_packTree_none (by simp [hval, member, hb])]
      simp [step, hb]
  by_cases hen : e.isEnum = true
  · cases v with
    | enum i =>
      have hi : E.val = some (.enum i) := by simp [hval, member, hb, hen]
      exact eval_packTree_enum hi henum (by simpa using hb) hen scalar
    | _ =>
      rw [eval_packTree_none (by simp [hval, member, hb, hen])]
      simp [step, hb, hen]
  by_cases hf : e.isFloat = true
  · cases v with
    | float x =>
      have hx : E.val = some (.f32 x) := by simp [hval, member, hb, hen, hf]
      cases hm : e.min <;>
        simp [packTree, step, hb, hen, hf, Tree.eval, Env.atom, Env.unary, Env.binary, hx,
          argument, F32.exprs, hm]
    | _ =>
      rw [eval_packTree_none (by simp [hval, member, hb, hen, hf])]
      simp [step, hb, hen, hf, F32.exprs]
  by_cases hstr : e.isString = true
  · rw [eval_packTree_none (by cases v <;> simp [hval, member, hb, hen, hf, hstr])]
    simp [step, hb, hen, hf, hstr]
  have hb' : e.isBool = false := by simpa using hb
  have hen' : e.isEnum = false := by simpa using hen
  have hf' : e.isFloat = false := by simpa using hf
  unfold step
  rw [if_neg hb, if_neg hen, if_neg hf, if_neg hstr]
  cases v with
  | int n =>
    by_cases hfit : Fits (!e.isSigned) n
    · have hmem : E.val = some (.int (if e.isSigned then .i32 else .u32) n) := by
        simp [hval, member, hb, hen, hf, hstr, hfit]
      simp only [if_pos hfit]
      cases hs : e.isSigned with
      | false =>
        rw [hs] at hfit hmem
        exact eval_packTree_unsigned hmem hfit hb' hen' hf' hs
      | true =>
        rw [hs] at hmem
        exact eval_packTree_signed hmem hb' hen' hf' hs
    · rw [eval_packTree_none (by simp [hval, member, hfit])]
      simp [hfit]
  | _ =>
    rw [eval_packTree_none (by simp [hval, member, hb, hen, hf])]
    rfl

end Read

/-! ## The whole leaf -/

section Leaf

variable {fl} {e : Elem} {buf : List UInt8} {off : Nat}

/-- **The inline expression of a field and the macro's expression decode as `unstep` says.** -/
theorem unpack_eq (scalar : Bool) :
    unpack fl e (if scalar then unpackField e.size e else rsUnpackExpr e) buf off
      = (unpackBits buf off (PackLang.leafWidth e e.size)).bind (unstep fl.exprs scalar e) := by
  unfold unpack
  rw [← flatten_unpackTree, Grammar.value_flatten _ keeps_unpackTree]
  cases hr : unpackBits buf off (PackLang.leafWidth e e.size) with
  | none => rw [eval_unpackTree_none hr]; rfl
  | some w => exact eval_unpackTree hr rfl

/-- **Both encode as `step` says.** -/
theorem pack_eq (scalar : Bool) (v : Value) :
    pack fl e (if scalar then packField e.size e else rsPackLeaf e) buf off v
      = (step fl.exprs scalar e v).bind (packBits buf off (PackLang.leafWidth e e.size)) := by
  have hargs : (if scalar then packField e.size e else rsPackLeaf e)
      = (PackLang.leafWidth e e.size, (packTree e).flatten) := by
    cases scalar <;> exact flatten_packTree
  unfold pack
  rw [hargs, Grammar.value_flatten _ keeps_packTree]
  rw [← eval_packTree (E := ⟨fl, e.enum, member e v, fun _ => none⟩) rfl rfl scalar]
  exact (Option.bind_assoc ..).symm

end Leaf

end ProtoEmb.Codec.Rust.Text

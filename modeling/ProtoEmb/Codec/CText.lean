import ProtoEmb.Codec.C
import ProtoEmb.Lib.Precedence

/-!
# The text of the C leaf expressions

`protocol.c.j2` writes every packed leaf expression in `c_pack_leaf` or `c_unpack_leaf`, for
array elements, optional values and union variants, and again inline for a field, in `*_encode`
and `*_pack`, in `*_decode` and `*_unpack`. Here they are as texts, read by C's operator
precedence.

* `unpack_eq`, `pack_eq`: on leaves without floating-point arithmetic, what the texts mean is
  what `unstep` and `step` say.
* `packField_eq`, `unpackField_eq`: the inline text is that of the macro.
-/

namespace ProtoEmb.Codec.C.Text

open ProtoEmb.Lib ProtoEmb.Schema

/-! ## Tokens -/

inductive Ty where
  | uint32
  | int32
  | uint8
  | float
  /-- the enum of the leaf -/
  | enum

inductive Atom where
  /-- the value to encode: `src->field`, `src->field[i]`, `src->u.variant` -/
  | val
  /-- `unpack_bits(buf, off, bits)` -/
  | unpackBits (bits : Nat)
  | lit (n : Schema.Num)
  /-- a literal with the suffix `f` -/
  | litF (n : Schema.Num)

inductive Unary where
  /-- `(ty)` -/
  | cast (ty : Ty)
  /-- `? 1U : 0U` -/
  | ifElse
  /-- `!= 0` -/
  | nonzero
  /-- `*_VALUE_TO_WIRE[` -/
  | valueToWireTable
  /-- `*_valueToWire(` -/
  | valueToWireCall
  /-- `*_WIRE_TO_VALUE[` -/
  | wireToValueTable
  /-- `sign_extend(`, with the second argument -/
  | signExtend (bits : Nat)

inductive Binary where
  | add
  | sub
  | mul
  | div

abbrev Tokens := List (Token Atom Unary Binary)

/-- Casts bind more tightly than `*` and `/`, these than `+` and `-`, then come `!=` and `?:`. -/
def grammar : Grammar Unary Binary where
  before _ := 5
  after
    | .ifElse => 1
    | _ => 2
  between
    | .mul | .div => 4
    | .add | .sub => 3
  method _ := 6

/-! ## The templates -/

/-- `enums[f.type]._is_remap` -/
def isRemap (e : Elem) : Bool := e.enum.any Enum.isRemap

/-- `enums[f.type]._remap_style == 'array'` -/
def isDense (e : Elem) : Bool := e.enum.any fun t => t.remapStyle = .array

/-- `f._min is not none and f._min != 0` -/
def unsignedMin (e : Elem) : Option Schema.Num := e.min.filter fun m => m.toRat ≠ 0

/-- `c_pack_leaf`: the width and the value argument of `pack_bits`. -/
def cPackLeaf (e : Elem) : Nat × Tokens :=
  if e.isBool then (1, [.atom .val, .after .ifElse])
  else if e.isEnum then
    if isRemap e && isDense e then (e.size, [.call .valueToWireTable, .atom .val, .closing])
    else if isRemap e then
      (e.size, [.call .valueToWireCall, .before (.cast .uint8), .atom .val, .closing])
    else (e.size, [.before (.cast .uint32), .atom .val])
  else if e.rawStorage then
    match e.minWire with
    | some m =>
      (e.size, [.before (.cast .uint32), .opening, .atom .val, .between .sub, .opening,
        .atom (.lit (.int m)), .closing, .closing])
    | none => (e.size, [.before (.cast .uint32), .atom .val])
  else if e.isSigned then
    match e.min with
    | some m =>
      if e.isFloat then
        (e.size, [.before (.cast .uint32), .opening, .opening, .atom .val, .between .sub,
          .opening, .atom (.litF m), .closing, .closing, .between .mul, .atom (.litF e.scale),
          .closing])
      else
        (e.size, [.before (.cast .uint32), .opening, .opening, .atom .val, .between .sub,
          .opening, .atom (.lit (.int m.toInt)), .closing, .closing, .between .mul,
          .atom (.lit e.scale), .closing])
    | none =>
      (e.size, [.before (.cast .uint32), .opening, .atom .val, .between .mul,
        .atom (.lit e.scale), .closing])
  else
    match unsignedMin e with
    | some m =>
      (e.size, [.before (.cast .uint32), .opening, .opening, .atom .val, .between .sub,
        .opening, .atom (.lit (.int m.toInt)), .closing, .closing, .between .mul,
        .atom (.lit e.scale), .closing])
    | none =>
      (e.size, [.before (.cast .uint32), .opening, .atom .val, .between .mul,
        .atom (.lit e.scale), .closing])

/-- The same inline for a field with `_bits` bits, in `*_encode` and `*_pack`. -/
def packField (bits : Nat) (e : Elem) : Nat × Tokens :=
  if e.isBool then (1, [.atom .val, .after .ifElse])
  else if e.isEnum then
    if isRemap e then
      if isDense e then (bits, [.call .valueToWireTable, .atom .val, .closing])
      else (bits, [.call .valueToWireCall, .before (.cast .uint8), .atom .val, .closing])
    else (bits, [.before (.cast .uint32), .atom .val])
  else if e.rawStorage then
    match e.minWire with
    | some m =>
      (bits, [.before (.cast .uint32), .opening, .atom .val, .between .sub, .opening,
        .atom (.lit (.int m)), .closing, .closing])
    | none => (bits, [.before (.cast .uint32), .atom .val])
  else if e.isSigned then
    match e.min with
    | some m =>
      if e.isFloat then
        (bits, [.before (.cast .uint32), .opening, .opening, .atom .val, .between .sub,
          .opening, .atom (.litF m), .closing, .closing, .between .mul, .atom (.litF e.scale),
          .closing])
      else
        (bits, [.before (.cast .uint32), .opening, .opening, .atom .val, .between .sub,
          .opening, .atom (.lit (.int m.toInt)), .closing, .closing, .between .mul,
          .atom (.lit e.scale), .closing])
    | none =>
      (bits, [.before (.cast .uint32), .opening, .atom .val, .between .mul,
        .atom (.lit e.scale), .closing])
  else
    match unsignedMin e with
    | some m =>
      (bits, [.before (.cast .uint32), .opening, .opening, .atom .val, .between .sub,
        .opening, .atom (.lit (.int m.toInt)), .closing, .closing, .between .mul,
        .atom (.lit e.scale), .closing])
    | none =>
      (bits, [.before (.cast .uint32), .opening, .atom .val, .between .mul,
        .atom (.lit e.scale), .closing])

/-- `c_unpack_leaf`: what is assigned to the member. -/
def cUnpackLeaf (e : Elem) : Tokens :=
  if e.isBool then [.atom (.unpackBits 1), .after .nonzero]
  else if e.isEnum then
    if isRemap e then
      [.before (.cast .enum), .call .wireToValueTable, .atom (.unpackBits e.size), .closing]
    else [.before (.cast .enum), .atom (.unpackBits e.size)]
  else if e.rawStorage then
    match e.minWire with
    | some m =>
      [.before (.cast .int32), .atom (.unpackBits e.size), .between .add, .opening,
        .atom (.lit (.int m)), .closing]
    | none => [.before (.cast .int32), .atom (.unpackBits e.size)]
  else if e.isSigned then
    match e.min with
    | some m =>
      if e.isFloat then
        [.before (.cast .float), .atom (.unpackBits e.size), .between .div,
          .atom (.litF e.scale), .between .add, .opening, .atom (.litF m), .closing]
      else
        [.before (.cast .int32), .atom (.unpackBits e.size), .between .div,
          .atom (.lit e.scale), .between .add, .opening, .atom (.lit (.int m.toInt)), .closing]
    | none =>
      [.call (.signExtend e.size), .atom (.unpackBits e.size), .closing, .between .div,
        .atom (.lit e.scale)]
  else
    match unsignedMin e with
    | some m =>
      [.atom (.unpackBits e.size), .between .div, .atom (.lit e.scale), .between .add,
        .opening, .atom (.lit (.int m.toInt)), .closing]
    | none => [.atom (.unpackBits e.size), .between .div, .atom (.lit e.scale)]

/-- The same inline for a field with `_bits` bits, in `*_decode` and `*_unpack`. The index of
a remap table is a variable of its own there. -/
def unpackField (bits : Nat) (e : Elem) : Tokens :=
  if e.isBool then [.atom (.unpackBits 1), .after .nonzero]
  else if e.isEnum then
    if isRemap e then
      [.before (.cast .enum), .call .wireToValueTable, .atom (.unpackBits bits), .closing]
    else [.before (.cast .enum), .atom (.unpackBits bits)]
  else if e.rawStorage then
    match e.minWire with
    | some m =>
      [.before (.cast .int32), .atom (.unpackBits bits), .between .add, .opening,
        .atom (.lit (.int m)), .closing]
    | none => [.before (.cast .int32), .atom (.unpackBits bits)]
  else if e.isSigned then
    match e.min with
    | some m =>
      if e.isFloat then
        [.before (.cast .float), .atom (.unpackBits bits), .between .div,
          .atom (.litF e.scale), .between .add, .opening, .atom (.litF m), .closing]
      else
        [.before (.cast .int32), .atom (.unpackBits bits), .between .div,
          .atom (.lit e.scale), .between .add, .opening, .atom (.lit (.int m.toInt)), .closing]
    | none =>
      [.call (.signExtend bits), .atom (.unpackBits bits), .closing, .between .div,
        .atom (.lit e.scale)]
  else
    match unsignedMin e with
    | some m =>
      [.atom (.unpackBits bits), .between .div, .atom (.lit e.scale), .between .add,
        .opening, .atom (.lit (.int m.toInt)), .closing]
    | none => [.atom (.unpackBits bits), .between .div, .atom (.lit e.scale)]

/-! ## Their meaning -/

/-- `float` and `double`. A conversion to an integer is undefined outside its range. -/
structure Floating (R : Type) where
  member : UInt32 → R
  lit : Schema.Num → R
  litF : Schema.Num → R
  ofInt : CInt → R
  toFloat : R → R
  toU32 : R → Option Nat
  binary : Binary → R → R → R
  /-- assignment to a `float` -/
  store : R → UInt32
  /-- assignment to an integer member -/
  toMember : String → R → Option Int

inductive Val (R : Type) where
  | int (a : CInt)
  | real (x : R)

/-- What a leaf expression is evaluated over. -/
structure Env (R : Type) where
  fl : Floating R
  /-- the type of an enum leaf -/
  enum : Option Enum
  /-- the value to encode -/
  val : Option (Val R)
  /-- `unpack_bits` at the leaf's offset -/
  read : Nat → Option Nat

/-- The operators on integers. -/
def intOp (a b : CInt) : Binary → Option CInt
  | .add => CInt.op (· + ·) a b
  | .sub => CInt.op (· - ·) a b
  | .mul => CInt.op (· * ·) a b
  | .div => CInt.div a b

namespace Env

variable {R : Type} (E : Env R)

def atom : Atom → Option (Val R)
  | .val => E.val
  | .unpackBits bits => (E.read bits).map fun u : Nat => .int ⟨.uint, u⟩
  | .lit (.int n) => (CInt.lit n).map .int
  | .lit (.float q) => some (.real (E.fl.lit (.float q)))
  | .litF (.int _) => none
  | .litF (.float q) => some (.real (E.fl.litF (.float q)))

def unary : Unary → Val R → Option (Val R)
  | .cast .uint32, .int a => some (.int ⟨.uint, toU32 a.val⟩)
  | .cast .uint32, .real x => (E.fl.toU32 x).map fun u : Nat => .int ⟨.uint, u⟩
  | .cast .int32, .int a => some (.int ⟨.int, wrapS 32 a.val⟩)
  | .cast .uint8, .int a => some (.int ⟨.int, wrapU 8 a.val⟩)
  | .cast .float, .int a => some (.real (E.fl.toFloat (E.fl.ofInt a)))
  | .cast .enum, .int a => some (.int a)
  | .ifElse, .int a => some (.int ⟨.uint, if a.val ≠ 0 then 1 else 0⟩)
  | .nonzero, .int a => some (.int ⟨.int, if a.val ≠ 0 then 1 else 0⟩)
  | .valueToWireTable, .int a => do
    let t ← E.enum
    (denseValueToWire t a.val).map fun w : Nat => .int ⟨.int, w⟩
  | .valueToWireCall, .int a => do
    let t ← E.enum
    (searchValueToWire t a.val.toNat).map fun w : Nat => .int ⟨.int, w⟩
  | .wireToValueTable, .int a => do
    let t ← E.enum
    (wireToValue t a.val.toNat).map fun c => .int ⟨.int, c⟩
  | .signExtend bits, .int a => (signExtend a.val.toNat bits).map fun n => .int ⟨.int, n⟩
  | _, _ => none

/-- An operation with a floating-point operand is a floating-point one. -/
def binary : Binary → Val R → Val R → Option (Val R)
  | o, .int a, .int b => (intOp a b o).map .int
  | o, .int a, .real y => some (.real (E.fl.binary o (E.fl.ofInt a) y))
  | o, .real x, .int b => some (.real (E.fl.binary o x (E.fl.ofInt b)))
  | o, .real x, .real y => some (.real (E.fl.binary o x y))

/-- The value of an expression; one that does not type is `none`. -/
def meaning : Meaning Atom Unary Binary (Val R) := ⟨E.atom, E.unary, E.binary⟩

@[simp] theorem meaning_atom : E.meaning.atom = E.atom := rfl

@[simp] theorem meaning_unary : E.meaning.unary = E.unary := rfl

@[simp] theorem meaning_binary : E.meaning.binary = E.binary := rfl

end Env

variable {R : Type} (fl : Floating R)

/-- The member of a leaf as an operand. -/
def member (e : Elem) : Value → Option (Val R)
  | .bool b => if e.isBool then some (.int ⟨.int, if b then 1 else 0⟩) else none
  | .enum c =>
    if !e.isBool && e.isEnum && e.enum.isSome then some (.int ⟨.int, c⟩) else none
  | .float x =>
    if !e.isBool && !e.isEnum && !e.isString && e.isFloat then some (.real (fl.member x)) else none
  | .int n =>
    if !e.isBool && !e.isEnum && !e.isString && !e.isFloat then (operand e.type n).map .int
    else none
  | _ => none

/-- The member after the assignment. -/
def ofVal (e : Elem) : Val R → Option Value
  | .int a =>
    if e.isBool then some (.bool (a.val ≠ 0))
    else if e.isEnum then if e.enum.isSome then some (.enum a.val) else none
    else if e.isString then none
    else if e.isFloat then some (.float (fl.store (fl.ofInt a)))
    else some (.int (assign e.type a.val))
  | .real x =>
    if e.isBool || e.isEnum || e.isString then none
    else if e.isFloat then some (.float (fl.store x))
    else (fl.toMember e.type x).map .int

/-- The value argument of `pack_bits` is a `uint32_t`. -/
def argument : Val R → Option Nat
  | .int a => some (toU32 a.val)
  | .real x => fl.toU32 x

/-- `pack_bits(buf, off, bits, value)` -/
def pack (e : Elem) (args : Nat × Tokens) (buf : List UInt8) (off : Nat) (v : Value) :
    Option (List UInt8) := do
  let x ← grammar.value (Env.meaning ⟨fl, e.enum, member fl e v, fun _ => none⟩) args.2
  let n ← argument fl x
  packBits buf off args.1 n

/-- The member that is read at an offset. -/
def unpack (e : Elem) (text : Tokens) (buf : List UInt8) (off : Nat) : Option Value := do
  let x ← grammar.value (Env.meaning ⟨fl, e.enum, none, unpackBits buf off⟩) text
  ofVal fl e x

/-! ## What the texts are read as -/

section Copies

variable {e : Elem}

/-- **The inline code encodes with the text of the macro.** -/
theorem packField_eq : packField e.size e = cPackLeaf e := by
  unfold packField cPackLeaf
  cases isRemap e <;> cases isDense e <;> rfl

/-- **The inline code decodes with the text of the macro.** -/
theorem unpackField_eq : unpackField e.size e = cUnpackLeaf e := rfl

end Copies

section Read

variable {fl} {E : Env R} {e : Elem} {bits w : Nat} {n m k : Int} {t l r : Tree Atom Unary Binary}
  {a b : Option CInt}

/-- The value argument of `pack_bits`. -/
def packTree (e : Elem) : Tree Atom Unary Binary :=
  let val : Tree Atom Unary Binary := .atom .val
  if e.isBool then .after .ifElse val
  else if e.isEnum then
    if isRemap e && isDense e then .call .valueToWireTable val
    else if isRemap e then .call .valueToWireCall (.before (.cast .uint8) val)
    else .before (.cast .uint32) val
  else if e.rawStorage then
    match e.minWire with
    | some m =>
      .before (.cast .uint32) (.paren (.between .sub val (.paren (.atom (.lit (.int m))))))
    | none => .before (.cast .uint32) val
  else
    let times (d : Tree Atom Unary Binary) (scale : Atom) : Tree Atom Unary Binary :=
      .before (.cast .uint32) (.paren (.between .mul d (.atom scale)))
    match if e.isSigned then e.min else unsignedMin e with
    | some m =>
      if e.isSigned && e.isFloat then
        times (.paren (.between .sub val (.paren (.atom (.litF m))))) (.litF e.scale)
      else
        times (.paren (.between .sub val (.paren (.atom (.lit (.int m.toInt)))))) (.lit e.scale)
    | none => times val (.lit e.scale)

/-- What is assigned to the member. -/
def unpackTree (e : Elem) : Tree Atom Unary Binary :=
  let wire (bits : Nat) : Tree Atom Unary Binary := .atom (.unpackBits bits)
  if e.isBool then .after .nonzero (wire 1)
  else if e.isEnum then
    .before (.cast .enum)
      (if isRemap e then .call .wireToValueTable (wire e.size) else wire e.size)
  else if e.rawStorage then
    match e.minWire with
    | some m =>
      .between .add (.before (.cast .int32) (wire e.size)) (.paren (.atom (.lit (.int m))))
    | none => .before (.cast .int32) (wire e.size)
  else if e.isSigned then
    match e.min with
    | some m =>
      if e.isFloat then
        .between .add (.between .div (.before (.cast .float) (wire e.size)) (.atom (.litF e.scale)))
          (.paren (.atom (.litF m)))
      else
        .between .add (.between .div (.before (.cast .int32) (wire e.size)) (.atom (.lit e.scale)))
          (.paren (.atom (.lit (.int m.toInt))))
    | none => .between .div (.call (.signExtend e.size) (wire e.size)) (.atom (.lit e.scale))
  else
    match unsignedMin e with
    | some m =>
      .between .add (.between .div (wire e.size) (.atom (.lit e.scale)))
        (.paren (.atom (.lit (.int m.toInt))))
    | none => .between .div (wire e.size) (.atom (.lit e.scale))

/-- The trees have the texts of the templates. -/
theorem flatten_packTree :
    cPackLeaf e = (PackLang.leafWidth e e.size, (packTree e).flatten) := by
  unfold packTree cPackLeaf PackLang.leafWidth
  by_cases hb : e.isBool = true
  · simp only [if_pos hb]
    rfl
  simp only [if_neg hb]
  by_cases hen : e.isEnum = true
  · simp only [if_pos hen]
    cases isRemap e <;> cases isDense e <;> rfl
  simp only [if_neg hen]
  by_cases hr : e.rawStorage = true
  · simp only [if_pos hr]
    cases e.minWire <;> rfl
  simp only [if_neg hr]
  by_cases hs : e.isSigned = true
  · simp only [hs]
    cases e.min <;> cases e.isFloat <;> rfl
  · simp only [hs]
    cases unsignedMin e <;> rfl

theorem keeps_packTree : grammar.keeps 0 (packTree e) = true := by
  unfold packTree
  by_cases hb : e.isBool = true
  · simp only [if_pos hb]
    rfl
  simp only [if_neg hb]
  by_cases hen : e.isEnum = true
  · simp only [if_pos hen]
    cases isRemap e <;> cases isDense e <;> rfl
  simp only [if_neg hen]
  by_cases hr : e.rawStorage = true
  · simp only [if_pos hr]
    cases e.minWire <;> rfl
  simp only [if_neg hr]
  cases e.isFloat <;> cases e.isSigned <;> cases e.min <;> cases unsignedMin e <;> rfl

theorem flatten_unpackTree : cUnpackLeaf e = (unpackTree e).flatten := by
  unfold unpackTree cUnpackLeaf
  by_cases hb : e.isBool = true
  · simp only [if_pos hb]
    rfl
  simp only [if_neg hb]
  by_cases hen : e.isEnum = true
  · simp only [if_pos hen]
    cases isRemap e <;> rfl
  simp only [if_neg hen]
  by_cases hr : e.rawStorage = true
  · simp only [if_pos hr]
    cases e.minWire <;> rfl
  simp only [if_neg hr]
  by_cases hs : e.isSigned = true
  · simp only [if_pos hs]
    cases e.min <;> cases e.isFloat <;> rfl
  · simp only [if_neg hs]
    cases unsignedMin e <;> rfl

theorem keeps_unpackTree : grammar.keeps 0 (unpackTree e) = true := by
  unfold unpackTree
  by_cases hb : e.isBool = true
  · simp only [if_pos hb]
    rfl
  simp only [if_neg hb]
  by_cases hen : e.isEnum = true
  · simp only [if_pos hen]
    cases isRemap e <;> rfl
  simp only [if_neg hen]
  by_cases hr : e.rawStorage = true
  · simp only [if_pos hr]
    cases e.minWire <;> rfl
  simp only [if_neg hr]
  by_cases hs : e.isSigned = true
  · simp only [if_pos hs]
    cases e.min <;> cases e.isFloat <;> rfl
  · simp only [if_neg hs]
    cases unsignedMin e <;> rfl

theorem not_float_of_not_floatExpr (h : e.isFloatExpr = false) : e.isFloat = false := by
  unfold Elem.isFloatExpr at h
  simp only [Bool.or_eq_false_iff] at h
  exact h.1

theorem scale_of_not_floatExpr (h : e.isFloatExpr = false) (hraw : e.rawStorage = false) :
    ∃ k, e.scale = .int k := by
  unfold Elem.isFloatExpr at h
  cases hs : e.scale with
  | int k => exact ⟨k, rfl⟩
  | float q => simp [hraw, hs] at h

/-- Operators on integers. -/
theorem eval_int (o : Binary) (hl : l.eval E.meaning = a.map .int)
    (hr : r.eval E.meaning = b.map .int) :
    (Tree.between o l r).eval E.meaning
      = (a.bind fun x => b.bind fun y => intOp x y o).map .int := by
  rw [Tree.eval, hl, hr]
  cases a with
  | none => rfl
  | some x =>
    cases b with
    | none => rfl
    | some y => rfl

theorem eval_cast (ht : t.eval E.meaning = a.map .int) :
    ((Tree.before (.cast .uint32) t).eval E.meaning).bind (argument E.fl)
      = a.map fun x => toU32 x.val := by
  rw [Tree.eval, ht]
  cases a with
  | none => rfl
  | some x => exact congrArg some (toU32_natCast (toU32_lt x.val))

theorem eval_packTree_int {x : CInt} (hval : E.val = some (.int x))
    (hop : operand e.type n = some x) (hb : e.isBool = false) (hen : e.isEnum = false)
    (hfl : e.isFloatExpr = false) :
    ((packTree e).eval E.meaning).bind (argument E.fl) = stepInt e n := by
  have hv : (Tree.atom .val).eval E.meaning = (some x).map .int := hval
  have hlit : ∀ i, (Tree.atom (.lit (.int i))).eval E.meaning = (CInt.lit i).map .int :=
    fun _ => rfl
  have hx : x.val = n := by
    unfold operand at hop
    split at hop
    · cases hop; rfl
    · cases hop
  have hf := not_float_of_not_floatExpr hfl
  cases hraw : e.rawStorage with
  | true =>
    cases hm : e.minWire with
    | none =>
      have htree : packTree e = .before (.cast .uint32) (.atom .val) := by
        simp [packTree, hb, hen, hraw, hm]
      have hstep : stepInt e n = some (toU32 n) := by simp [stepInt, hop, hraw, hm]
      rw [htree, eval_cast hv, hstep, Option.map_some, hx]
    | some i =>
      have htree : packTree e = .before (.cast .uint32)
          (.paren (.between .sub (.atom .val) (.paren (.atom (.lit (.int i)))))) := by
        simp [packTree, hb, hen, hraw, hm]
      have hstep : stepInt e n = ((CInt.lit i).bind fun y => CInt.op (· - ·) x y).map
          fun d => toU32 d.val := by
        simp [stepInt, hop, hraw, hm, Option.map_eq_bind, Option.bind_assoc]
      have hd : (Tree.paren (.between .sub (.atom .val) (.paren (.atom (.lit (.int i)))))).eval
          E.meaning = _ := eval_int .sub hv (hlit i)
      rw [Option.bind_some] at hd
      rw [htree, eval_cast hd, hstep]
      rfl
  | false =>
    -- the scale is printed even if it is 1
    obtain ⟨k, hk⟩ := scale_of_not_floatExpr hfl hraw
    have hkl : e.scale.toInt = k := by rw [hk]; rfl
    have hmin : (if e.isSigned then e.min else unsignedMin e) = e.packedMin := rfl
    cases hm : e.packedMin with
    | none =>
      have htree : packTree e = .before (.cast .uint32)
          (.paren (.between .mul (.atom .val) (.atom (.lit (.int k))))) := by
        simp [packTree, hb, hen, hraw, hmin, hm, hk]
      have hstep : stepInt e n = ((CInt.lit k).bind fun y => CInt.op (· * ·) x y).map
          fun s => toU32 s.val := by
        simp [stepInt, hop, hraw, hm, hkl, Option.map_eq_bind, Option.bind_assoc]
      have hp : (Tree.paren (.between .mul (.atom .val) (.atom (.lit (.int k))))).eval
          E.meaning = _ := eval_int .mul hv (hlit k)
      rw [Option.bind_some] at hp
      rw [htree, eval_cast hp, hstep]
      rfl
    | some i =>
      have htree : packTree e = .before (.cast .uint32) (.paren (.between .mul
          (.paren (.between .sub (.atom .val) (.paren (.atom (.lit (.int i.toInt))))))
          (.atom (.lit (.int k))))) := by
        simp [packTree, hb, hen, hf, hraw, hmin, hm, hk]
      have hstep : stepInt e n = (((CInt.lit i.toInt).bind fun y => CInt.op (· - ·) x y).bind
          fun d => (CInt.lit k).bind fun y => CInt.op (· * ·) d y).map fun s => toU32 s.val := by
        simp [stepInt, hop, hraw, hm, hkl, Option.map_eq_bind, Option.bind_assoc]
      have hd : (Tree.paren (.between .sub (.atom .val)
          (.paren (.atom (.lit (.int i.toInt)))))).eval E.meaning = _ :=
        eval_int .sub hv (hlit i.toInt)
      have hp : (Tree.paren (.between .mul (.paren (.between .sub (.atom .val)
          (.paren (.atom (.lit (.int i.toInt)))))) (.atom (.lit (.int k))))).eval E.meaning = _ :=
        eval_int .mul hd (hlit k)
      rw [Option.bind_some] at hp
      rw [htree, eval_cast hp, hstep]
      rfl

/-- Nothing is encoded without a member. -/
theorem eval_packTree_none (hval : E.val = none) : (packTree e).eval E.meaning = none := by
  have hv : E.atom .val = none := hval
  unfold packTree
  cases e.min <;> cases e.minWire <;> cases unsignedMin e <;> split_ifs <;>
    simp [Tree.eval, hv]

/-- A wire index is a byte. -/
theorem valueToWire_lt {t : Enum} {c : Int} (h : valueToWire t c = some w) : w < 256 := by
  unfold valueToWire at h
  split at h
  · unfold denseValueToWire at h
    split at h
    · cases h
      exact Nat.mod_lt _ (by omega)
    · cases h
  · unfold searchValueToWire at h
    obtain ⟨lo, -, h⟩ := Option.bind_eq_some_iff.mp h
    split at h
    next key wire hget =>
      have hwire : wire < 256 := by
        obtain ⟨v, -, hv⟩ := List.mem_map.mp (List.mem_of_getElem? hget)
        cases hv
        exact Nat.mod_lt _ (by omega)
      cases h
      split <;> omega
    next =>
      cases h
      omega

/-- The argument for an enum. Only the search casts its operand, to `uint8_t`. -/
theorem eval_packTree_enum {fe : FloatExprs} {t : Enum} {c : Int}
    (hval : E.val = some (.int ⟨.int, c⟩)) (henum : E.enum = e.enum) (ht : e.enum = some t)
    (hb : e.isBool = false) (hen : e.isEnum = true) (scalar : Bool) :
    ((packTree e).eval E.meaning).bind (argument E.fl) = step fe scalar e (.enum c) := by
  have hc : (Tree.atom .val).eval E.meaning = some (.int ⟨.int, c⟩) := hval
  have hstep : step fe scalar e (.enum c)
      = if t.isRemap then valueToWire t c else some (toU32 c) := by
    simp [step, hb, hen, ht]
  have hremap : isRemap e = t.isRemap := by rw [isRemap, ht]; rfl
  have hdense : isDense e = decide (t.remapStyle = .array) := by rw [isDense, ht]; rfl
  rw [hstep]
  cases hr : t.isRemap with
  | false =>
    have htree : packTree e = .before (.cast .uint32) (.atom .val) := by
      simp [packTree, hb, hen, hremap, hr]
    rw [htree, eval_cast (a := some ⟨.int, c⟩) hc]
    rfl
  | true =>
    -- both tables hold bytes, so `pack_bits` takes what they hold
    have harg : ∀ {o : Option Nat}, o = valueToWire t c →
        (o.map fun w : Nat => Val.int ⟨.int, w⟩).bind (argument E.fl) = o := by
      intro o ho
      cases hw : o with
      | none => rfl
      | some w =>
        have hlt := valueToWire_lt (ho ▸ hw)
        exact congrArg some (toU32_natCast (by omega))
    rw [if_pos rfl]
    cases hs : t.remapStyle with
    | array =>
      have htree : packTree e = .call .valueToWireTable (.atom .val) := by
        simp [packTree, hb, hen, hremap, hr, hdense, hs]
      have hdef : valueToWire t c = denseValueToWire t c := by rw [valueToWire, hs]
      have heval : E.unary .valueToWireTable (.int ⟨.int, c⟩)
          = (denseValueToWire t c).map fun w : Nat => .int ⟨.int, w⟩ := by
        simp [Env.unary, henum, ht]
      rw [htree, Tree.eval, hc, hdef, ← harg hdef.symm]
      exact congrArg (·.bind (argument E.fl)) heval
    | search =>
      have htree : packTree e
          = .call .valueToWireCall (.before (.cast .uint8) (.atom .val)) := by
        simp [packTree, hb, hen, hremap, hr, hdense, hs]
      have hdef : valueToWire t c = searchValueToWire t (wrapU 8 c).toNat := by
        rw [valueToWire, hs]
      have heval : E.unary .valueToWireCall (.int ⟨.int, wrapU 8 c⟩)
          = (searchValueToWire t (wrapU 8 c).toNat).map
              fun w : Nat => .int ⟨.int, w⟩ := by
        simp [Env.unary, henum, ht]
      rw [htree, Tree.eval, Tree.eval, hc, hdef, ← harg hdef.symm]
      exact congrArg (·.bind (argument E.fl)) heval

/-- **The argument of `pack_bits` is what `step` says.** -/
theorem eval_packTree {fe : FloatExprs} {v : Value} (hval : E.val = member E.fl e v)
    (henum : E.enum = e.enum) (hstr : e.isString = false) (hfl : e.isFloatExpr = false)
    (scalar : Bool) :
    ((packTree e).eval E.meaning).bind (argument E.fl) = step fe scalar e v := by
  by_cases hb : e.isBool = true
  · cases v with
    | bool b =>
      have hb' : (Tree.atom .val).eval E.meaning = some (.int ⟨.int, if b then 1 else 0⟩) := by
        simp [Tree.eval, Env.atom, hval, member, hb]
      have htree : packTree e = .after .ifElse (.atom .val) := by simp [packTree, hb]
      rw [htree, Tree.eval, hb']
      unfold step
      rw [if_pos hb]
      cases b <;> rfl
    | _ =>
      rw [eval_packTree_none (by simp [hval, member, hb])]
      simp [step, hb]
  by_cases hen : e.isEnum = true
  · cases ht : e.enum with
    | none =>
      rw [eval_packTree_none (by cases v <;> simp [hval, member, hb, hen, ht])]
      simp [step, hb, hen, ht]
    | some t =>
      cases v with
      | enum c =>
        have hc : E.val = some (.int ⟨.int, c⟩) := by simp [hval, member, hb, hen, ht]
        exact eval_packTree_enum hc henum ht (by simpa using hb) hen scalar
      | _ =>
        rw [eval_packTree_none (by simp [hval, member, hb, hen])]
        simp [step, hb, hen]
  have hb' : e.isBool = false := by simpa using hb
  have hen' : e.isEnum = false := by simpa using hen
  have hf := not_float_of_not_floatExpr hfl
  unfold step
  rw [if_neg hb, if_neg hen, hstr, hfl]
  cases v with
  | int n =>
    cases hop : operand e.type n with
    | none =>
      rw [eval_packTree_none (by simp [hval, member, hop])]
      simp [stepInt, hop]
    | some x =>
      refine eval_packTree_int ?_ hop hb' hen' hfl
      simp [hval, member, hb', hen', hstr, hf, hop]
  | _ =>
    rw [eval_packTree_none (by simp [hval, member, hb, hen, hf])]
    rfl

/-- The integer that is assigned to the member. -/
theorem eval_unpackTree_int (hr : E.read e.size = some w) (hb : e.isBool = false)
    (hen : e.isEnum = false) (hfl : e.isFloatExpr = false) :
    ∃ r : Option CInt, (unpackTree e).eval E.meaning = r.map .int ∧
      r.map (fun x => assign e.type x.val) = unstepInt e w := by
  have hwire : (Tree.atom (.unpackBits e.size)).eval E.meaning
      = (some (CInt.mk .uint w)).map .int := by
    simp [Tree.eval, Env.atom, hr]
  have hi32 : (Tree.before (.cast .int32) (.atom (.unpackBits e.size))).eval E.meaning
      = (some (CInt.mk .int (wrapS 32 w))).map .int := by
    simp [Tree.eval, Env.atom, Env.unary, hr]
  have hlit : ∀ i, (Tree.atom (.lit (.int i))).eval E.meaning = (CInt.lit i).map .int :=
    fun _ => rfl
  have hparen : ∀ i, (Tree.paren (.atom (.lit (.int i)))).eval E.meaning = (CInt.lit i).map .int :=
    fun _ => rfl
  have hf := not_float_of_not_floatExpr hfl
  cases hraw : e.rawStorage with
  | true =>
    cases hm : e.minWire with
    | none =>
      have htree : unpackTree e = .before (.cast .int32) (.atom (.unpackBits e.size)) := by
        simp [unpackTree, hb, hen, hraw, hm]
      refine ⟨_, htree ▸ hi32, ?_⟩
      simp [unstepInt, hraw, hm]
    | some i =>
      have htree : unpackTree e = .between .add
          (.before (.cast .int32) (.atom (.unpackBits e.size)))
          (.paren (.atom (.lit (.int i)))) := by
        simp [unpackTree, hb, hen, hraw, hm]
      refine ⟨_, htree ▸ eval_int .add hi32 (hparen i), ?_⟩
      simp [unstepInt, hraw, hm, intOp, Option.map_eq_bind, Option.bind_assoc]
  | false =>
    obtain ⟨k, hk⟩ := scale_of_not_floatExpr hfl hraw
    have hkl : e.scale.toInt = k := by rw [hk]; rfl
    cases hs : e.isSigned with
    | true =>
      cases hm : e.min with
      | none =>
        -- without a minimum the wire is two's complement
        have htree : unpackTree e = .between .div
            (.call (.signExtend e.size) (.atom (.unpackBits e.size)))
            (.atom (.lit (.int k))) := by
          simp [unpackTree, hb, hen, hraw, hs, hm, hk]
        have hext : (Tree.call (.signExtend e.size) (.atom (.unpackBits e.size))).eval E.meaning
            = ((signExtend w e.size).map fun n => CInt.mk .int n).map .int := by
          rw [Tree.eval, hwire, Option.map_map]
          rfl
        refine ⟨_, htree ▸ eval_int .div hext (hlit k), ?_⟩
        simp [unstepInt, hraw, hs, hm, hkl, intOp, Option.map_eq_bind, Option.bind_assoc]
      | some i =>
        have htree : unpackTree e = .between .add (.between .div
            (.before (.cast .int32) (.atom (.unpackBits e.size))) (.atom (.lit (.int k))))
            (.paren (.atom (.lit (.int i.toInt)))) := by
          simp [unpackTree, hb, hen, hf, hraw, hs, hm, hk]
        refine ⟨_, htree ▸ eval_int .add (eval_int .div hi32 (hlit k)) (hparen i.toInt), ?_⟩
        simp [unstepInt, hraw, hs, hm, hkl, intOp, Option.map_eq_bind, Option.bind_assoc]
    | false =>
      -- a minimum of zero is not printed
      have hmin : unsignedMin e = e.packedMin := by rw [Elem.packedMin, hs]; rfl
      cases hm : e.packedMin with
      | none =>
        have htree : unpackTree e = .between .div (.atom (.unpackBits e.size))
            (.atom (.lit (.int k))) := by
          simp [unpackTree, hb, hen, hraw, hs, hmin, hm, hk]
        refine ⟨_, htree ▸ eval_int .div hwire (hlit k), ?_⟩
        simp [unstepInt, hraw, hs, hm, hkl, intOp, Option.map_eq_bind, Option.bind_assoc]
      | some i =>
        have htree : unpackTree e = .between .add (.between .div (.atom (.unpackBits e.size))
            (.atom (.lit (.int k)))) (.paren (.atom (.lit (.int i.toInt)))) := by
          simp [unpackTree, hb, hen, hraw, hs, hmin, hm, hk]
        refine ⟨_, htree ▸ eval_int .add (eval_int .div hwire (hlit k)) (hparen i.toInt), ?_⟩
        simp [unstepInt, hraw, hs, hm, hkl, intOp, Option.map_eq_bind, Option.bind_assoc]

/-- Nothing is decoded without the bits. -/
theorem eval_unpackTree_none (hr : E.read (PackLang.leafWidth e e.size) = none) :
    (unpackTree e).eval E.meaning = none := by
  have hwire : E.atom (.unpackBits (PackLang.leafWidth e e.size)) = none := by
    simp [Env.atom, hr]
  unfold unpackTree
  by_cases hb : e.isBool = true
  · rw [PackLang.leafWidth, if_pos hb] at hwire
    simp [hb, Tree.eval, hwire]
  rw [PackLang.leafWidth, if_neg hb] at hwire
  cases e.min <;> cases e.minWire <;> cases unsignedMin e <;> split_ifs <;>
    simp [Tree.eval, hwire]

/-- An enum is read through its table, or as it is. -/
theorem eval_unpackTree_enum {fe : FloatExprs} (hr : E.read e.size = some w)
    (henum : E.enum = e.enum) (hb : e.isBool = false) (hen : e.isEnum = true) (scalar : Bool) :
    ((unpackTree e).eval E.meaning).bind (ofVal E.fl e) = unstep fe scalar e w := by
  have hwire : (Tree.atom (.unpackBits e.size)).eval E.meaning = some (.int ⟨.uint, w⟩) := by
    simp [Tree.eval, Env.atom, hr]
  cases ht : e.enum with
  | none =>
    have htree : unpackTree e = .before (.cast .enum) (.atom (.unpackBits e.size)) := by
      simp [unpackTree, hb, hen, isRemap, ht]
    rw [htree, Tree.eval, hwire]
    simp [unstep, hb, hen, ht, Env.unary, ofVal]
  | some t =>
    have hremap : isRemap e = t.isRemap := by rw [isRemap, ht]; rfl
    have hstep : unstep fe scalar e w
        = if t.isRemap then (wireToValue t w).map .enum else some (.enum w) := by
      simp [unstep, hb, hen, ht]
    rw [hstep]
    cases hr : t.isRemap with
    | false =>
      have htree : unpackTree e = .before (.cast .enum) (.atom (.unpackBits e.size)) := by
        simp [unpackTree, hb, hen, hremap, hr]
      rw [htree, Tree.eval, hwire]
      simp [hb, hen, ht, Env.unary, ofVal]
    | true =>
      have htree : unpackTree e = .before (.cast .enum)
          (.call .wireToValueTable (.atom (.unpackBits e.size))) := by
        simp [unpackTree, hb, hen, hremap, hr]
      have htable : E.unary .wireToValueTable (.int ⟨.uint, w⟩)
          = (wireToValue t w).map fun c => .int ⟨.int, c⟩ := by
        simp [Env.unary, henum, ht]
      rw [htree, Tree.eval, Tree.eval, hwire, if_pos rfl]
      simp only [Env.meaning_unary, Option.bind_eq_bind, Option.bind_some, htable]
      cases wireToValue t w with
      | none => rfl
      | some c => simp [hb, hen, ht, Env.unary, ofVal]

/-- **What `unpack_bits` gives is read as `unstep` says.** -/
theorem eval_unpackTree {fe : FloatExprs}
    (hbits : E.read (PackLang.leafWidth e e.size) = some w) (henum : E.enum = e.enum)
    (hstr : e.isString = false) (hfl : e.isFloatExpr = false) (scalar : Bool) :
    ((unpackTree e).eval E.meaning).bind (ofVal E.fl e) = unstep fe scalar e w := by
  have hwire : (Tree.atom (.unpackBits (PackLang.leafWidth e e.size))).eval E.meaning
      = some (.int ⟨.uint, w⟩) := by
    simp [Tree.eval, Env.atom, hbits]
  by_cases hb : e.isBool = true
  · rw [PackLang.leafWidth, if_pos hb] at hwire
    have htree : unpackTree e = .after .nonzero (.atom (.unpackBits 1)) := by
      simp [unpackTree, hb]
    rw [htree, Tree.eval, hwire]
    by_cases h0 : w = 0 <;> simp [unstep, hb, Env.unary, ofVal, h0]
  have hread : E.read e.size = some w := by rwa [PackLang.leafWidth, if_neg hb] at hbits
  by_cases hen : e.isEnum = true
  · exact eval_unpackTree_enum hread henum (by simpa using hb) hen scalar
  have hb' : e.isBool = false := by simpa using hb
  have hen' : e.isEnum = false := by simpa using hen
  obtain ⟨r, heval, hstep⟩ := eval_unpackTree_int hread hb' hen' hfl
  unfold unstep
  rw [if_neg hb, if_neg hen, hstr, hfl, heval, ← hstep]
  have hf := not_float_of_not_floatExpr hfl
  cases r with
  | none => rfl
  | some x => simp [ofVal, hb', hen', hstr, hf]

end Read

/-! ## The whole leaf -/

section Leaf

variable {fl} {fe : FloatExprs} {e : Elem} {buf : List UInt8} {off : Nat}

/-- **The inline expression of a field and the macro's expression decode as `unstep` says.** -/
theorem unpack_eq (hstr : e.isString = false) (hfl : e.isFloatExpr = false) (scalar : Bool) :
    unpack fl e (if scalar then unpackField e.size e else cUnpackLeaf e) buf off
      = (unpackBits buf off (PackLang.leafWidth e e.size)).bind (unstep fe scalar e) := by
  unfold unpack
  rw [unpackField_eq, ite_self, flatten_unpackTree, Grammar.value_flatten _ keeps_unpackTree]
  cases hr : unpackBits buf off (PackLang.leafWidth e e.size) with
  | none => rw [eval_unpackTree_none hr]; rfl
  | some w => exact eval_unpackTree hr rfl hstr hfl scalar

/-- **Both encode as `step` says.** -/
theorem pack_eq (hstr : e.isString = false) (hfl : e.isFloatExpr = false) (scalar : Bool)
    (v : Value) :
    pack fl e (if scalar then packField e.size e else cPackLeaf e) buf off v
      = (step fe scalar e v).bind (packBits buf off (PackLang.leafWidth e e.size)) := by
  unfold pack
  rw [packField_eq, ite_self, flatten_packTree, Grammar.value_flatten _ keeps_packTree,
    ← eval_packTree (E := ⟨fl, e.enum, member fl e v, fun _ => none⟩) rfl rfl hstr hfl scalar]
  exact (Option.bind_assoc ..).symm

end Leaf

end ProtoEmb.Codec.C.Text

import ProtoEmb.Codec.TypeScript
import ProtoEmb.Lib.Precedence

/-!
# The text of the TypeScript leaf expressions

`protocol.ts.j2` writes every packed leaf expression in `ts_pack_leaf` or `ts_unpack_expr`, and
again inline for a field, in `encode*` and `pack*Into`, in `decode*` and `unpack*From`. Here they
are as texts, read by TypeScript's operator precedence.

* `unpack_eq`, `pack_eq`: what the texts mean is what `unstep` and `step` say.
* `packField_eq`, `unpackField_eq`: the inline text is that of the macro.
-/

namespace ProtoEmb.Codec.TypeScript.Text

open ProtoEmb.Lib ProtoEmb.Schema

/-! ## Tokens -/

inductive Atom where
  /-- the value to encode: `src.field`, `src.field[i]`, `src.value` -/
  | val
  /-- `unpackBits(buf, off, bits)` -/
  | unpackBits (bits : Nat)
  | lit (n : Schema.Num)

inductive Unary where
  /-- `? 1 : 0` -/
  | ifElse
  /-- `!== 0` -/
  | nonzero
  /-- `*_VALUE_TO_WIRE[` -/
  | valueToWire
  /-- `?? 0` -/
  | orZero
  /-- `*_WIRE_TO_VALUE[` -/
  | wireToValue
  /-- `as T` -/
  | asEnum
  /-- `Math.round(` -/
  | round

inductive Binary where
  | add
  | sub
  | mul
  | div

abbrev Tokens := List (Token Atom Unary Binary)

/-- `*` and `/` bind more tightly than `+` and `-`, then come `as`, `!==`, `??` and `?:`. -/
def grammar : Grammar Unary Binary where
  before _ := 9
  after
    | .asEnum => 4
    | .nonzero => 3
    | .orZero => 2
    | _ => 1
  between
    | .mul | .div => 6
    | .add | .sub => 5
  method _ := 10

/-! ## The templates -/

/-- `enums[f.type]._is_remap` -/
def isRemap (e : Elem) : Bool := e.enum.any Enum.isRemap

/-- `f._min is not none and f._min != 0` -/
def unsignedMin (e : Elem) : Option Schema.Num := e.min.filter fun m => m.toRat ≠ 0

/-- `ts_pack_leaf`: the width and the value argument of `packBits`. -/
def tsPackLeaf (e : Elem) : Nat × Tokens :=
  if e.isBool then (1, [.atom .val, .after .ifElse])
  else if e.isEnum then
    if isRemap e then
      (e.size, [.call .valueToWire, .atom .val, .closing, .after .orZero])
    else (e.size, [.atom .val])
  else if e.isSigned then
    match e.min with
    | some m =>
      (e.size, [.call .round, .opening, .atom .val, .between .sub, .opening, .atom (.lit m),
        .closing, .closing, .between .mul, .atom (.lit e.scale), .closing])
    | none =>
      (e.size, [.call .round, .atom .val, .between .mul, .atom (.lit e.scale), .closing])
  else
    match unsignedMin e with
    | some m =>
      (e.size, [.call .round, .opening, .atom .val, .between .sub, .opening, .atom (.lit m),
        .closing, .closing, .between .mul, .atom (.lit e.scale), .closing])
    | none =>
      (e.size, [.call .round, .atom .val, .between .mul, .atom (.lit e.scale), .closing])

/-- The same inline for a field with `_bits` bits, in `encode*` and `pack*Into`. -/
def packField (bits : Nat) (e : Elem) : Nat × Tokens :=
  if e.isBool then (1, [.atom .val, .after .ifElse])
  else if e.isEnum then
    if isRemap e then
      (bits, [.call .valueToWire, .atom .val, .closing, .after .orZero])
    else (bits, [.atom .val])
  else if e.isSigned then
    match e.min with
    | some m =>
      (bits, [.call .round, .opening, .atom .val, .between .sub, .opening, .atom (.lit m),
        .closing, .closing, .between .mul, .atom (.lit e.scale), .closing])
    | none =>
      (bits, [.call .round, .atom .val, .between .mul, .atom (.lit e.scale), .closing])
  else
    match unsignedMin e with
    | some m =>
      (bits, [.call .round, .opening, .atom .val, .between .sub, .opening, .atom (.lit m),
        .closing, .closing, .between .mul, .atom (.lit e.scale), .closing])
    | none =>
      (bits, [.call .round, .atom .val, .between .mul, .atom (.lit e.scale), .closing])

/-- `ts_unpack_expr` -/
def tsUnpackExpr (e : Elem) : Tokens :=
  if e.isBool then [.atom (.unpackBits 1), .after .nonzero]
  else if e.isEnum then
    if isRemap e then
      [.call .wireToValue, .atom (.unpackBits e.size), .closing, .after .asEnum]
    else [.atom (.unpackBits e.size), .after .asEnum]
  else if e.isSigned then
    match e.min with
    | some m =>
      [.atom (.unpackBits e.size), .between .div, .atom (.lit e.scale), .between .add,
        .opening, .atom (.lit m), .closing]
    | none => [.atom (.unpackBits e.size), .between .div, .atom (.lit e.scale)]
  else
    match unsignedMin e with
    | some m =>
      [.atom (.unpackBits e.size), .between .div, .atom (.lit e.scale), .between .add,
        .opening, .atom (.lit m), .closing]
    | none => [.atom (.unpackBits e.size), .between .div, .atom (.lit e.scale)]

/-- The same inline for a field with `_bits` bits, in `decode*` and `unpack*From`. -/
def unpackField (bits : Nat) (e : Elem) : Tokens :=
  if e.isBool then [.atom (.unpackBits 1), .after .nonzero]
  else if e.isEnum then
    if isRemap e then
      [.call .wireToValue, .atom (.unpackBits bits), .closing, .after .asEnum]
    else [.atom (.unpackBits bits), .after .asEnum]
  else if e.isSigned then
    match e.min with
    | some m =>
      [.atom (.unpackBits bits), .between .div, .atom (.lit e.scale), .between .add,
        .opening, .atom (.lit m), .closing]
    | none => [.atom (.unpackBits bits), .between .div, .atom (.lit e.scale)]
  else
    match unsignedMin e with
    | some m =>
      [.atom (.unpackBits bits), .between .div, .atom (.lit e.scale), .between .add,
        .opening, .atom (.lit m), .closing]
    | none => [.atom (.unpackBits bits), .between .div, .atom (.lit e.scale)]

/-! ## Their meaning -/

inductive Val where
  | num (q : Rat)
  | bool (b : Bool)
  | undefined

/-- What a leaf expression is evaluated over. -/
structure Env where
  /-- the rounding of doubles -/
  rnd : Rat → Rat
  /-- the type of an enum leaf -/
  enum : Option Enum
  /-- the value to encode -/
  val : Option Val
  /-- `unpackBits` at the leaf's offset -/
  read : Nat → Option Nat

namespace Env

variable (E : Env)

def atom : Atom → Option Val
  | .val => E.val
  | .unpackBits bits => (E.read bits).map fun u : Nat => .num u
  | .lit n => some (.num (n.toFloat E.rnd))

/-- A table is indexed with integers only. -/
def unary : Unary → Val → Option Val
  | .ifElse, .bool b => some (.num (if b then 1 else 0))
  | .nonzero, .num q => some (.bool (q ≠ 0))
  | .valueToWire, .num q => do
    let t ← E.enum
    match lastIndex t q.num with
    | some i => some (.num i)
    | none => some .undefined
  | .orZero, .num q => some (.num q)
  | .orZero, .undefined => some (.num 0)
  | .wireToValue, .num q => do
    let t ← E.enum
    match t.variants[q.num.toNat]? with
    | some v => some (.num v.value)
    | none => some .undefined
  | .asEnum, x => some x
  | .round, .num q => some (.num (mathRound q))
  | _, _ => none

def binary : Binary → Val → Val → Option Val
  | .add, .num x, .num y => some (.num (E.rnd (x + y)))
  | .sub, .num x, .num y => some (.num (E.rnd (x - y)))
  | .mul, .num x, .num y => some (.num (E.rnd (x * y)))
  | .div, .num x, .num y => some (.num (E.rnd (x / y)))
  | _, _, _ => none

/-- The value of an expression; one that does not type is `none`. -/
def meaning : Meaning Atom Unary Binary Val := ⟨E.atom, E.unary, E.binary⟩

@[simp] theorem meaning_atom : E.meaning.atom = E.atom := rfl

@[simp] theorem meaning_unary : E.meaning.unary = E.unary := rfl

@[simp] theorem meaning_binary : E.meaning.binary = E.binary := rfl

end Env

/-- The property of a leaf. -/
def member (e : Elem) : Value → Option Val
  | .bool b => if e.isBool then some (.bool b) else none
  | .enum c => if !e.isBool && e.isEnum && e.enum.isSome then some (.num c) else none
  | .num q => if !e.isBool && !e.isEnum && !e.isString then some (.num q) else none
  | _ => none

/-- The property an expression is the value of; an enum is never `undefined`. -/
def ofVal (e : Elem) : Val → Option Value
  | .bool b => some (.bool b)
  | .num q =>
    if e.isEnum then if e.enum.isSome then some (.enum q.num) else none
    else if e.isString then none
    else some (.num q)
  | .undefined => none

/-- The 32 bits of the value argument that `packBits` sees. -/
def argument : Val → Option Nat
  | .num q => some (toU32 q.num)
  | _ => none

variable (rnd : Rat → Rat)

/-- `packBits(buf, off, bits, value)` -/
def pack (e : Elem) (args : Nat × Tokens) (buf : List UInt8) (off : Nat) (v : Value) :
    Option (List UInt8) := do
  let x ← grammar.value (Env.meaning ⟨rnd, e.enum, member e v, fun _ => none⟩) args.2
  let n ← argument x
  packBits buf off args.1 n

/-- The property that is read at an offset. -/
def unpack (e : Elem) (text : Tokens) (buf : List UInt8) (off : Nat) : Option Value := do
  let x ← grammar.value (Env.meaning ⟨rnd, e.enum, none, unpackBits buf off⟩) text
  ofVal e x

/-! ## What the texts are read as -/

section Read

variable {rnd} {E : Env} {e : Elem} {w : Nat}

/-- **The inline code encodes with the text of the macro.** -/
theorem packField_eq : packField e.size e = tsPackLeaf e := rfl

/-- **The inline code decodes with the text of the macro.** -/
theorem unpackField_eq : unpackField e.size e = tsUnpackExpr e := rfl

/-- The value argument of `packBits`. -/
def packTree (e : Elem) : Tree Atom Unary Binary :=
  let val : Tree Atom Unary Binary := .atom .val
  if e.isBool then .after .ifElse val
  else if e.isEnum then if isRemap e then .after .orZero (.call .valueToWire val) else val
  else
    match e.packedMin with
    | some m =>
      .call .round (.between .mul (.paren (.between .sub val (.paren (.atom (.lit m)))))
        (.atom (.lit e.scale)))
    | none => .call .round (.between .mul val (.atom (.lit e.scale)))

def unpackTree (e : Elem) : Tree Atom Unary Binary :=
  let wire (bits : Nat) : Tree Atom Unary Binary := .atom (.unpackBits bits)
  if e.isBool then .after .nonzero (wire 1)
  else if e.isEnum then
    .after .asEnum (if isRemap e then .call .wireToValue (wire e.size) else wire e.size)
  else
    let q : Tree Atom Unary Binary := .between .div (wire e.size) (.atom (.lit e.scale))
    match e.packedMin with
    | some m => .between .add q (.paren (.atom (.lit m)))
    | none => q

/-- The trees have the texts of the templates. -/
theorem flatten_packTree :
    tsPackLeaf e = (PackLang.leafWidth e e.size, (packTree e).flatten) := by
  unfold packTree tsPackLeaf PackLang.leafWidth
  by_cases hb : e.isBool = true
  · simp only [if_pos hb]
    rfl
  simp only [if_neg hb]
  by_cases hen : e.isEnum = true
  · simp only [if_pos hen]
    cases isRemap e <;> rfl
  simp only [if_neg hen, Elem.packedMin]
  by_cases hs : e.isSigned = true
  · simp only [if_pos hs]
    cases e.min <;> rfl
  · simp only [if_neg hs, unsignedMin]
    cases e.min.filter _ <;> rfl

theorem keeps_packTree : grammar.keeps 0 (packTree e) = true := by
  unfold packTree
  by_cases hb : e.isBool = true
  · simp only [if_pos hb]
    rfl
  simp only [if_neg hb]
  by_cases hen : e.isEnum = true
  · simp only [if_pos hen]
    cases isRemap e <;> rfl
  simp only [if_neg hen]
  cases e.packedMin <;> rfl

theorem flatten_unpackTree : tsUnpackExpr e = (unpackTree e).flatten := by
  unfold unpackTree tsUnpackExpr
  by_cases hb : e.isBool = true
  · simp only [if_pos hb]
    rfl
  simp only [if_neg hb]
  by_cases hen : e.isEnum = true
  · simp only [if_pos hen]
    cases isRemap e <;> rfl
  simp only [if_neg hen, Elem.packedMin]
  by_cases hs : e.isSigned = true
  · simp only [if_pos hs]
    cases e.min <;> rfl
  · simp only [if_neg hs, unsignedMin]
    cases e.min.filter _ <;> rfl

theorem keeps_unpackTree : grammar.keeps 0 (unpackTree e) = true := by
  unfold unpackTree
  by_cases hb : e.isBool = true
  · simp only [if_pos hb]
    rfl
  simp only [if_neg hb]
  by_cases hen : e.isEnum = true
  · simp only [if_pos hen]
    cases isRemap e <;> rfl
  simp only [if_neg hen]
  cases e.packedMin <;> rfl

theorem eval_unpackTree_none (hr : E.read (PackLang.leafWidth e e.size) = none) :
    (unpackTree e).eval E.meaning = none := by
  have hwire : E.atom (.unpackBits (PackLang.leafWidth e e.size)) = none := by
    simp [Env.atom, hr]
  unfold unpackTree
  by_cases hb : e.isBool = true
  · rw [PackLang.leafWidth, if_pos hb] at hwire
    simp [hb, Tree.eval, hwire]
  rw [PackLang.leafWidth, if_neg hb] at hwire
  cases e.packedMin <;> split_ifs <;> simp [Tree.eval, hwire]

/-- **What `unpackBits` gives is read as `unstep` says.** -/
theorem eval_unpackTree (hbits : E.read (PackLang.leafWidth e e.size) = some w)
    (henum : E.enum = e.enum) (scalar : Bool) :
    ((unpackTree e).eval E.meaning).bind (ofVal e) = unstep E.rnd scalar e w := by
  have hwire : E.atom (.unpackBits (PackLang.leafWidth e e.size)) = some (.num w) := by
    simp [Env.atom, hbits]
  have hlit : ∀ n, E.atom (.lit n) = some (.num (n.toFloat E.rnd)) := fun _ => rfl
  by_cases hb : e.isBool = true
  · rw [PackLang.leafWidth, if_pos hb] at hwire
    simp [unpackTree, unstep, hb, Tree.eval, hwire, Env.unary, ofVal]
  rw [PackLang.leafWidth, if_neg hb] at hwire
  by_cases hen : e.isEnum = true
  · cases ht : e.enum with
    | none => simp [unpackTree, unstep, hb, hen, isRemap, ht, Tree.eval, hwire, Env.unary, ofVal]
    | some t =>
      have hremap : isRemap e = t.isRemap := by rw [isRemap, ht]; rfl
      cases hr : t.isRemap with
      | false =>
        simp [unpackTree, unstep, hb, hen, hremap, hr, ht, Tree.eval, hwire, Env.unary, ofVal]
      | true =>
        cases hv : t.variants[w]? <;>
          simp [unpackTree, unstep, hb, hen, hremap, hr, ht, Tree.eval, hwire, Env.unary, ofVal,
            henum, hv]
  by_cases hstr : e.isString = true
  · cases hm : e.packedMin <;>
      simp [unpackTree, unstep, hb, hen, hstr, hm, Tree.eval, hwire, hlit, Env.binary, ofVal]
  cases hm : e.packedMin <;>
    simp [unpackTree, unstep, unstepNum, hb, hen, hstr, hm, Tree.eval, hwire, hlit, Env.binary,
      ofVal]

/-- Nothing is encoded without a property. -/
theorem eval_packTree_none (hval : E.val = none) : (packTree e).eval E.meaning = none := by
  have hv : E.atom .val = none := hval
  unfold packTree
  cases e.packedMin <;> split_ifs <;> simp [Tree.eval, hv]

/-- **The argument of `packBits` is what `step` says**, in the 32 bits that are seen of it. -/
theorem eval_packTree {v : Value} (hval : E.val = member e v) (henum : E.enum = e.enum)
    (scalar : Bool) :
    ((packTree e).eval E.meaning).bind argument
      = (step E.rnd scalar e v).map (· % 4294967296) := by
  have hmod : ∀ n, toU32 n % 4294967296 = toU32 n := fun n => Nat.mod_eq_of_lt (toU32_lt n)
  have hlit : ∀ n, E.atom (.lit n) = some (.num (n.toFloat E.rnd)) := fun _ => rfl
  by_cases hb : e.isBool = true
  · cases v with
    | bool b =>
      have hb' : E.atom .val = some (.bool b) := by simp [Env.atom, hval, member, hb]
      cases b <;> simp [packTree, step, hb, Tree.eval, hb', Env.unary, argument] <;> rfl
    | _ =>
      rw [eval_packTree_none (by simp [hval, member, hb])]
      simp [step, hb]
  by_cases hen : e.isEnum = true
  · cases ht : e.enum with
    | none =>
      rw [eval_packTree_none (by cases v <;> simp [hval, member, hb, hen, ht])]
      simp [step, hb, hen, ht]
    | some t =>
      cases v with
      | enum c =>
        have hc : E.atom .val = some (.num c) := by
          simp [Env.atom, hval, member, hb, hen, ht]
        have hremap : isRemap e = t.isRemap := by rw [isRemap, ht]; rfl
        cases hr : t.isRemap with
        | false =>
          simp [packTree, step, hb, hen, hremap, hr, ht, Tree.eval, hc, argument, hmod]
        | true =>
          cases hi : lastIndex t c <;>
            simp [packTree, step, hb, hen, hremap, hr, ht, Tree.eval, hc, Env.unary, henum, hi,
              argument, toU32]
          omega
      | _ =>
        rw [eval_packTree_none (by simp [hval, member, hb, hen])]
        simp [step, hb, hen]
  by_cases hstr : e.isString = true
  · rw [eval_packTree_none (by cases v <;> simp [hval, member, hb, hen, hstr])]
    simp [step, hb, hen, hstr]
  cases v with
  | num q =>
    have hq : E.atom .val = some (.num q) := by simp [Env.atom, hval, member, hb, hen, hstr]
    cases hm : e.packedMin <;>
      simp [packTree, step, stepNum, hb, hen, hstr, hm, Tree.eval, hq, hlit, Env.binary,
        Env.unary, argument, hmod]
  | _ =>
    rw [eval_packTree_none (by simp [hval, member, hb, hen])]
    simp [step, hb, hen, hstr]

/-- `packBits` looks at 32 bits of its argument. -/
theorem packBits_mod (buf : List UInt8) (off bits x : Nat) :
    packBits buf off bits (x % 4294967296) = packBits buf off bits x := by
  have hbit : packBit off (x % 4294967296) = packBit off x := by
    funext buf i
    unfold packBit
    rw [show 4294967296 = 2 ^ 32 from rfl, Nat.testBit_mod_two_pow,
      decide_eq_true (Nat.mod_lt i (show 0 < 32 by omega)), Bool.true_and]
  unfold packBits
  rw [hbit]

end Read

/-! ## The whole leaf -/

section Leaf

variable {rnd} {e : Elem} {buf : List UInt8} {off : Nat}

/-- **The inline expression of a field and the macro's expression decode as `unstep` says.** -/
theorem unpack_eq (scalar : Bool) :
    unpack rnd e (if scalar then unpackField e.size e else tsUnpackExpr e) buf off
      = (unpackBits buf off (PackLang.leafWidth e e.size)).bind (unstep rnd scalar e) := by
  unfold unpack
  rw [unpackField_eq, ite_self, flatten_unpackTree, Grammar.value_flatten _ keeps_unpackTree]
  cases hr : unpackBits buf off (PackLang.leafWidth e e.size) with
  | none => rw [eval_unpackTree_none hr]; rfl
  | some w => exact eval_unpackTree hr rfl scalar

/-- **Both encode as `step` says.** -/
theorem pack_eq (scalar : Bool) (v : Value) :
    pack rnd e (if scalar then packField e.size e else tsPackLeaf e) buf off v
      = (step rnd scalar e v).bind (packBits buf off (PackLang.leafWidth e e.size)) := by
  have hargs : ((packTree e).eval (Env.meaning ⟨rnd, e.enum, member e v, fun _ => none⟩)).bind
      argument = (step rnd scalar e v).map (· % 4294967296) :=
    eval_packTree rfl rfl scalar
  unfold pack
  rw [packField_eq, ite_self, flatten_packTree, Grammar.value_flatten _ keeps_packTree]
  refine (Option.bind_assoc ..).symm.trans ?_
  rw [hargs]
  cases step rnd scalar e v with
  | none => rfl
  | some x => exact packBits_mod ..

end Leaf

end ProtoEmb.Codec.TypeScript.Text

import ProtoEmb.Codec.Leaves

/-!
# The decoder the templates emit for a type

The counterpart of `writes`: one expression per field, at the same literal offsets,
with the array, optional and scalar branches in the same order. How a flag, a tag or an
element is read is left to a `Reader`.

A reader that finds at each offset what the encoder's statement wrote there rebuilds
the value, with each leaf read back through the reader's leaf expression
(`Reader.type_eq`).
-/

namespace ProtoEmb.Codec

open ProtoEmb.Schema

/-- How the decoder of a type reads, at offsets from the type's base. -/
structure Reader where
  flag : Nat → Option Bool
  tag : Nat → Nat → Option Nat
  /-- an element at an offset, with the width it is read with -/
  elem : Nat → Bool → Nat → Elem → Option Value
  /-- the result for a tag without a variant -/
  unknownTag : Union → Nat → Option Value

namespace Reader

variable (rd : Reader)

/-- The `n` elements of an array from element `i`. -/
def array (f : Field) : Nat → Nat → Option (List Value)
  | 0, _ => some []
  | n + 1, i => do
    let v ← rd.elem (f.offset + i * f.elem.size) false f.elem.size f.elem
    let vs ← array f n (i + 1)
    return v :: vs

/-- An array, a flag with what may be behind it, or a value. -/
def field (f : Field) : Option Value :=
  if f.isArray then do
    let vs ← rd.array f f.arrayLen 0
    return .array vs
  else if f.isOptional then do
    let present ← rd.flag f.offset
    if present then do
      let v ← rd.elem f.valueOffset false f.elem.size f.elem
      return .present v
    else return .absent
  else rd.elem f.offset true f.size f.elem

/-- The fields of a struct in the order of their declaration. -/
def fields : List Field → Option (List Value)
  | [] => some []
  | f :: fs => do
    let v ← rd.field f
    let vs ← fields fs
    return v :: vs

/-- The decoder of a type. -/
def type : TypeDef → Option Value
  | .struct s => do
    let vs ← rd.fields s.fields
    return .struct vs
  | .union u => do
    let tag ← rd.tag 0 u.tagSize
    match u.variants[tag]? with
    | some w => do
      let v ← rd.elem u.payloadOffset false w.elem.size w.elem
      return .union tag v
    | none => rd.unknownTag u tag

/-- The reader finds what a statement wrote: the flag, the tag, and for an element what
`h` makes of it. -/
def Finds (h : LeafMap) : Write → Prop
  | .flag off b => rd.flag off = some b
  | .tag off size index => rd.tag off size = some index
  | .skip _ _ => True
  | .elem off scalar width e v => rd.elem off scalar width e = h scalar e v

section Build

variable {rd} {g : LeafMap} {env : String → Value → Option Value}

/-- A reader that finds every element reads the array. -/
theorem array_eq {f : Field} :
    ∀ (vs : List Value) (i : Nat), (∀ w ∈ writesArray f i vs, rd.Finds (mapElem g env) w) →
      rd.array f vs.length i = mapArray g env f.elem vs := by
  intro vs
  induction vs with
  | nil => intro i _; rfl
  | cons v vs ih =>
    intro i h
    have hfirst : rd.elem _ _ _ _ = mapElem g env false f.elem v := h _ (List.mem_cons_self ..)
    have hrest := ih (i + 1) fun w hw => h w (List.mem_cons_of_mem _ hw)
    simp only [List.length_cons, array, mapArray, hfirst, hrest]

/-- A reader that finds what was written for a field reads the field. -/
theorem field_eq {f : Field} {v : Value} {ws : List Write} (h : writesField f v = some ws)
    (hall : ∀ w ∈ ws, rd.Finds (mapElem g env) w) : rd.field f = mapField g env f v := by
  unfold writesField at h
  unfold field mapField
  by_cases harr : f.isArray = true
  · rw [if_pos harr] at h ⊢
    rw [if_pos harr]
    split at h
    next vs =>
      split at h
      next hlen =>
        cases h
        simp only [← hlen, array_eq vs 0 hall]
      next => cases h
    next => cases h
  · rw [if_neg harr] at h ⊢
    rw [if_neg harr]
    by_cases hopt : f.isOptional = true
    · rw [if_pos hopt] at h ⊢
      rw [if_pos hopt]
      split at h
      next =>
        cases h
        have hflag : rd.flag f.offset = some false := hall _ (List.mem_cons_self ..)
        simp [hflag]
      next v =>
        cases h
        have hflag : rd.flag f.offset = some true := hall _ (List.mem_cons_self ..)
        have helem : rd.elem _ _ _ _ = mapElem g env false f.elem v :=
          hall _ (List.mem_cons_of_mem _ (List.mem_cons_self ..))
        simp [hflag, helem]
      next => cases h
    · rw [if_neg hopt] at h ⊢
      rw [if_neg hopt]
      cases h
      exact hall _ (List.mem_cons_self ..)

/-- And so for the fields of a struct. -/
theorem fields_eq :
    ∀ (fs : List Field) {vs : List Value} {ws : List Write}, writesFields fs vs = some ws →
      (∀ w ∈ ws, rd.Finds (mapElem g env) w) → rd.fields fs = mapFields g env fs vs := by
  intro fs
  induction fs with
  | nil =>
    intro vs ws h _
    cases vs with
    | nil => rfl
    | cons v vs => cases h
  | cons f fs ih =>
    intro vs ws h hall
    cases vs with
    | nil => cases h
    | cons v vs =>
      simp only [writesFields, Option.bind_eq_bind, Option.bind_eq_some_iff, Option.pure_def,
        Option.some.injEq] at h
      obtain ⟨w, hw, ws', hws', rfl⟩ := h
      have hfirst := field_eq hw fun x hx => hall x (List.mem_append_left _ hx)
      have hrest := ih hws' fun x hx => hall x (List.mem_append_right _ hx)
      simp only [fields, mapFields, hfirst, hrest]

/-- **A reader that finds what was written rebuilds the value.** -/
theorem type_eq {t : TypeDef} {v : Value} {ws : List Write} (h : writes t v = some ws)
    (hall : ∀ w ∈ ws, rd.Finds (mapElem g env) w) : rd.type t = mapType g env t v := by
  unfold writes at h
  split at h
  next s vs => simp only [type, mapType, fields_eq s.fields h hall]
  next u tag v =>
    split at h
    next w hw =>
      cases h
      have htag : rd.tag 0 u.tagSize = some tag := hall _ (List.mem_cons_self ..)
      have helem : rd.elem _ _ _ _ = mapElem g env false w.elem v :=
        hall _ (List.mem_cons_of_mem _ (List.mem_cons_self ..))
      simp [type, mapType, htag, hw, helem]
    next => cases h
  next => cases h

end Build

end Reader

end ProtoEmb.Codec

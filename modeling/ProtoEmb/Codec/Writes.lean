import ProtoEmb.Codec.Value

/-!
# The body the templates emit for a type

All three templates emit the same sequence of statements for a type, at literal
offsets from its base; they differ in how a statement is carried out. `writes` is that
sequence for the encoder, one entry per statement executed.

The offsets are those `process_schema` computed. For an accepted schema they put every
write right behind the one before (`writes_contiguous`), which is why a body that
writes by offset produces the `layout`, which mentions none (`layoutType_eq`).
-/

namespace ProtoEmb.Codec

open ProtoEmb.Schema

/-- A statement of the encoder. `skip` is the room of an absent value or of an
inactive variant, which no statement writes. -/
inductive Write where
  | flag (off : Nat) (b : Bool)
  | tag (off size index : Nat)
  | skip (off size : Nat)
  | elem (off : Nat) (scalar : Bool) (width : Nat) (e : Elem) (v : Value)

/-- The loop over an array, from element `i`. -/
def writesArray (f : Field) : Nat → List Value → List Write
  | _, [] => []
  | i, v :: vs =>
    .elem (f.offset + i * f.elem.size) false f.elem.size f.elem v :: writesArray f (i + 1) vs

/-- The statements for one field: the array branch, the optional branch, and the
scalar branches, in the order the templates test for them. -/
def writesField (f : Field) (v : Value) : Option (List Write) :=
  if f.isArray then
    match v with
    | .array vs => if vs.length = f.arrayLen then some (writesArray f 0 vs) else none
    | _ => none
  else if f.isOptional then
    match v with
    | .absent => some [.flag f.offset false, .skip f.valueOffset f.elem.size]
    | .present v =>
      some [.flag f.offset true, .elem f.valueOffset false f.elem.size f.elem v]
    | _ => none
  else some [.elem f.offset true f.size f.elem v]

/-- The statements of a struct, field by field; a value needs as many parts as there are fields.
-/
def writesFields : List Field → List Value → Option (List Write)
  | [], [] => some []
  | f :: fs, v :: vs => do
    let w ← writesField f v
    let ws ← writesFields fs vs
    return w ++ ws
  | _, _ => none

/-- The statements for a value of a type. -/
def writes : TypeDef → Value → Option (List Write)
  | .struct s, .struct vs => writesFields s.fields vs
  | .union u, .union tag v =>
    match u.variants[tag]? with
    | some w =>
      some [.tag 0 u.tagSize tag, .elem u.payloadOffset false w.elem.size w.elem v,
        .skip (u.payloadOffset + w.elem.size) (u.total - u.payloadOffset - w.elem.size)]
    | none => none
  | _, _ => none

/-! ## Contiguity -/

/-- Where a statement writes. -/
def Write.off : Write → Nat
  | flag off _ => off
  | tag off _ _ => off
  | skip off _ => off
  | elem off _ _ _ _ => off

/-- How much room a statement has. -/
def Write.size : Write → Nat
  | flag _ _ => 1
  | tag _ size _ => size
  | skip _ size => size
  | elem _ _ _ e _ => e.size

/-- The writes lie one behind the other from `off` to `fin`. -/
def Contiguous : Nat → List Write → Nat → Prop
  | off, [], fin => off = fin
  | off, w :: ws, fin => w.off = off ∧ Contiguous (off + w.size) ws fin

/-- Two runs of statements that meet are one. -/
theorem Contiguous.append {xs ys : List Write} {a b c : Nat} (hx : Contiguous a xs b)
    (hy : Contiguous b ys c) : Contiguous a (xs ++ ys) c := by
  induction xs generalizing a with
  | nil =>
    have hab : a = b := hx
    subst hab
    exact hy
  | cons w xs ih => exact ⟨hx.1, ih hx.2⟩

/-- The element of a write has the width it is written with, and is laid out; only a field
of its own is a string. A tag fits its bits, or has one byte. -/
def Write.Laid (rnd : Rat → Rat) (ctx : Context) (scope : Scope) (isPacked : Bool) : Write → Prop
  | tag _ size index => if isPacked then index < 2 ^ size else size = 1
  | elem _ scalar width e _ => width = e.size ∧ e.Laid rnd ctx scope isPacked ∧
    (scalar = false → e.isString = false)
  | _ => True

section Contiguity

variable {rnd : Rat → Rat} {ctx : Context} {scope : Scope} {isPacked : Bool}

/-- The elements of an array stand one behind the other. -/
theorem writesArray_contiguous (f : Field) :
    ∀ (vs : List Value) (i : Nat),
      Contiguous (f.offset + i * f.elem.size) (writesArray f i vs)
        (f.offset + (i + vs.length) * f.elem.size) := by
  intro vs
  induction vs with
  | nil => intro i; rfl
  | cons v vs ih =>
    intro i
    refine ⟨rfl, ?_⟩
    have h := ih (i + 1)
    have hstart : f.offset + (i + 1) * f.elem.size
        = f.offset + i * f.elem.size + f.elem.size := by
      rw [Nat.add_mul, Nat.one_mul, Nat.add_assoc]
    rw [hstart] at h
    rw [List.length_cons, show i + (vs.length + 1) = i + 1 + vs.length by omega]
    exact h

/-- Every element of an array refers to what the array is of. -/
theorem writesArray_laid {f : Field} (he : f.elem.Laid rnd ctx scope isPacked)
    (hs : f.elem.isString = false) :
    ∀ (vs : List Value) (i : Nat), ∀ w ∈ writesArray f i vs, w.Laid rnd ctx scope isPacked := by
  intro vs
  induction vs with
  | nil => intro i w hw; exact absurd hw List.not_mem_nil
  | cons v vs ih =>
    intro i w hw
    rcases List.mem_cons.mp hw with rfl | hw
    · exact ⟨rfl, he, fun _ => hs⟩
    · exact ih (i + 1) w hw

/-- A field fills its room: a flag and a value or padding, an array, or a value. -/
theorem writesField_contiguous {f : Field} {off : Nat} {v : Value} {ws : List Write}
    (hf : f.Laid rnd ctx scope isPacked off) (hv : f.Valid) (h : writesField f v = some ws) :
    Contiguous off ws (off + f.size) ∧ ∀ w ∈ ws, w.Laid rnd ctx scope isPacked := by
  unfold writesField at h
  have hsize := hf.size_eq
  by_cases harr : f.isArray = true
  · rw [if_pos harr] at h
    -- an array is not optional, so its elements start at the field's offset
    have hvalid := hv.array (hf.array_eq ▸ harr)
    have hopt : f.isOptional = false := by
      rw [hf.optional_eq]
      exact hvalid.1
    split at h
    next vs =>
      split at h
      next hlen =>
        cases h
        refine ⟨?_, writesArray_laid hf.elem hvalid.2 vs 0⟩
        have hc := writesArray_contiguous f vs 0
        rw [Nat.zero_mul, Nat.add_zero, Nat.zero_add, hf.offset_eq, hlen] at hc
        rw [hsize, Field.flagSize, hopt, if_neg Bool.false_ne_true, Nat.zero_add, Nat.mul_comm]
        exact hc
      next => cases h
    next => cases h
  · rw [if_neg harr] at h
    have hone : f.arrayLen = 1 := hf.single (by simpa using harr)
    rw [hone, Nat.mul_one] at hsize
    have hval := hf.value_eq
    by_cases hopt : f.isOptional = true
    · rw [if_pos hopt] at h
      rw [Field.flagSize, if_pos hopt] at hsize hval
      split at h
      next =>
        cases h
        refine ⟨⟨hf.offset_eq, hval, ?_⟩, fun w hw => ?_⟩
        · show off + 1 + f.elem.size = off + f.size
          omega
        · rcases List.mem_cons.mp hw with rfl | hw
          · exact trivial
          · rw [List.mem_singleton.mp hw]
            exact trivial
      next v =>
        cases h
        refine ⟨⟨hf.offset_eq, hval, ?_⟩, fun w hw => ?_⟩
        · show off + 1 + f.elem.size = off + f.size
          omega
        · rcases List.mem_cons.mp hw with rfl | hw
          · exact trivial
          · rw [List.mem_singleton.mp hw]
            exact ⟨rfl, hf.elem, fun _ => hv.optional (hf.optional_eq ▸ hopt)⟩
      next => cases h
    · rw [if_neg hopt] at h
      rw [Field.flagSize, if_neg hopt, Nat.zero_add] at hsize
      cases h
      refine ⟨⟨hf.offset_eq, ?_⟩, fun w hw => ?_⟩
      · show off + f.elem.size = off + f.size
        rw [hsize]
      · rw [List.mem_singleton.mp hw]
        exact ⟨hsize, hf.elem, fun hscalar => by cases hscalar⟩

/-- So do the fields of a struct together. -/
theorem writesFields_contiguous :
    ∀ (fs : List Field) {off : Nat} {vs : List Value} {ws : List Write},
      FieldsLaid rnd ctx scope isPacked off fs → (∀ f ∈ fs, f.Valid) →
      writesFields fs vs = some ws →
      Contiguous off ws (off + (fs.map Field.size).sum) ∧
        ∀ w ∈ ws, w.Laid rnd ctx scope isPacked := by
  intro fs
  induction fs with
  | nil =>
    intro off vs ws _ _ h
    cases vs with
    | nil => cases h; exact ⟨rfl, fun w hw => absurd hw List.not_mem_nil⟩
    | cons v vs => cases h
  | cons f fs ih =>
    intro off vs ws hlaid hvalid h
    cases vs with
    | nil => cases h
    | cons v vs =>
      simp only [writesFields, Option.bind_eq_bind, Option.bind_eq_some_iff, Option.pure_def,
        Option.some.injEq] at h
      obtain ⟨w, hw, ws', hws', rfl⟩ := h
      have hfirst := writesField_contiguous hlaid.1 (hvalid f (List.mem_cons_self ..)) hw
      have hrest := ih hlaid.2 (fun x hx => hvalid x (List.mem_cons_of_mem _ hx)) hws'
      refine ⟨?_, fun x hx => ?_⟩
      · rw [List.map_cons, List.sum_cons, ← Nat.add_assoc]
        exact hfirst.1.append hrest.1
      · rcases List.mem_append.mp hx with hx | hx
        · exact hfirst.2 x hx
        · exact hrest.2 x hx

/-- **The writes of an accepted type lie one behind the other**, from its base to its
end. -/
theorem writes_contiguous {t : TypeDef} (ht : t.Laid rnd ctx scope) (hv : t.Valid) {v : Value}
    {ws : List Write} (h : writes t v = some ws) :
    Contiguous 0 ws t.total ∧ ∀ w ∈ ws, w.Laid rnd ctx scope t.isPacked := by
  unfold writes at h
  split at h
  next s vs =>
    have hs : s.Laid rnd ctx scope := ht
    have hc := writesFields_contiguous s.fields hs.fields hv h
    rw [Nat.zero_add] at hc
    show Contiguous 0 ws s.total ∧ _
    rw [hs.total_eq]
    exact hc
  next u tag v =>
    have hu : u.Laid rnd ctx := ht
    split at h
    next w hw =>
      cases h
      have hmem : w ∈ u.variants := List.mem_of_getElem? hw
      have hfits := hu.fits w hmem
      have hpay := hu.payload_eq
      -- tag, payload, and the rest of the union that is skipped
      refine ⟨⟨rfl, ?_, ?_, ?_⟩, fun x hx => ?_⟩
      · show u.payloadOffset = 0 + u.tagSize
        omega
      · show u.payloadOffset + w.elem.size = 0 + u.tagSize + w.elem.size
        omega
      · show 0 + u.tagSize + w.elem.size + (u.total - u.payloadOffset - w.elem.size) = u.total
        omega
      · obtain ⟨hlaid, hstr⟩ := hu.variant hv hmem scope
        rcases List.mem_cons.mp hx with rfl | hx
        · have htag : tag < u.variants.length := (List.getElem?_eq_some_iff.mp hw).1
          show if u.isPacked then tag < 2 ^ u.tagSize else u.tagSize = 1
          unfold Union.tagSize
          split
          · exact Nat.lt_of_lt_of_le htag hu.tag_fits
          · rfl
        · rcases List.mem_cons.mp hx with rfl | hx
          · exact ⟨rfl, hlaid, fun _ => hstr⟩
          · rw [List.mem_singleton.mp hx]
            exact trivial
    next => cases h
  next => cases h

end Contiguity

/-! ## The layout of the writes -/

/-- What one statement contributes to the wire, without its offset. -/
def layoutWrite (env : String → Layout) : Write → Option (List Chunk)
  | .flag _ b => some [.flag b]
  | .tag _ size index => some [.tag size index]
  | .skip _ size => some [.pad size]
  | .elem _ scalar _ e v => layoutElem env scalar e v

/-- What the statements contribute, one behind the other. -/
def layoutWrites (env : String → Layout) : List Write → Option (List Chunk)
  | [] => some []
  | w :: ws => do
    let c ← layoutWrite env w
    let cs ← layoutWrites env ws
    return c ++ cs

/-- Statements in a row give their chunks in a row. -/
theorem layoutWrites_append (env : String → Layout) (xs ys : List Write) :
    layoutWrites env (xs ++ ys) = (layoutWrites env xs).bind fun a =>
      (layoutWrites env ys).map (a ++ ·) := by
  induction xs with
  | nil => simp [layoutWrites]
  | cons w xs ih =>
    simp only [List.cons_append, layoutWrites, ih, Option.bind_eq_bind, Option.pure_def]
    cases layoutWrite env w <;> cases layoutWrites env xs <;> cases layoutWrites env ys <;> simp

/-- For an array these are the layouts of its elements. -/
theorem layoutWrites_array (env : String → Layout) (f : Field) :
    ∀ (vs : List Value) (i : Nat),
      layoutWrites env (writesArray f i vs) = layoutArray env f.elem vs := by
  intro vs
  induction vs with
  | nil => intro i; rfl
  | cons v vs ih => intro i; simp only [writesArray, layoutWrites, layoutWrite, layoutArray, ih]

/-- The documented layout of a field is what its statements contribute. -/
theorem layoutField_eq (env : String → Layout) (f : Field) (v : Value) :
    layoutField env f v = (writesField f v).bind (layoutWrites env) := by
  unfold layoutField writesField
  by_cases harr : f.isArray = true
  · rw [if_pos harr, if_pos harr]
    cases v with
    | array vs =>
      by_cases hlen : vs.length = f.arrayLen
      · simp only [if_pos hlen, Option.bind_some, layoutWrites_array]
      · simp only [if_neg hlen, Option.bind_none]
    | _ => rfl
  · rw [if_neg harr, if_neg harr]
    by_cases hopt : f.isOptional = true
    · rw [if_pos hopt, if_pos hopt]
      cases v with
      | present v =>
        simp only [Option.bind_some, layoutWrites, layoutWrite]
        cases layoutElem env false f.elem v <;> simp
      | absent => rfl
      | _ => rfl
    · rw [if_neg hopt, if_neg hopt]
      simp only [Option.bind_some, layoutWrites, layoutWrite]
      cases layoutElem env true f.elem v <;> simp

/-- And that of the fields of a struct. -/
theorem layoutFields_eq (env : String → Layout) :
    ∀ (fs : List Field) (vs : List Value),
      layoutFields env fs vs = (writesFields fs vs).bind (layoutWrites env) := by
  intro fs
  induction fs with
  | nil => intro vs; cases vs <;> rfl
  | cons f fs ih =>
    intro vs
    cases vs with
    | nil => rfl
    | cons v vs =>
      simp only [layoutFields, writesFields, layoutField_eq, ih, Option.bind_eq_bind]
      cases writesField f v with
      | none => rfl
      | some w =>
        cases writesFields fs vs with
        | none => simp
        | some ws => simp [layoutWrites_append, Option.map_eq_bind]

/-- What the writes put on the wire, one after the other, is the layout. -/
theorem layoutType_eq (env : String → Layout) (t : TypeDef) (v : Value) :
    layoutType env t v = (writes t v).bind (layoutWrites env) := by
  unfold layoutType writes
  cases t with
  | struct s =>
    cases v with
    | struct vs => exact layoutFields_eq env s.fields vs
    | _ => rfl
  | union u =>
    cases v with
    | union tag v =>
      simp only
      cases u.variants[tag]? with
      | none => rfl
      | some w =>
        simp only [Option.bind_some, layoutWrites, layoutWrite]
        cases layoutElem env false w.elem v <;> simp
    | _ => rfl

end ProtoEmb.Codec

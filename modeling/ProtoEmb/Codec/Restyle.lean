import ProtoEmb.Codec.CRoundTrip
import ProtoEmb.Codec.Logical
import ProtoEmb.Codec.RemapSearch
import ProtoEmb.Schema.Restyle

/-!
# The remap style on the wire

`generate.py` chooses between the two tables of a remap enum (`_remap_style`), or the schema does
with `remap_style`. The encoder of a type whose enums have other tables runs through the same
statements, so it writes the same bytes if every leaf is looked up to the same index
(`PackLang.encode_restyle`). For distinct bytes it is, whatever constant up to the largest stands
in the value (`C.encode_restyle`). Aligned types store the constant itself and have no table.
-/

namespace ProtoEmb.Codec

open ProtoEmb.Lib ProtoEmb.Schema

variable {style : String → Option String}

/-! ## Statements -/

/-- The statement with another table for its enum. -/
def Write.restyle (style : String → Option String) : Write → Write
  | .elem off scalar width e v => .elem off scalar width (e.restyle style) v
  | w => w

/-- The statements of an array are those with the other tables. -/
theorem writesArray_restyle (f : Field) :
    ∀ (vs : List Value) (i : Nat),
      writesArray (f.restyle style) i vs = (writesArray f i vs).map (Write.restyle style) := by
  intro vs
  induction vs with
  | nil => intro i; rfl
  | cons v vs ih =>
    intro i
    rw [writesArray, writesArray, List.map_cons, ih]
    simp only [Write.restyle, Field.restyle_elem, Field.restyle_offset, Elem.restyle_size]

/-- The statements of a field likewise. -/
theorem writesField_restyle (f : Field) (v : Value) :
    writesField (f.restyle style) v
      = (writesField f v).map (List.map (Write.restyle style)) := by
  unfold writesField
  simp only [writesArray_restyle, Field.restyle_elem, Field.restyle_isArray, Field.restyle_arrayLen,
    Field.restyle_isOptional, Field.restyle_offset, Field.restyle_valueOffset, Elem.restyle_size]
  by_cases harr : f.isArray = true
  · simp only [if_pos harr]
    cases v with
    | array vs =>
      by_cases hlen : vs.length = f.arrayLen
      · simp only [if_pos hlen, Option.map_some]
      · simp only [if_neg hlen, Option.map_none]
    | _ => rfl
  · simp only [if_neg harr]
    by_cases hopt : f.isOptional = true
    · simp only [if_pos hopt]
      cases v <;> rfl
    · simp only [if_neg hopt]
      rfl

/-- And those of the fields of a struct. -/
theorem writesFields_restyle :
    ∀ (fs : List Field) (vs : List Value),
      writesFields (fs.map (Field.restyle style)) vs
        = (writesFields fs vs).map (List.map (Write.restyle style)) := by
  intro fs
  induction fs with
  | nil => intro vs; cases vs <;> rfl
  | cons f fs ih =>
    intro vs
    cases vs with
    | nil => rfl
    | cons v vs =>
      simp only [List.map_cons, writesFields, writesField_restyle, ih]
      cases writesField f v with
      | none => rfl
      | some w =>
        cases writesFields fs vs with
        | none => rfl
        | some ws => simp

/-- The statements for a value are the same, with the other elements. -/
theorem writes_restyle (t : TypeDef) (v : Value) :
    writes (t.restyle style) v = (writes t v).map (List.map (Write.restyle style)) := by
  cases t with
  | struct s =>
    cases v with
    | struct vs => exact writesFields_restyle s.fields vs
    | _ => rfl
  | union u =>
    cases v with
    | union tag v =>
      simp only [TypeDef.restyle, writes, Union.restyle, List.getElem?_map]
      cases u.variants[tag]? with
      | none => rfl
      | some w =>
        simp only [Option.map_some, Variant.restyle, Elem.restyle_size]
        rfl
    | _ => rfl

/-- Whether a struct has a helper does not depend on tables. -/
theorem isFlat_restyle (scope : Scope) (name : String) (t : TypeDef) :
    PackLang.isFlat (Scope.restyle style scope) name (t.restyle style)
      = PackLang.isFlat scope name t := by
  have hneeds : (Scope.restyle style scope).needsPackHelper name = scope.needsPackHelper name := by
    simp only [Scope.needsPackHelper, Scope.restyle, List.any_map, Function.comp_def,
      TypeDef.restyle_references, Elem.restyle_isNested, Elem.restyle_type]
  cases t with
  | struct s =>
    show (!((Scope.restyle style scope).needsPackHelper name || s.hasNested)) = _
    rw [hneeds]
    rfl
  | union u => rfl

/-! ## Packed types -/

section Packed

variable {L : PackLang}

/-- The leaf is sent the same under another style. -/
def PackLang.SameStep (L : PackLang) (style : String → Option String) (s : Bool) (e : Elem)
    (v : Value) : Prop := L.step s (e.restyle style) v = L.step s e v

/-- The statements do the same if every leaf has the same step. -/
theorem packWrites_restyle {env env' : String → List UInt8 → Nat → Value → Option (List UInt8)}
    {offset : Nat → Option Nat} {ws : List Write}
    (h : AllElems (fun s e v => if e.isNested then ∀ buf o, env' e.type buf o v = env e.type buf o v
      else L.SameStep style s e v) ws) (buf : List UInt8) :
    (ws.map (Write.restyle style)).foldlM (L.packWrite env' offset) buf
      = ws.foldlM (L.packWrite env offset) buf := by
  rw [List.foldlM_map]
  refine foldlM_congr_mem ws buf fun w hw buf => ?_
  cases w with
  | elem off s k e v =>
    have he := h off s k e v hw
    beta_reduce at he
    have hwidth : PackLang.leafWidth (e.restyle style) k = PackLang.leafWidth e k := by
      rw [PackLang.leafWidth, Elem.restyle_isBool]
      rfl
    simp only [Write.restyle, PackLang.packWrite, Elem.restyle_isNested, Elem.restyle_type, hwidth]
    split at he
    next hn => simp only [if_pos hn, he]
    next hn =>
      have hstep : L.step s (e.restyle style) v = L.step s e v := he
      simp only [if_neg hn, hstep]
  | _ => rfl

/-- So does the encoder of a type; an induction over the scope. -/
theorem pack_restyle :
    ∀ (scope : Scope) {name : String} {v : Value} {cs : List Chunk},
      layout scope name v = some cs → AllLeaves (L.SameStep style) cs →
      ∀ (buf : List UInt8) (base : Nat),
        L.pack (Scope.restyle style scope) name buf base v = L.pack scope name buf base v := by
  intro scope
  induction scope with
  | nil => intro name v cs h; cases h
  | cons entry rest ih =>
    intro name v cs h hall buf base
    obtain ⟨n, t⟩ := entry
    have hcons : Scope.restyle style ((n, t) :: rest)
        = (n, t.restyle style) :: Scope.restyle style rest := rfl
    rw [hcons]
    by_cases hname : name = n
    · subst hname
      obtain ⟨ws, hws, hcs⟩ := layout_head h
      rw [PackLang.pack, resolve_head, resolve_head, PackLang.packBody, PackLang.packBody,
        writes_restyle, hws]
      exact packWrites_restyle (allElems_of_leaves ih ws hcs hall) buf
    · rw [layout, resolve_tail t rest hname] at h
      rw [PackLang.pack, resolve_tail _ _ hname, resolve_tail t rest hname]
      exact ih h hall buf base

/-- The statements of a type and the parts of the layout they are. -/
theorem layout_writes {v : Value} {cs : List Chunk} :
    ∀ (scope : Scope) (name : String) (t : TypeDef), scope.lookup name = some t →
      layout scope name v = some cs →
      ∃ rest ws, writes t v = some ws ∧ layoutWrites (layout rest) ws = some cs := by
  refine scope_induction ?_ ?_
  · intro n t rest _ h
    obtain ⟨ws, hws, hcs⟩ := layout_head h
    exact ⟨rest, ws, hws, hcs⟩
  · intro n t₀ rest m t hm ih h
    rw [layout, resolve_tail t₀ rest hm] at h
    exact ih h

/-- **A packed encoder sends the same bytes if it sends the same leaves.** -/
theorem PackLang.encode_restyle (scope : Scope) {name : String} {v : Value} {cs : List Chunk}
    (h : layout scope name v = some cs) (hall : AllLeaves (L.SameStep style) cs) :
    L.encode (Scope.restyle style scope) name v = L.encode scope name v := by
  unfold PackLang.encode
  rw [Scope.restyle_lookup]
  cases ht : scope.lookup name with
  | none => rfl
  | some t =>
    simp only [Option.map_some, Option.bind_eq_bind, Option.bind_some, isFlat_restyle,
      TypeDef.restyle_wireSize]
    split
    next =>
      -- nothing is nested, so there is no other encoder to call
      obtain ⟨rest, ws, hws, hcs⟩ := layout_writes scope name t ht h
      rw [PackLang.packBody, PackLang.packBody, writes_restyle, hws]
      exact packWrites_restyle (allElems_of_leaves (Q := fun _ _ => ∀ _ _, none = none)
        (fun _ _ _ _ => rfl) ws hcs hall) _
    next => exact pack_restyle scope h hall _ 0

end Packed

/-! ## Aligned types -/

section Aligned

/-- The aligned templates never look at the tables. -/
structure AlignLang.Styleless (L : AlignLang) (style : String → Option String) : Prop where
  leaf : ∀ s k e v, L.leaf s k (e.restyle style) v = L.leaf s k e v
  advance : ∀ wire f, L.advance wire (f.restyle style) = L.advance wire f

variable {L : AlignLang}

/-- Aligned statements look up nothing. -/
theorem storeWrites_restyle (hL : L.Styleless style)
    (nested : String → List UInt8 → Nat → Value → Option (List UInt8))
    (offset : Nat → Option Nat) (ws : List Write) (buf : List UInt8) :
    (ws.map (Write.restyle style)).foldlM (L.storeWrite nested offset) buf
      = ws.foldlM (L.storeWrite nested offset) buf := by
  rw [List.foldlM_map]
  refine foldlM_congr_mem ws buf fun w _ buf => ?_
  cases w with
  | elem off s k e v =>
    simp only [Write.restyle, AlignLang.storeWrite, Elem.restyle_isNested, Elem.restyle_type,
      hL.leaf]
  | _ => rfl

/-- So the encoder in place is the same function. -/
theorem encodeAt_restyle (hL : L.Styleless style) :
    ∀ scope : Scope, L.encodeAt (Scope.restyle style scope) = L.encodeAt scope := by
  intro scope
  induction scope with
  | nil => rfl
  | cons entry rest ih =>
    obtain ⟨n, t⟩ := entry
    have hcons : Scope.restyle style ((n, t) :: rest)
        = (n, t.restyle style) :: Scope.restyle style rest := rfl
    funext name
    rw [hcons]
    unfold AlignLang.encodeAt at ih ⊢
    by_cases hname : name = n
    · subst hname
      rw [resolve_head, resolve_head, ih]
      funext buf base v
      rw [writes_restyle]
      cases writes t v with
      | none => rfl
      | some ws => exact storeWrites_restyle hL _ _ ws buf
    · rw [resolve_tail _ _ hname, resolve_tail t rest hname, ih]

/-- The running offset is the same. -/
theorem placeFields_restyle (hL : L.Styleless style) (wire : String → Nat) :
    ∀ (fs : List Field) (offset : Nat),
      AlignLang.placeFields (L.advance wire) offset (fs.map (Field.restyle style))
        = (AlignLang.placeFields (L.advance wire) offset fs).map
            (List.map (Field.restyle style)) := by
  intro fs
  induction fs with
  | nil => intro offset; rfl
  | cons f fs ih =>
    intro offset
    simp only [List.map_cons, AlignLang.placeFields, hL.advance]
    cases L.advance wire f with
    | none => rfl
    | some n =>
      simp only [Option.bind_eq_bind, Option.bind_some, ih]
      cases AlignLang.placeFields (L.advance wire) (offset + n) fs <;> rfl

/-- For a struct; a union has no running offset. -/
theorem place_restyle (hL : L.Styleless style) (wire : String → Nat) (t : TypeDef) :
    AlignLang.place (L.advance wire) (t.restyle style)
      = (AlignLang.place (L.advance wire) t).map (TypeDef.restyle style) := by
  cases t with
  | struct s =>
    have hfields := placeFields_restyle hL wire s.fields 0
    simp only [TypeDef.restyle, AlignLang.place, Struct.restyle, hfields]
    cases AlignLang.placeFields (L.advance wire) 0 s.fields <;> rfl
  | union u => rfl

/-- An aligned type is encoded the same under any tables. -/
theorem AlignLang.encodeInPlace_restyle (hL : L.Styleless style) (scope : Scope) (name : String)
    (v : Value) :
    L.encodeInPlace (Scope.restyle style scope) name v = L.encodeInPlace scope name v := by
  unfold AlignLang.encodeInPlace
  rw [Scope.restyle_lookup]
  cases scope.lookup name with
  | none => rfl
  | some t =>
    simp only [Option.map_some, Option.bind_eq_bind, Option.bind_some, isFlat_restyle,
      TypeDef.restyle_wireSize, encodeAt_restyle hL, place_restyle hL]
    split
    next =>
      cases AlignLang.place (L.advance fun _ => 0) t with
      | none => rfl
      | some placed =>
        simp only [Option.map_some, Option.bind_some, writes_restyle]
        cases writes placed v with
        | none => rfl
        | some ws => exact storeWrites_restyle hL _ _ ws _
    next => rfl

/-- C stores the constant itself. -/
theorem C.alignLang_styleless (fl : C.FloatExprs) : (C.alignLang fl).Styleless style where
  leaf s k e v := by
    cases he : e.isEnum with
    | false => rw [Elem.restyle_of_not_enum he]
    | true =>
      rw [Elem.restyle_of_enum he]
      simp only [C.alignLang, C.alignedLeaf, he, if_true]
  advance wire f := by
    cases he : f.elem.isEnum with
    | false => simp only [C.alignLang, Field.restyle, Elem.restyle_of_not_enum he]
    | true =>
      simp only [C.alignLang, Field.restyle, Elem.restyle_of_enum he]

end Aligned

/-! ## Remap enums -/

/-- A constant of a remap enum lies between 0 and the largest value. -/
def WithinValues (e : Elem) : Value → Prop
  | .enum c => ∀ t ∈ e.enum, t.isRemap = true → 0 ≤ c ∧ ∃ w ∈ t.variants, c ≤ w.value
  | _ => True

instance (e : Elem) : (v : Value) → Decidable (WithinValues e v)
  | .enum c => inferInstanceAs (Decidable
      (∀ t ∈ e.enum, t.isRemap = true → 0 ≤ c ∧ ∃ w ∈ t.variants, c ≤ w.value))
  | .bool _ | .int _ | .num _ | .float _ | .str _ | .absent | .present _ | .array _ | .struct _
  | .union _ _ => .isTrue trivial

section Remap

variable {rnd : Rat → Rat} {ctx : Context}

/-- The values stay distinct. -/
theorem Distinct.restyle {t : Enum} (h : Distinct t) (s : Option String) :
    Distinct (t.restyle s) :=
  ⟨by rw [Enum.restyle_variants]; exact h.nodup, by rw [Enum.restyle_variants]; exact h.byte⟩

/-- A constant up to the largest value has one index under every style. -/
theorem valueToWire_restyle {t : Enum} (hl : t.Laid) (hr : t.isRemap = true) (h : Distinct t)
    {c : Int} (h0 : 0 ≤ c) (hmax : ∃ w ∈ t.variants, c ≤ w.value) (s : Option String) :
    valueToWire (t.restyle s) c = valueToWire t c := by
  rw [valueToWire_eq hl hr h h0 hmax,
    valueToWire_eq (hl.restyle s) (by rw [Enum.restyle_isRemap]; exact hr) (h.restyle s) h0
      (by rw [Enum.restyle_variants]; exact hmax),
    declaredIndex, declaredIndex, Enum.restyle_variants]

/-- The argument of `pack_bits` is the same under every style. -/
theorem C.sameStep {fl : C.FloatExprs} {s : Bool} {e : Elem} {v : Value} (he : e.Leaf rnd ctx true)
    (hctx : ctx.EnumsLaid) (hd : RemapDistinct e) (hv : WithinValues e v) :
    (C.lang fl).SameStep style s e v := by
  show C.step fl s (e.restyle style) v = C.step fl s e v
  cases henum : e.isEnum with
  | false => rw [Elem.restyle_of_not_enum henum]
  | true =>
    rw [Elem.restyle_of_enum henum]
    unfold C.step
    by_cases hb : e.isBool = true
    · simp only [if_pos hb]
    obtain ⟨t, ht, hlaid, -⟩ := he.packedEnum_eq hctx henum (by simpa using hb)
    simp only [if_neg hb, henum, if_true, ht, Option.map_some]
    cases v with
    | enum c =>
      simp only [Enum.restyle_isRemap]
      by_cases hr : t.isRemap = true
      · obtain ⟨h0, hmax⟩ := hv t ht hr
        simp only [if_pos hr, valueToWire_restyle hlaid hr (hd t ht hr) h0 hmax]
      · simp only [if_neg hr]
    | _ => rfl

variable {schema : SchemaDecl} {data : Data}

/-- **The remap style is immaterial on the wire.** -/
theorem C.encode_restyle (hproc : processSchema rnd schema = .ok data)
    (hval : validateSchema rnd data = []) {name : String} {t : TypeDef}
    (ht : data.types.lookup name = some t) {v : Value} {cs : List Chunk}
    (hlay : layout data.types name v = some cs)
    (hleaves : t.isPacked = true →
      AllLeaves (fun _ e v => RemapDistinct e ∧ WithinValues e v) cs)
    (fl : C.FloatExprs) (style : String → Option String) :
    C.encode fl (data.restyle style).types name v = C.encode fl data.types name v := by
  obtain ⟨ctx, hacc⟩ := accepted hproc hval
  show C.encode fl (Scope.restyle style data.types) name v = _
  unfold C.encode
  rw [Scope.restyle_lookup, ht]
  simp only [Option.map_some, Option.bind_eq_bind, Option.bind_some, TypeDef.restyle_isPacked]
  cases hpk : t.isPacked with
  | false => exact AlignLang.encodeInPlace_restyle (C.alignLang_styleless fl) data.types name v
  | true =>
    have hall := layout_leaves data.types name t ht hacc.types hpk hlay
    refine PackLang.encode_restyle data.types hlay fun s e v hl => ?_
    obtain ⟨hd, hv⟩ := hleaves hpk s e v hl
    exact C.sameStep (hall s e v hl) hacc.enums hd hv

end Remap

/-! ## The two tables -/

/-- Both tables of a remap enum give the declaration index of every byte they are asked for,
and 0 for one that is no value; the search comes to an end within nine rounds. What the encoder
looks up is what stands in the header. -/
structure TablesAgree (e : Enum) : Prop where
  search : ∀ (fuel : Nat) (x : UInt8), 9 ≤ fuel →
    (RemapTable.valueToWire e fuel x).map UInt8.toNat = some (declaredIndex e x.toNat)
  dense : ∀ x : UInt8, (x.toNat : Int) ≤ e.maxValue →
    (RemapTable.valueToWireArray e)[x.toNat]?.map UInt8.toNat = some (declaredIndex e x.toNat)
  searched : ∀ (fuel : Nat) (x : UInt8), 9 ≤ fuel →
    searchValueToWire e x.toNat = (RemapTable.valueToWire e fuel x).map UInt8.toNat
  looked_up : ∀ x : UInt8, (x.toNat : Int) ≤ e.maxValue →
    denseValueToWire e x.toNat = (RemapTable.valueToWireArray e)[x.toNat]?.map UInt8.toNat

/-- **Binary search and dense array.** In every processed schema the tables of a remap enum of
distinct bytes agree, and if the schema is accepted, other `remap_style` keys leave the bytes
of every value as they are, as long as no constant is beyond the largest value. -/
theorem remap_search_dense {rnd : Rat → Rat} {schema : SchemaDecl} {data : Data}
    (hproc : processSchema rnd schema = .ok data) :
    (∀ name e, (name, e) ∈ data.enums → e.isRemap = true → Distinct e → TablesAgree e) ∧
      (validateSchema rnd data = [] → ∀ style : String → Option String, ∃ data',
        processSchema rnd (schema.restyle style) = .ok data' ∧
          ∀ (fl : C.FloatExprs) (name : String) (t : TypeDef) (v : Value) (cs : List Chunk),
            data.types.lookup name = some t → layout data.types name v = some cs →
            (t.isPacked = true →
              AllLeaves (fun _ e v => RemapDistinct e ∧ WithinValues e v) cs) →
            C.encode fl data'.types name v = C.encode fl data.types name v) := by
  constructor
  · intro name e he hr hd
    have hl := enum_laid hproc he
    exact ⟨fun _ x hfuel => RemapTable.search_eq hl hr hd hfuel x,
      fun x hx => RemapTable.dense_eq hl hd hx,
      fun _ x hfuel => RemapTable.searchValueToWire_literal hl hr hd hfuel x,
      fun x hx => RemapTable.denseValueToWire_literal hl hd hx⟩
  · intro hval style
    refine ⟨data.restyle style, ?_, fun fl name t v cs ht hlay hleaves =>
      C.encode_restyle hproc hval ht hlay hleaves fl style⟩
    rw [← processSchema_restyle, hproc]
    rfl

/-- The thermostat with its fan searched for. -/
theorem remap_search_dense_fan :
    (∃ e, ("FanCmd", e) ∈ thermostatData.enums ∧ e.remapStyle = .array ∧ TablesAgree e) ∧
      ∃ data', processSchema id (thermostat.restyle fun _ => some "search") = .ok data' ∧
        (∃ e, ("FanCmd", e) ∈ data'.enums ∧ e.remapStyle = .search) ∧
        C.encode C.noFloats data'.types "ZoneState"
            (.struct [.enum 1, .enum 9, .int 21, .bool true, .struct [.int 19, .int 38]])
          = C.encode C.noFloats thermostatData.types "ZoneState"
            (.struct [.enum 1, .enum 9, .int 21, .bool true, .struct [.int 19, .int 38]]) := by
  obtain ⟨htables, hstyle⟩ := remap_search_dense thermostat_ok
  obtain ⟨data', hdata, hbytes⟩ := hstyle thermostat_valid fun _ => some "search"
  have hsearch : processSchema id (thermostat.restyle fun _ => some "search")
      = .ok (processed (thermostat.restyle fun _ => some "search")) := rfl
  refine ⟨⟨_, List.mem_of_getElem? (show thermostatData.enums[1]? = some _ from rfl),
    by decide +kernel, htables _ _ (List.mem_of_getElem? (i := 1) rfl) rfl (by decide +kernel)⟩,
    data', hdata, ?_, hbytes _ _ _ _ _ rfl rfl fun _ => by decide +kernel⟩
  rw [hsearch, Except.ok.injEq] at hdata
  subst hdata
  exact ⟨_, List.mem_of_getElem? (i := 1) rfl, by decide +kernel⟩

end ProtoEmb.Codec

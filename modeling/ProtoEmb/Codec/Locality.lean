import ProtoEmb.Codec.Crossing
import ProtoEmb.Codec.TypeScriptRoundTrip
import ProtoEmb.Schema.Versions

/-!
# The code of a type

The code the templates emit for a type calls the code of the types it embeds and looks at no
other (`Local`): so do the encoders and the decoders of the three languages. The types of an
accepted schema are a table of definitions over one another, so two versions of a schema that
agree on names closed under reference have the same code under these names, on every value and on
every buffer (`code_same`). Only whether a struct has a pack helper depends on the rest of the
schema: a struct that embeds nothing has one if something embeds it.

The templates emit functions that call each other by name, and the model has them as meanings of
a table of definitions (`Lib.Definitions`).
-/

namespace ProtoEmb.Codec

open ProtoEmb.Lib ProtoEmb.Lib.Definitions ProtoEmb.Schema

/-- The recursion of the templates gives the types their meaning. -/
theorem resolve_eq {β : Type} (undefined : β) (body : (String → β) → TypeDef → β) (scope : Scope) :
    resolve undefined body scope = meaning undefined body scope := by
  induction scope with
  | nil => rfl
  | cons entry rest ih =>
    obtain ⟨n, t⟩ := entry
    funext name
    rw [resolve, meaning, ih]

/-- The code of a type that an element names is the same in both. -/
def SameNested {β : Type} (env env' : String → β) (e : Elem) : Prop :=
  e.isNested = true → env' e.type = env e.type

/-- Environments that agree on what a type embeds agree at each of its references. -/
theorem sameNested {β : Type} {env env' : String → β} {t : TypeDef}
    (h : ∀ m ∈ t.embeds, env' m = env m) : ∀ e ∈ t.references, SameNested env env' e :=
  fun e he hn => h e.type (TypeDef.mem_embeds.mpr ⟨e, he, hn, rfl⟩)

/-- The leaf of a field is among the references of its struct. -/
theorem field_mem_references {s : Struct} {f : Field} (hf : f ∈ s.fields) :
    f.elem ∈ (TypeDef.struct s).references := List.mem_map_of_mem hf

/-- The leaf of the active variant is among the references of its union. -/
theorem variant_mem_references {u : Union} {tag : Nat} {w : Variant}
    (hw : u.variants[tag]? = some w) : w.elem ∈ (TypeDef.union u).references :=
  List.mem_map_of_mem (List.mem_of_getElem? hw)

/-! ## Statements and readers -/

/-- The elements of the statements are those that the type refers to. -/
theorem writes_elem {t : TypeDef} {v : Value} {ws : List Write} (h : writes t v = some ws) :
    AllElems (fun _ e _ => e ∈ t.references) ws := by
  cases t with
  | struct s =>
    cases v with
    | struct vs =>
      intro off b k e x hm
      obtain ⟨f, hf, rfl⟩ := writesFields_elem s.fields h off b k e x hm
      exact field_mem_references hf
    | _ => cases h
  | union u =>
    cases v with
    | union tag v =>
      simp only [writes] at h
      split at h
      next w hw =>
        cases h
        intro off b k e x hm
        simp only [List.mem_cons, reduceCtorEq, Write.elem.injEq, List.not_mem_nil, or_false,
          false_or] at hm
        obtain ⟨-, -, -, rfl, -⟩ := hm
        exact variant_mem_references hw
      next => cases h
    | _ => cases h

/-- The code of an encoder: each statement in turn. -/
theorem foldlM_writes_local {step step' : List UInt8 → Write → Option (List UInt8)} {t : TypeDef}
    (h : ∀ w buf, (∀ off s k e v, w = .elem off s k e v → e ∈ t.references) →
      step' buf w = step buf w) {v : Value} {ws : List Write} (hws : writes t v = some ws)
    (buf : List UInt8) : ws.foldlM step' buf = ws.foldlM step buf :=
  foldlM_congr_mem ws buf fun w hw buf => h w buf fun off s k e x heq =>
    writes_elem hws off s k e x (heq ▸ hw)

section Read

variable {rd rd' : Reader}

/-- An array is read element by element. -/
theorem Reader.array_local {f : Field}
    (h : ∀ off s k, rd'.elem off s k f.elem = rd.elem off s k f.elem) :
    ∀ n i, rd'.array f n i = rd.array f n i := by
  intro n
  induction n with
  | zero => intro i; rfl
  | succ n ih => intro i; simp only [Reader.array, h, ih]

/-- A field is read by its flag and its elements. -/
theorem Reader.field_local (hflag : rd'.flag = rd.flag) {f : Field}
    (h : ∀ off s k, rd'.elem off s k f.elem = rd.elem off s k f.elem) :
    rd'.field f = rd.field f := by
  unfold Reader.field
  simp only [Reader.array_local h, hflag, h]

/-- So are the fields of a struct, one after the other. -/
theorem Reader.fields_local (hflag : rd'.flag = rd.flag) :
    ∀ (fs : List Field), (∀ f ∈ fs, ∀ off s k, rd'.elem off s k f.elem = rd.elem off s k f.elem) →
      rd'.fields fs = rd.fields fs := by
  intro fs
  induction fs with
  | nil => intro _; rfl
  | cons f fs ih =>
    intro h
    simp only [Reader.fields, Reader.field_local hflag (h f (List.mem_cons_self ..)),
      ih fun g hg => h g (List.mem_cons_of_mem _ hg)]

/-- Readers that differ in elements of other types only. -/
theorem Reader.type_local {t : TypeDef} (hflag : rd'.flag = rd.flag) (htag : rd'.tag = rd.tag)
    (hunknown : rd'.unknownTag = rd.unknownTag)
    (h : ∀ e ∈ t.references, ∀ off s k, rd'.elem off s k e = rd.elem off s k e) :
    rd'.type t = rd.type t := by
  cases t with
  | struct s =>
    simp only [Reader.type, Reader.fields_local hflag s.fields fun f hf =>
      h _ (field_mem_references hf)]
  | union u =>
    simp only [Reader.type, htag, hunknown]
    refine congrArg _ (funext fun tag => ?_)
    cases hw : u.variants[tag]? with
    | none => rfl
    | some w => simp only [h _ (variant_mem_references hw)]

end Read

/-! ## Packed types -/

section Packed

variable (L : PackLang)

/-- The packed encoder of a type calls those of the types it embeds. -/
theorem pack_local : Local TypeDef.embeds fun env t buf base v =>
    L.packBody env (L.add base) t buf v := by
  intro t env env' h
  have hsame := sameNested h
  funext buf base v
  simp only [PackLang.packBody]
  cases hws : writes t v with
  | none => rfl
  | some ws =>
    refine foldlM_writes_local (fun w buf hw => ?_) hws buf
    cases w with
    | elem off s k e x =>
      simp only [PackLang.packWrite]
      refine congrArg _ (funext fun o => ?_)
      split
      next hn => rw [hsame e (hw off s k e x rfl) hn]
      next => rfl
    | _ => rfl

/-- The packed decoder of a type calls those of the types it embeds. -/
theorem unpack_local : Local TypeDef.embeds fun env t buf base =>
    (L.reader env (L.add base) buf).type t := by
  intro t env env' h
  have hsame := sameNested h
  funext buf base
  refine Reader.type_local rfl rfl rfl fun e he off s k => ?_
  simp only [PackLang.reader]
  refine congrArg _ (funext fun o => ?_)
  split
  next hn => rw [hsame e he hn]
  next => rfl

end Packed

/-! ## Aligned types -/

section Aligned

variable (L : AlignLang)

/-- What the running offset grows by depends on the size of the field's own type. -/
def AlignLang.AdvancesLocally : Prop :=
  ∀ f wire wire', (f.elem.isNested = true → wire' f.elem.type = wire f.elem.type) →
    L.advance wire' f = L.advance wire f

/-- Rust moves its offset by the `WIRE_SIZE` of the nested type. -/
theorem Rust.alignLang_advancesLocally : Rust.alignLang.AdvancesLocally := by
  intro f wire wire' h
  simp only [Rust.alignLang]
  by_cases hn : f.elem.isNested = true
  · rw [h hn]
  · simp only [if_neg hn]

/-- So does TypeScript. -/
theorem TypeScript.alignLang_advancesLocally (js : Rat → Rat) :
    (TypeScript.alignLang js).AdvancesLocally := by
  intro f wire wire' h
  simp only [TypeScript.alignLang]
  by_cases hn : f.elem.isNested = true
  · rw [h hn]
  · simp only [if_neg hn]

/-- A statement of the encoder calls at most the encoder of the type it refers to. -/
theorem storeWrite_local {nested nested' : String → List UInt8 → Nat → Value → Option (List UInt8)}
    {t : TypeDef} (h : ∀ e ∈ t.references, SameNested nested nested' e)
    (offset : Nat → Option Nat) {w : Write} (buf : List UInt8)
    (hw : ∀ off s k e v, w = .elem off s k e v → e ∈ t.references) :
    L.storeWrite nested' offset buf w = L.storeWrite nested offset buf w := by
  cases w with
  | elem off s k e x =>
    simp only [AlignLang.storeWrite]
    refine congrArg _ (funext fun o => ?_)
    split
    next hn => rw [h e (hw off s k e x rfl) hn]
    next => rfl
  | _ => rfl

/-- The encoder in place calls those of the types it embeds. -/
theorem encodeAt_local : Local TypeDef.embeds (fun env t buf base v => do
    let ws ← writes t v
    ws.foldlM (L.storeWrite env (L.add base)) buf) := by
  intro t env env' h
  funext buf base v
  beta_reduce
  cases hws : writes t v with
  | none => rfl
  | some ws =>
    exact foldlM_writes_local (fun w buf hw => storeWrite_local L (sameNested h) _ buf hw) hws buf

/-- A running offset depends on how far each field moves it. -/
theorem placeFields_local {advance advance' : Field → Option Nat} :
    ∀ (fs : List Field) (offset : Nat), (∀ f ∈ fs, advance' f = advance f) →
      AlignLang.placeFields advance' offset fs = AlignLang.placeFields advance offset fs := by
  intro fs
  induction fs with
  | nil => intro offset _; rfl
  | cons f fs ih =>
    intro offset h
    simp only [AlignLang.placeFields, h f (List.mem_cons_self ..),
      fun o => ih o fun g hg => h g (List.mem_cons_of_mem _ hg)]

/-- Placing the fields changes their offsets and nothing else. -/
theorem placeFields_elem {advance : Field → Option Nat} :
    ∀ (fs : List Field) {offset : Nat} {placed : List Field},
      AlignLang.placeFields advance offset fs = some placed →
      placed.map Field.elem = fs.map Field.elem := by
  intro fs
  induction fs with
  | nil =>
    intro offset placed h
    cases h
    rfl
  | cons f fs ih =>
    intro offset placed h
    simp only [AlignLang.placeFields, Option.bind_eq_bind, Option.bind_eq_some_iff, Option.pure_def,
      Option.some.injEq] at h
    obtain ⟨n, -, rest, hrest, rfl⟩ := h
    rw [List.map_cons, List.map_cons, ih hrest]

/-- A placed type refers to what the type refers to. -/
theorem place_references {advance : Field → Option Nat} {t placed : TypeDef}
    (h : AlignLang.place advance t = some placed) : placed.references = t.references := by
  cases t with
  | struct s =>
    simp only [AlignLang.place, Option.bind_eq_bind, Option.bind_eq_some_iff, Option.pure_def,
      Option.some.injEq] at h
    obtain ⟨fields, hfields, rfl⟩ := h
    exact placeFields_elem s.fields hfields
  | union u =>
    cases h
    rfl

/-- The same for a type; a union has no running offset. -/
theorem place_local {advance advance' : Field → Option Nat} {t : TypeDef}
    (h : ∀ s, t = .struct s → ∀ f ∈ s.fields, advance' f = advance f) :
    AlignLang.place advance' t = AlignLang.place advance t := by
  cases t with
  | struct s => simp only [AlignLang.place, placeFields_local s.fields 0 (h s rfl)]
  | union u => rfl

/-- The copying encoder knows of a nested type its size and its bytes. -/
theorem encoder_local (hL : L.AdvancesLocally) :
    Local TypeDef.embeds fun (env : String → Nat × (Value → Option (List UInt8))) t =>
      (t.wireSize, fun v => do
        let placed ← AlignLang.place (L.advance fun m => (env m).1) t
        let ws ← writes placed v
        ws.foldlM (L.storeWrite (fun m => AlignLang.copyNested (env m).2) L.running)
          (zeros t.wireSize)) := by
  intro t env env' h
  have hsame := sameNested h
  have hplace : AlignLang.place (L.advance fun m => (env' m).1) t
      = AlignLang.place (L.advance fun m => (env m).1) t := by
    refine place_local fun s hs f hf => hL f _ _ fun hn => ?_
    subst hs
    rw [hsame _ (field_mem_references hf) hn]
  refine Prod.ext rfl (funext fun v => ?_)
  simp only [hplace]
  cases hp : AlignLang.place (L.advance fun m => (env m).1) t with
  | none => rfl
  | some placed =>
    simp only [Option.bind_eq_bind, Option.bind_some]
    cases hws : writes placed v with
    | none => rfl
    | some ws =>
      refine foldlM_writes_local (fun w buf hw => storeWrite_local L (fun e he hn => ?_) _ buf hw)
        hws _
      rw [place_references hp] at he
      simp only [hsame e he hn]

/-- The decoder in place calls those of the types it embeds. -/
theorem decodeAt_local (D : AlignDecoder) : Local TypeDef.embeds fun env t buf base =>
    (D.reader env (D.add base) buf).type t := by
  intro t env env' h
  have hsame := sameNested h
  funext buf base
  refine Reader.type_local rfl rfl rfl fun e he off s k => ?_
  simp only [AlignDecoder.reader]
  refine congrArg _ (funext fun o => ?_)
  split
  next hn => rw [hsame e he hn]
  next => rfl

end Aligned

/-! ## The aligned decoders of Rust and TypeScript -/

namespace Rust

variable (fromUtf8Lossy : List UInt8 → List UInt8) {env env' : String → Decoder} {buf : List UInt8}

/-- The default of an element is that of its type. -/
theorem defaultElem_local {dflt dflt' : String → Option Value} {e : Elem}
    (h : SameNested dflt dflt' e) : defaultElem dflt' e = defaultElem dflt e := by
  unfold defaultElem
  split
  next hn => rw [h hn]
  next => rfl

/-- The derived default of a struct is made of those of its fields. -/
theorem defaultType_local {dflt dflt' : String → Option Value} {t : TypeDef}
    (h : ∀ e ∈ t.references, SameNested dflt dflt' e) :
    defaultType dflt' t = defaultType dflt t := by
  cases t with
  | struct s =>
    have hfields : ∀ fs : List Field, (∀ f ∈ fs, SameNested dflt dflt' f.elem) →
        fs.mapM (defaultField dflt') = fs.mapM (defaultField dflt) := by
      intro fs
      induction fs with
      | nil => intro _; rfl
      | cons f fs ih =>
        intro hfs
        have hf : defaultField dflt' f = defaultField dflt f := by
          simp only [defaultField, defaultElem_local (hfs f (List.mem_cons_self ..))]
        rw [List.mapM_cons, List.mapM_cons, hf, ih fun g hg => hfs g (List.mem_cons_of_mem _ hg)]
    simp only [defaultType, hfields s.fields fun f hf => h _ (field_mem_references hf)]
  | union u => rfl

/-- `T::decode` of an element calls that of the nested type, if it is one. -/
theorem alignedElem_local {e : Elem} (h : SameNested env env' e) (off : Nat) :
    alignedElem env' buf e off = alignedElem env buf e off := by
  unfold alignedElem
  split
  next hn => rw [h hn]
  next => rfl

/-- An array is decoded element by element. -/
theorem alignedArray_local {e : Elem} (h : SameNested env env' e) (base : Nat) :
    ∀ n i, alignedArray env' buf e base n i = alignedArray env buf e base n i := by
  intro n
  induction n with
  | zero => intro i; rfl
  | succ n ih => intro i; simp only [alignedArray, alignedElem_local h, ih]

/-- An absent optional calls nothing, any other field its element. -/
theorem alignedField_local {f : Field} (h : SameNested env env' f.elem) (off : Nat) :
    alignedField fromUtf8Lossy env' buf f off = alignedField fromUtf8Lossy env buf f off := by
  have hscalar : alignedScalar fromUtf8Lossy env' buf f off
      = alignedScalar fromUtf8Lossy env buf f off := by
    unfold alignedScalar
    split
    next hn => rw [h hn]
    next => rfl
  unfold alignedField
  simp only [alignedArray_local h, alignedElem_local h, hscalar]

/-- The running offset behind a field is part of what its decoder returns. -/
theorem alignedFields_local :
    ∀ (fs : List Field), (∀ f ∈ fs, SameNested env env' f.elem) → ∀ off,
      alignedFields fromUtf8Lossy env' buf off fs = alignedFields fromUtf8Lossy env buf off fs := by
  intro fs
  induction fs with
  | nil => intro _ off; rfl
  | cons f fs ih =>
    intro h off
    have hf := h f (List.mem_cons_self ..)
    have hadvance : alignLang.advance (fun m => (env' m).wireSize) f
        = alignLang.advance (fun m => (env m).wireSize) f :=
      alignLang_advancesLocally f _ _ fun hn => by rw [hf hn]
    simp only [alignedFields, alignedField_local fromUtf8Lossy hf, hadvance,
      ih fun g hg => h g (List.mem_cons_of_mem _ hg)]

/-- The aligned decoder of Rust calls those of the types it embeds, and asks for their sizes and
defaults. -/
theorem alignedDecoder_local : Local TypeDef.embeds fun env t =>
    ({ wireSize := t.wireSize
       default := defaultType (fun m => (env m).default) t
       decode := fun buf => if buf.length < t.wireSize then some none
         else alignedType fromUtf8Lossy env buf t } : Decoder) := by
  intro t env env' h
  have hsame := sameNested h
  have hdefault : defaultType (fun m => (env' m).default) t
      = defaultType (fun m => (env m).default) t :=
    defaultType_local fun e he hn => congrArg Decoder.default (hsame e he hn)
  have htype : ∀ buf, alignedType fromUtf8Lossy env' buf t
      = alignedType fromUtf8Lossy env buf t := by
    intro buf
    cases t with
    | struct s =>
      simp only [alignedType, alignedFields_local fromUtf8Lossy s.fields fun f hf =>
        hsame _ (field_mem_references hf)]
    | union u => simp only [alignedType, hdefault]
  simp only [hdefault, htype]

end Rust

namespace TypeScript

variable (js : Rat → Rat) {env env' : String → Decoder} {buf : List UInt8}

/-- `decode*` of an element calls that of the nested type, if it is one. -/
theorem alignedElem_local {e : Elem} (h : SameNested env env' e) (off : Nat) :
    alignedElem js env' buf e off = alignedElem js env buf e off := by
  unfold alignedElem
  split
  next hn => rw [h hn]
  next => rfl

/-- An array is decoded element by element. -/
theorem alignedArray_local {e : Elem} (h : SameNested env env' e) (base : Nat) :
    ∀ n i, alignedArray js env' buf e base n i = alignedArray js env buf e base n i := by
  intro n
  induction n with
  | zero => intro i; rfl
  | succ n ih => intro i; simp only [alignedArray, alignedElem_local js h, ih]

/-- An absent optional calls nothing, any other field its element. -/
theorem alignedField_local {f : Field} (h : SameNested env env' f.elem) (off : Nat) :
    alignedField js env' buf f off = alignedField js env buf f off := by
  unfold alignedField
  simp only [alignedArray_local js h, alignedElem_local js h]
  split
  · rfl
  · split
    · rfl
    · split
      next hn => rw [h hn]
      next => rfl

/-- The fields of a struct, with the running offset between them. -/
theorem alignedFields_local :
    ∀ (fs : List Field), (∀ f ∈ fs, SameNested env env' f.elem) → ∀ off,
      alignedFields js env' buf off fs = alignedFields js env buf off fs := by
  intro fs
  induction fs with
  | nil => intro _ off; rfl
  | cons f fs ih =>
    intro h off
    have hf := h f (List.mem_cons_self ..)
    have hadvance : (alignLang js).advance (fun m => (env' m).wireSize) f
        = (alignLang js).advance (fun m => (env m).wireSize) f :=
      alignLang_advancesLocally js f _ _ fun hn => by rw [hf hn]
    simp only [alignedFields, alignedField_local js hf, hadvance,
      ih fun g hg => h g (List.mem_cons_of_mem _ hg)]

/-- The aligned decoder of TypeScript calls those of the types it embeds. -/
theorem alignedDecoder_local : Local TypeDef.embeds fun env t =>
    (⟨t.wireSize, fun buf => alignedType js env buf t⟩ : Decoder) := by
  intro t env env' h
  have hsame := sameNested h
  have htype : ∀ buf, alignedType js env' buf t = alignedType js env buf t := by
    intro buf
    cases t with
    | struct s =>
      simp only [alignedType, alignedFields_local js s.fields fun f hf =>
        hsame _ (field_mem_references hf)]
    | union u => rfl
  simp only [htype]

end TypeScript

/-! ## Versions -/

section Versions

variable {rnd : Rat → Rat} {ctx ctx' : Context} {S : Set String} {scope scope' : Scope}
  {name : String} {t : TypeDef}

/-- A recursion of the templates whose body is local gives the same code. -/
theorem resolve_same {β : Type} {undefined : β} {body : (String → β) → TypeDef → β}
    (hbody : Local TypeDef.embeds body) (h : Agree TypeDef.embeds S scope scope')
    (hd : Tied TypeDef.embeds scope) (hd' : Tied TypeDef.embeds scope') (hn : name ∈ S) :
    resolve undefined body scope' name = resolve undefined body scope name := by
  rw [resolve_eq, resolve_eq]
  exact h.meaning_eq hd hd' hbody name hn

/-- The packed encoder is the helper at base 0. -/
theorem PackLang.encode_eq {L : PackLang} (hL : L.Lawful) (hacc : scope.Accepted rnd ctx)
    (ht : scope.lookup name = some t) (v : Value) :
    L.encode scope name v = L.pack scope name (List.replicate t.wireSize 0) 0 v := by
  unfold PackLang.encode
  rw [ht, Option.bind_eq_bind, Option.bind_some]
  split
  next hflat => exact encode_eq_pack hL scope scope name t ht hacc hflat _ v
  next => rfl

/-- With or without a helper, the packed decoder of a type is its body at offset 0. -/
theorem PackLang.decode_eq {L : PackLang} (hL : L.Lawful) (hacc : scope.Accepted rnd ctx)
    (ht : scope.lookup name = some t) (buf : List UInt8) :
    L.decode scope name buf = L.unpack scope name buf 0 := by
  unfold PackLang.decode
  rw [ht, Option.bind_eq_bind, Option.bind_some]
  split
  next hflat => exact decode_eq_unpack hL scope scope name t ht hacc hflat buf
  next => rfl

/-- C's aligned encoder is the one in place at base 0, below the bound of its offset. -/
theorem AlignLang.encodeInPlace_eq {L : AlignLang} {bound : Nat} (hL : L.Advances)
    (hrun : ∀ off, off < bound → L.running off = L.add 0 off) (hacc : scope.Accepted rnd ctx)
    (ht : scope.lookup name = some t) (hpk : t.isPacked = false) (hstr : TypeDef.StringsSized t)
    (hlim : t.total < bound) (v : Value) :
    L.encodeInPlace scope name v = L.encodeAt scope name (zeros t.wireSize) 0 v := by
  unfold AlignLang.encodeInPlace
  rw [ht, Option.bind_eq_bind, Option.bind_some]
  split
  next hflat => exact encodeFlat_eq hL hrun scope scope name t ht hacc hstr hpk hlim hflat _ v
  next => rfl

/-- With or without a helper, the aligned decoder of a type is its body at offset 0. -/
theorem AlignDecoder.decodeInPlace_eq {D : AlignDecoder} {bound : Nat} (hL : D.Advances)
    (hrun : ∀ off, off < bound → D.running off = D.add 0 off) (hacc : scope.Accepted rnd ctx)
    (ht : scope.lookup name = some t) (hpk : t.isPacked = false) (hstr : TypeDef.StringsSized t)
    (hlim : t.total < bound) (buf : List UInt8) :
    D.decodeInPlace scope name buf = D.decodeAt scope name buf 0 := by
  unfold AlignDecoder.decodeInPlace
  rw [ht, Option.bind_eq_bind, Option.bind_some]
  split
  next hflat => exact decodeFlat_eq hL hrun scope scope name t ht hacc hstr hpk hlim hflat buf
  next => rfl

/-- Two accepted scopes that agree on names closed under reference. -/
structure SameTypes (rnd : Rat → Rat) (ctx ctx' : Context) (S : Set String) (scope scope' : Scope) :
    Prop where
  agree : Agree TypeDef.embeds S scope scope'
  accepted : scope.Accepted rnd ctx
  accepted' : scope'.Accepted rnd ctx'
  tied : Tied TypeDef.embeds scope
  tied' : Tied TypeDef.embeds scope'

namespace SameTypes

variable (h : SameTypes rnd ctx ctx' S scope scope') (hn : name ∈ S)
  (ht : scope.lookup name = some t)

include h hn

/-- What is local has one meaning under a name of both scopes. -/
theorem resolve {β : Type} {undefined : β} {body : (String → β) → TypeDef → β}
    (hbody : Local TypeDef.embeds body) :
    Codec.resolve undefined body scope' name = Codec.resolve undefined body scope name :=
  resolve_same hbody h.agree h.tied h.tied' hn

include ht

/-- The name is in the other scope as well, with the same type. -/
theorem lookup' : scope'.lookup name = some t := (h.agree.same name hn).trans ht

/-- The packed code under the name is the same in both scopes. -/
theorem packed {L : PackLang} (hL : L.Lawful) :
    L.encode scope' name = L.encode scope name ∧ L.decode scope' name = L.decode scope name := by
  have ht' := h.lookup' hn ht
  constructor
  · funext v
    rw [PackLang.encode_eq hL h.accepted ht, PackLang.encode_eq hL h.accepted' ht', PackLang.pack,
      h.resolve hn (pack_local L)]
  · funext buf
    rw [PackLang.decode_eq hL h.accepted ht, PackLang.decode_eq hL h.accepted' ht',
      PackLang.unpack, h.resolve hn (unpack_local L)]

/-- The aligned code in place is the same in both scopes. -/
theorem inPlace {D : AlignDecoder} {bound : Nat} (hL : D.Advances)
    (hrun : ∀ off, off < bound → D.running off = D.add 0 off) (hpk : t.isPacked = false)
    (hstr : TypeDef.StringsSized t) (hlim : t.total < bound) :
    D.encodeInPlace scope' name = D.encodeInPlace scope name ∧
      D.decodeInPlace scope' name = D.decodeInPlace scope name := by
  have ht' := h.lookup' hn ht
  constructor
  · funext v
    rw [AlignLang.encodeInPlace_eq hL hrun h.accepted ht hpk hstr hlim,
      AlignLang.encodeInPlace_eq hL hrun h.accepted' ht' hpk hstr hlim, AlignLang.encodeAt,
      h.resolve hn (encodeAt_local _)]
  · funext buf
    rw [AlignDecoder.decodeInPlace_eq hL hrun h.accepted ht hpk hstr hlim,
      AlignDecoder.decodeInPlace_eq hL hrun h.accepted' ht' hpk hstr hlim, AlignDecoder.decodeAt,
      h.resolve hn (decodeAt_local D)]

omit ht in
/-- The copying encoder is the same in both scopes. -/
theorem copied {L : AlignLang} (hL : L.AdvancesLocally) :
    L.encodeCopied scope' name = L.encodeCopied scope name := by
  funext v
  rw [AlignLang.encodeCopied, AlignLang.encodeCopied, AlignLang.encoder,
    h.resolve hn (encoder_local L hL)]

end SameTypes

/-- The code of a type is the same: what is written of every value, and what is read from every
buffer. -/
structure SameCode (cfl : C.FloatExprs) (rfl' : Rust.FloatExprs) (js : Rat → Rat)
    (scope scope' : Scope) (name : String) : Prop where
  c_encode : C.encode cfl scope' name = C.encode cfl scope name
  c_decode : C.decode cfl scope' name = C.decode cfl scope name
  rust_encode : Rust.encodeOf rfl' scope' name = Rust.encodeOf rfl' scope name
  rust_decode : Rust.decodeOf rfl' fromUtf8Lossy scope' name
    = Rust.decodeOf rfl' fromUtf8Lossy scope name
  ts_encode : TypeScript.encodeOf js scope' name = TypeScript.encodeOf js scope name
  ts_decode : TypeScript.decodeOf js scope' name = TypeScript.decodeOf js scope name

variable {cfl : C.FloatExprs} {rfl' : Rust.FloatExprs} {js : Rat → Rat}

/-- A packed type has the same code in all three languages. -/
theorem SameTypes.packed_code (h : SameTypes rnd ctx ctx' S scope scope') (hn : name ∈ S)
    (ht : scope.lookup name = some t) (hpk : t.isPacked = true) :
    SameCode cfl rfl' js scope scope' name := by
  have ht' := h.lookup' hn ht
  obtain ⟨hcenc, hcdec⟩ := h.packed hn ht (@C.lang_lawful cfl)
  obtain ⟨hrenc, hrdec⟩ := h.packed hn ht (@Rust.lang_lawful rfl')
  obtain ⟨htenc, htdec⟩ := h.packed hn ht (@TypeScript.lang_lawful js)
  constructor
  all_goals funext x
  · simp only [C.encode, ht, ht', Option.bind_eq_bind, Option.bind_some, if_pos hpk, hcenc]
  · simp only [C.decode, ht, ht', Option.bind_eq_bind, Option.bind_some, if_pos hpk, hcdec]
  · simp only [Rust.encodeOf, ht, ht', Option.bind_eq_bind, Option.bind_some, if_pos hpk, hrenc]
  · simp only [Rust.decodeOf, Rust.decode, ht, ht', Option.bind_eq_bind, Option.bind_some,
      if_pos hpk, hrdec]
  · simp only [TypeScript.encodeOf, ht, ht', Option.bind_eq_bind, Option.bind_some, if_pos hpk,
      htenc]
  · simp only [TypeScript.decodeOf, ht, ht', Option.bind_eq_bind, Option.bind_some, if_pos hpk,
      htdec]

/-- So has an aligned one of less than `2 ^ 32` bytes. -/
theorem SameTypes.aligned_code (h : SameTypes rnd ctx ctx' S scope scope') (hn : name ∈ S)
    (ht : scope.lookup name = some t) (hpk : t.isPacked = false) (hstr : TypeDef.StringsSized t)
    (hlim : t.total < 4294967296) : SameCode cfl rfl' js scope scope' name := by
  have ht' := h.lookup' hn ht
  have hno : ¬ t.isPacked = true := by rw [hpk]; exact Bool.false_ne_true
  obtain ⟨hcenc, hcdec⟩ := @inPlace _ _ _ _ _ _ _ _ h hn ht (C.alignDecoder cfl) _
    C.alignLang_advances C.alignLang_running hpk hstr hlim
  constructor
  all_goals funext x
  · simp only [C.encode, ht, ht', Option.bind_eq_bind, Option.bind_some, if_neg hno]
    exact congrFun hcenc x
  · simp only [C.decode, ht, ht', Option.bind_eq_bind, Option.bind_some, if_neg hno, hcdec]
  · simp only [Rust.encodeOf, ht, ht', Option.bind_eq_bind, Option.bind_some, if_neg hno,
      h.copied hn Rust.alignLang_advancesLocally]
  · simp only [Rust.decodeOf, ht, ht', Option.bind_eq_bind, Option.bind_some, if_neg hno,
      Rust.alignedDecoder, h.resolve hn (Rust.alignedDecoder_local fromUtf8Lossy)]
  · simp only [TypeScript.encodeOf, ht, ht', Option.bind_eq_bind, Option.bind_some, if_neg hno,
      h.copied hn (TypeScript.alignLang_advancesLocally js)]
  · simp only [TypeScript.decodeOf, ht, ht', Option.bind_eq_bind, Option.bind_some, if_neg hno,
      TypeScript.alignedDecoder, h.resolve hn (TypeScript.alignedDecoder_local js)]

/-- Either encoding: a name of both versions has the same code. -/
theorem SameTypes.code (h : SameTypes rnd ctx ctx' S scope scope') (hn : name ∈ S)
    (haligned : ∀ t ∈ scope.lookup name, t.isPacked = false →
      TypeDef.StringsSized t ∧ t.total < 4294967296) :
    SameCode cfl rfl' js scope scope' name := by
  cases ht : scope.lookup name with
  | none =>
    -- neither scope has the type
    have ht' := (h.agree.same name hn).trans ht
    constructor
    all_goals funext x
    all_goals simp only [C.encode, C.decode, Rust.encodeOf, Rust.decodeOf, TypeScript.encodeOf,
      TypeScript.decodeOf, ht, ht', Option.bind_eq_bind, Option.bind_none]
  | some t =>
    cases hpk : t.isPacked with
    | true => exact h.packed_code hn ht hpk
    | false =>
      obtain ⟨hstr, hlim⟩ := haligned t ht hpk
      exact h.aligned_code hn ht hpk hstr hlim

variable {old new : SchemaDecl} {data data' : Data}

/-- Versions that agree on names have the same types under them, so all of the above holds. -/
theorem sameTypes_of_agrees (hagree : old.Agrees S new) (hp : processSchema rnd old = .ok data)
    (hv : validateSchema rnd data = []) (hp' : processSchema rnd new = .ok data')
    (hv' : validateSchema rnd data' = []) :
    ∃ ctx ctx', SameTypes rnd ctx ctx' S data.types data'.types := by
  obtain ⟨ctx, hacc⟩ := accepted hp hv
  obtain ⟨ctx', hacc'⟩ := accepted hp' hv'
  exact ⟨ctx, ctx', hagree.types hp hp', hacc.types, hacc'.types, processSchema_tied hp hv,
    processSchema_tied hp' hv'⟩

/-- **The code of a type is a matter of what it refers to.** Two versions of a schema that agree
on names closed under reference have the same types under these names, and in all three
languages the code of each of them writes the same bytes for every value and makes the same of
every buffer, whatever else the two versions declare, and in whatever order. Aligned types are
smaller than `2 ^ 32` bytes, and their strings have a `max_length`. -/
theorem code_same (hagree : old.Agrees S new) (hp : processSchema rnd old = .ok data)
    (hv : validateSchema rnd data = []) (hp' : processSchema rnd new = .ok data')
    (hv' : validateSchema rnd data' = []) (hn : name ∈ S)
    (haligned : ∀ t ∈ data.types.lookup name, t.isPacked = false →
      TypeDef.StringsSized t ∧ t.total < 4294967296) :
    data'.types.lookup name = data.types.lookup name ∧
      SameCode cfl rfl' js data.types data'.types name := by
  obtain ⟨ctx, ctx', h⟩ := sameTypes_of_agrees hagree hp hv hp' hv'
  exact ⟨h.agree.same name hn, h.code hn haligned⟩

/-- The rooms of a building: `aligned` has become the default, and a fan is declared last. -/
def building : SchemaDecl where
  defaultEncoding := some "aligned"
  enums := [("Door", { variants := [.plain "SHUT", .plain "OPEN"] }),
    ("FanCmd", { remap := true, variants := [.valued "OFF" 0, .valued "LOW" 1, .valued "HIGH" 2,
      .valued "AUTO" 9] })]
  structs :=
    [("Floor", { fields := [{ name := "rooms", type := "Room", count := some 3 },
        { name := "door", type := "Door" }] }),
      ("Room", { fields :=
        [{ name := "name", type := "string", maxLength := some 4 },
          { name := "fans", type := "Fan", count := some 2 },
          { name := "spare", type := "Fan", optional := true }] }),
      ("Fan", { encoding := some "aligned", fields :=
        [{ name := "cmd", type := "FanCmd" },
          { name := "speed", type := "uint16", scale := some (.int 10) }] })]

def buildingData : Data := processed building

theorem building_ok : processSchema id building = .ok buildingData := rfl

theorem building_valid : validateSchema id buildingData = [] := by decide +kernel

theorem climate_agrees :
    climate.Agrees {n | n ∈ ["FanCmd", "uint16", "string", "Fan", "Room"]} building where
  same := show ∀ n ∈ ["FanCmd", "uint16", "string", "Fan", "Room"], _ by decide +kernel
  closed := show ∀ n ∈ ["FanCmd", "uint16", "string", "Fan", "Room"],
    ∀ t ∈ (climate.declares n).types,
    t ∈ ["FanCmd", "uint16", "string", "Fan", "Room"] by decide +kernel

/-- The room of two versions of a building. -/
theorem code_same_building :
    buildingData.types.lookup "Room" = climateData.types.lookup "Room" ∧
      SameCode C.noFloats Rust.noFloats id climateData.types buildingData.types "Room" := by
  refine code_same climate_agrees climate_ok climate_valid building_ok building_valid
    (show "Room" ∈ ["FanCmd", "uint16", "string", "Fan", "Room"] by decide) fun t ht _ => ?_
  cases ht
  decide +kernel

end Versions

end ProtoEmb.Codec

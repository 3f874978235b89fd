import ProtoEmb.Lib.Definitions
import ProtoEmb.Schema.TopoSort

/-!
# Versions of a schema

What `process_schema` makes of a type depends on its declaration and on those of the types it
refers to, directly or through others, and on nothing else in the schema: neither the other
declarations, nor the order they stand in, nor whether an encoding is written down or is the
default. So two versions of a schema that agree on names closed under reference have the same
types under these names (`SchemaDecl.Agrees.types`).

The reason is that `topo_sort_types` puts every type behind those it embeds and none twice
(`Processed.built`): the types are a table of definitions over one another.
-/

namespace ProtoEmb.Schema

open ProtoEmb.Lib ProtoEmb.Lib.Definitions

/-! ## Agreement -/

/-- What a schema declares under a name: an enum, and the fields of a struct or the variants of a
union with the encoding they are laid out in. -/
structure Declaration where
  enum : Option EnumDecl
  struct : Option (String × List FieldDecl)
  union : Option (String × List FieldDecl)
  deriving DecidableEq

/-- The types that a declaration refers to. -/
def Declaration.types (d : Declaration) : List String :=
  (d.struct.elim [] fun s => s.2.map FieldDecl.type) ++
    d.union.elim [] fun u => u.2.map FieldDecl.type

/-- The encoding that is written down, the schema's default, or `packed`. -/
def SchemaDecl.encoding (schema : SchemaDecl) (encoding : Option String) : String :=
  encoding.getD (schema.defaultEncoding.getD "packed")

/-- What a schema says of a name. -/
def SchemaDecl.declares (schema : SchemaDecl) (name : String) : Declaration where
  enum := schema.enums.lookup name
  struct := (schema.structs.lookup name).map fun d => (schema.encoding d.encoding, d.fields)
  union := (schema.unions.lookup name).map fun d => (schema.encoding d.encoding, d.variants)

/-- Two versions of a schema declare the same under the names in `S`, and these refer to names in
`S` only. -/
structure SchemaDecl.Agrees (S : Set String) (old new : SchemaDecl) : Prop where
  same : ∀ n ∈ S, new.declares n = old.declares n
  closed : ∀ n ∈ S, ∀ t ∈ (old.declares n).types, t ∈ S

/-- The names of the context that `process_schema` looks up mean the same in both. -/
structure Context.Agrees (S : Set String) (ctx ctx' : Context) : Prop where
  enums : ∀ n ∈ S, ctx'.enums.lookup n = ctx.enums.lookup n
  enumDefs : ∀ n ∈ S, ctx'.enumDefs.lookup n = ctx.enumDefs.lookup n
  structs : ∀ n ∈ S, (ctx'.structs.lookup n).isSome = (ctx.structs.lookup n).isSome
  unions : ∀ n ∈ S, (ctx'.unions.lookup n).isSome = (ctx.unions.lookup n).isSome

/-! ## One type in two contexts -/

section Same

variable {rnd : Rat → Rat} {S : Set String} {ctx ctx' : Context} {scope scope' : Scope}
  {name encoding : String} {isPacked : Bool}

/-- A type that is found in both scopes is the same. -/
def SameChildren (S : Set String) (scope scope' : Scope) : Prop :=
  ∀ m ∈ S, ∀ t t', scope.lookup m = some t → scope'.lookup m = some t' → t' = t

/-- A nested type is found in the scope. -/
theorem child_eq_ok {isStruct : Bool} {type : String} {t : TypeDef}
    (h : scope.child isStruct type = .ok t) : scope.lookup type = some t := by
  unfold Scope.child at h
  split at h
  next t' ht' =>
    split at h
    · cases h
      exact ht'
    · cases h
  next => cases h

/-- Scopes that agree on a name embed the same type for it. -/
theorem SameChildren.child (h : SameChildren S scope scope') {type : String} (hS : type ∈ S)
    (isStruct : Bool) : Consistent (scope.child isStruct type) (scope'.child isStruct type) :=
  fun t t' ht ht' => h type hS t t' (child_eq_ok ht) (child_eq_ok ht')

/-- A field is enriched by what is declared of its type. -/
theorem Context.Agrees.enrich (h : ctx.Agrees S ctx') {f : FieldDecl} (hf : f.type ∈ S)
    (raw : Bool) (size : Nat) : ctx'.enrich rnd f raw size = ctx.enrich rnd f raw size := by
  simp only [Context.enrich, h.enums _ hf, h.enumDefs _ hf, h.structs _ hf, h.unions _ hf]

/-- So are its bits computed. -/
theorem Context.Agrees.computeFieldBits (h : ctx.Agrees S ctx') {f : FieldDecl}
    (hf : f.type ∈ S) :
    computeFieldBits rnd f ctx'.enums = Schema.computeFieldBits rnd f ctx.enums := by
  simp only [Schema.computeFieldBits, h.enums _ hf]

/-- An element of the two versions has one size, where both have one. -/
theorem Context.Agrees.elemSize (h : ctx.Agrees S ctx') (hscope : SameChildren S scope scope')
    {f : FieldDecl} (hf : f.type ∈ S) :
    Consistent (ctx.elemSize rnd scope name encoding isPacked f)
      (ctx'.elemSize rnd scope' name encoding isPacked f) := by
  unfold Context.elemSize
  simp only [h.structs _ hf, h.unions _ hf, h.enums _ hf, h.computeFieldBits hf]
  split
  · exact (hscope.child hf _).bind fun child _ => .of_eq rfl
  · exact .of_eq rfl

/-- A field of the two versions is one field. -/
theorem Context.Agrees.processField (h : ctx.Agrees S ctx') (hscope : SameChildren S scope scope')
    {f : FieldDecl} (hf : f.type ∈ S) (offset : Nat) :
    Consistent (ctx.processField rnd scope name encoding isPacked offset f)
      (ctx'.processField rnd scope' name encoding isPacked offset f) := by
  refine (h.elemSize hscope hf).bind fun size _ => .of_eq ?_
  simp only [h.enrich hf]

/-- And so are the fields of a struct. -/
theorem Context.Agrees.processFields (h : ctx.Agrees S ctx')
    (hscope : SameChildren S scope scope') :
    ∀ (fs : List FieldDecl), (∀ f ∈ fs, f.type ∈ S) → ∀ offset,
      Consistent (ctx.processFields rnd scope name encoding isPacked offset fs)
        (ctx'.processFields rnd scope' name encoding isPacked offset fs) := by
  intro fs
  induction fs with
  | nil => intro _ offset; exact .of_eq rfl
  | cons f fs ih =>
    intro hfs offset
    unfold Context.processFields
    refine (h.processField hscope (hfs f (List.mem_cons_self ..)) offset).bind
      fun field _ => ?_
    exact (ih (fun g hg => hfs g (List.mem_cons_of_mem _ hg)) _).bind fun rest _ => .of_eq rfl

/-- A struct that both declare alike is one struct. -/
theorem Context.Agrees.processStruct (h : ctx.Agrees S ctx') (hscope : SameChildren S scope scope')
    {d d' : StructDecl} (henc : ctx'.encoding d'.encoding = ctx.encoding d.encoding)
    (hfields : d'.fields = d.fields) (hS : ∀ f ∈ d.fields, f.type ∈ S) :
    Consistent (ctx.processStruct rnd scope name d) (ctx'.processStruct rnd scope' name d') := by
  unfold Context.processStruct
  rw [henc, hfields]
  exact (h.processFields hscope d.fields hS 0).bind fun fields _ => .of_eq rfl

/-- A variant has one size. -/
theorem Context.Agrees.variantSize (h : ctx.Agrees S ctx') (hscope : SameChildren S scope scope')
    {v : FieldDecl} (hv : v.type ∈ S) :
    Consistent (ctx.variantSize rnd scope isPacked v) (ctx'.variantSize rnd scope' isPacked v) := by
  unfold Context.variantSize
  simp only [h.structs _ hv, h.enums _ hv, h.computeFieldBits hv]
  split
  · exact (hscope.child hv true).bind fun child _ => .of_eq rfl
  · exact .of_eq rfl

/-- A union that both declare alike is one union. -/
theorem Context.Agrees.enrichUnion (h : ctx.Agrees S ctx') (hscope : SameChildren S scope scope')
    {d d' : UnionDecl} (henc : ctx'.encoding d'.encoding = ctx.encoding d.encoding)
    (hvariants : d'.variants = d.variants) (hS : ∀ v ∈ d.variants, v.type ∈ S) :
    Consistent (ctx.enrichUnion rnd scope name d) (ctx'.enrichUnion rnd scope' name d') := by
  unfold Context.enrichUnion
  rw [henc, hvariants]
  refine Consistent.bind (.mapM _ fun v hv => ?_) fun variants _ => .of_eq rfl
  refine (h.variantSize hscope (hS v hv)).bind fun size _ => .of_eq ?_
  simp only [h.enrich (hS v hv)]

/-- **One type of the same declaration is made into the same**, over scopes that have the types
it refers to in common. -/
theorem Context.Agrees.makes {old new : SchemaDecl} {defs defs' : Dict Enum}
    (hdecl : old.Agrees S new) (h : (old.context defs).Agrees S (new.context defs'))
    (hscope : SameChildren S scope scope') (hname : name ∈ S) {t t' : TypeDef}
    (ht : (old.context defs).Makes rnd scope name t)
    (ht' : (new.context defs').Makes rnd scope' name t') : t' = t := by
  have hsame := hdecl.same name hname
  have hstruct := congrArg Declaration.struct hsame
  have hunion := congrArg Declaration.union hsame
  simp only [SchemaDecl.declares] at hstruct hunion
  have hclosed := hdecl.closed name hname
  cases ht with
  | @union d u hd hu =>
    have hd : old.unions.lookup name = some d := hd
    rw [hd] at hunion
    cases ht' with
    | @union d' u' hd' hu' =>
      have hd' : new.unions.lookup name = some d' := hd'
      rw [hd'] at hunion
      obtain ⟨henc, hvariants⟩ := Prod.mk.inj (Option.some.inj hunion)
      refine congrArg TypeDef.union ?_
      refine h.enrichUnion hscope henc hvariants (fun v hv => hclosed _ ?_) _ _ hu hu'
      simp only [Declaration.types, SchemaDecl.declares, hd, Option.map_some, Option.elim_some]
      exact List.mem_append_right _ (List.mem_map_of_mem hv)
    | struct hnone =>
      have hnone : new.unions.lookup name = none := hnone
      rw [hnone] at hunion
      cases hunion
  | @struct d s hnone hd hs =>
    have hd : old.structs.lookup name = some d := hd
    have hnone : old.unions.lookup name = none := hnone
    rw [hnone] at hunion
    rw [hd] at hstruct
    cases ht' with
    | @union d' u' hd' hu' =>
      have hd' : new.unions.lookup name = some d' := hd'
      rw [hd'] at hunion
      cases hunion
    | @struct d' s' _ hd' hs' =>
      have hd' : new.structs.lookup name = some d' := hd'
      rw [hd'] at hstruct
      obtain ⟨henc, hfields⟩ := Prod.mk.inj (Option.some.inj hstruct)
      refine congrArg TypeDef.struct ?_
      refine h.processStruct hscope henc hfields (fun f hf => hclosed _ ?_) _ _ hs hs'
      simp only [Declaration.types, SchemaDecl.declares, hd, Option.map_some, Option.elim_some]
      exact List.mem_append_left _ (List.mem_map_of_mem hf)

end Same

/-! ## The types are a table -/

/-- The structs and unions that the code of a type calls the code of. -/
def TypeDef.embeds (t : TypeDef) : List String := (t.references.filter Elem.isNested).map Elem.type

/-- A type embeds what its nested references name. -/
theorem TypeDef.mem_embeds {t : TypeDef} {m : String} :
    m ∈ t.embeds ↔ ∃ e ∈ t.references, e.isNested = true ∧ e.type = m := by
  unfold TypeDef.embeds
  simp only [List.mem_map, List.mem_filter, and_assoc]

/-- Every type is made once, over the types after it in the list. -/
def Scope.Built (rnd : Rat → Rat) (ctx : Context) : Scope → Prop
  | [] => True
  | (n, t) :: rest => List.lookup n rest = none ∧ ctx.Makes rnd rest n t ∧ Scope.Built rnd ctx rest

section Built

variable {rnd : Rat → Rat} {ctx : Context} {structs : Dict StructDecl} {unions : Dict UnionDecl}
  {schema : SchemaDecl} {data : Data} {order : List String}

/-- No type is emitted twice. -/
theorem topoSortTypes_nodup (h : topoSortTypes structs unions = .ok order) : order.Nodup := by
  have hclosed : ∀ name ∈ typeNames structs unions,
      declaredTypes structs unions name ⊆ typeNames structs unions := fun name _ t ht =>
    mem_typeNames.mpr (mem_declaredTypes.mp ht).2
  have houtcome := TopoSort.sort_outcome hclosed
  rw [topoSortTypes_eq] at h
  cases hsort : TopoSort.sort (declaredTypes structs unions) (typeNames structs unions) with
  | error e =>
    rw [hsort] at h
    cases e <;> cases h
  | ok s =>
    rw [hsort] at h houtcome
    obtain rfl : s.emitted = order := Except.ok.inj h
    exact houtcome.1.nodup

/-- Each type of the order is made over the types before it. -/
theorem foldlM_built :
    ∀ (order : List String) {scope scope' : Scope},
      order.foldlM (ctx.processType rnd) scope = .ok scope' → order.Nodup →
      (∀ n ∈ order, scope.lookup n = none) → scope.Built rnd ctx → scope'.Built rnd ctx := by
  intro order
  induction order with
  | nil =>
    intro scope scope' h _ _ hbuilt
    rw [List.foldlM_nil, pure_eq_ok] at h
    exact h ▸ hbuilt
  | cons n order ih =>
    intro scope scope' h hnodup hfresh hbuilt
    rw [List.foldlM_cons, bind_eq_ok] at h
    obtain ⟨scope₁, hfirst, hrest⟩ := h
    obtain ⟨t, rfl, hmakes⟩ := processType_makes hfirst
    obtain ⟨hn, hnodup⟩ := List.nodup_cons.mp hnodup
    refine ih hrest hnodup (fun m hm => ?_) ⟨hfresh n (List.mem_cons_self ..), hmakes, hbuilt⟩
    rw [lookup_tail t scope (ne_of_mem_of_not_mem hm hn)]
    exact hfresh m (List.mem_cons_of_mem _ hm)

/-- So the types of a processed schema are a table of definitions. -/
theorem Processed.built (h : Processed rnd schema data order) :
    data.types.Built rnd (schema.context data.enums) :=
  foldlM_built order h.types (topoSortTypes_nodup h.sorted) (fun _ _ => rfl) trivial

/-- A type is made over types of the scope. -/
theorem Scope.Built.makes {scope : Scope} (h : scope.Built rnd ctx) {n : String} {t : TypeDef}
    (ht : scope.lookup n = some t) : ∃ rest : Scope, ctx.Makes rnd rest n t ∧
      ∀ m c, rest.lookup m = some c → scope.lookup m = some c := by
  induction scope with
  | nil => cases ht
  | cons entry rest ih =>
    obtain ⟨n₀, t₀⟩ := entry
    obtain ⟨hfresh, hmakes, hrest⟩ := h
    have hkeep : ∀ m c, List.lookup m rest = some c →
        List.lookup m ((n₀, t₀) :: rest) = some c := by
      intro m c hm
      rw [lookup_tail t₀ rest (ne_of_isSome hfresh (by rw [hm]; rfl))]
      exact hm
    by_cases heq : n = n₀
    · subst heq
      rw [List.lookup_cons_self] at ht
      cases ht
      exact ⟨rest, hmakes, hkeep⟩
    · rw [lookup_tail t₀ rest heq] at ht
      obtain ⟨rest', hmakes', hsub⟩ := ih hrest ht
      exact ⟨rest', hmakes', fun m c hm => hkeep m c (hsub m c hm)⟩

/-- What a type embeds has been processed before it. -/
theorem TypeDef.Laid.embeds {scope : Scope} {t : TypeDef} (h : t.Laid rnd ctx scope)
    (hv : t.Valid) : ∀ m ∈ t.embeds, (scope.lookup m).isSome = true := by
  intro m hm
  obtain ⟨e, he, hnested, rfl⟩ := TypeDef.mem_embeds.mp hm
  cases t with
  | struct s =>
    obtain ⟨f, hf, rfl⟩ := List.mem_map.mp he
    obtain ⟨off, hlaid⟩ := FieldsLaid.mem s.fields (Struct.Laid.fields h) f hf
    obtain ⟨c, hc, -⟩ := hlaid.elem.nested hnested
    rw [hc]
    rfl
  | union u =>
    -- the variants of an accepted union are leaves
    obtain ⟨v, hvmem, rfl⟩ := List.mem_map.mp he
    rw [Variant.Valid.leaf (hv v hvmem)] at hnested
    cases hnested

/-- **The types of an accepted schema are a table of definitions over one another.** -/
theorem processSchema_tied (hp : processSchema rnd schema = .ok data)
    (hv : validateSchema rnd data = []) : Tied TypeDef.embeds data.types := by
  obtain ⟨order, h⟩ := processSchema_ok hp
  obtain ⟨ctx, hacc⟩ := accepted hp hv
  have hall : ∀ scope : Scope, scope.Accepted rnd ctx →
      scope.Built rnd (schema.context data.enums) → Tied TypeDef.embeds scope := by
    intro scope
    induction scope with
    | nil => intro _ _; exact trivial
    | cons entry rest ih =>
      intro hacc hbuilt
      exact ⟨hbuilt.1, hacc.laid.1.embeds (hacc.valid _ (List.mem_cons_self ..)),
        ih hacc.tail hbuilt.2.2⟩
  exact hall data.types hacc.types h.built

end Built

/-! ## Versions -/

section Versions

variable {rnd : Rat → Rat} {S : Set String} {old new : SchemaDecl} {data data' : Data}
  {order order' : List String}

/-- The enums as they are processed. -/
theorem mapM_processEnum_eq :
    ∀ (enums : Dict EnumDecl) {defs : Dict Enum},
      enums.mapM (fun e => do
        let enum ← processEnum e.1 e.2
        return (e.1, enum)) = .ok defs →
      ∀ type,
        defs.lookup type = (enums.lookup type).bind fun d => (processEnum type d).toOption := by
  intro enums
  induction enums with
  | nil =>
    intro defs h type
    rw [List.mapM_nil, pure_eq_ok] at h
    subst h
    rfl
  | cons entry enums ih =>
    intro defs h type
    obtain ⟨n, decl⟩ := entry
    rw [List.mapM_cons, bind_eq_ok] at h
    obtain ⟨b, hb, h⟩ := h
    rw [bind_eq_ok] at h hb
    obtain ⟨bs, hbs, h⟩ := h
    obtain ⟨e, he, hb⟩ := hb
    rw [pure_eq_ok] at h hb
    subst h hb
    by_cases heq : type = n
    · subst heq
      rw [List.lookup_cons_self, List.lookup_cons_self, Option.bind_some, he]
      rfl
    · rw [lookup_tail _ _ heq, lookup_tail _ _ heq, ih hbs]

/-- Schemas that agree give contexts that agree. -/
theorem SchemaDecl.Agrees.context (hagree : old.Agrees S new) (h : Processed rnd old data order)
    (h' : Processed rnd new data' order') :
    (old.context data.enums).Agrees S (new.context data'.enums) := by
  have henums : ∀ n ∈ S, new.enums.lookup n = old.enums.lookup n := fun n hn =>
    congrArg Declaration.enum (hagree.same n hn)
  refine ⟨henums, fun n hn => ?_, fun n hn => ?_, fun n hn => ?_⟩
  · show data'.enums.lookup n = data.enums.lookup n
    rw [mapM_processEnum_eq _ h.enums, mapM_processEnum_eq _ h'.enums, henums n hn]
  · show (new.structs.lookup n).isSome = (old.structs.lookup n).isSome
    have hsome := congrArg Option.isSome (congrArg Declaration.struct (hagree.same n hn))
    simpa only [SchemaDecl.declares, Option.isSome_map] using hsome
  · show (new.unions.lookup n).isSome = (old.unions.lookup n).isSome
    have hsome := congrArg Option.isSome (congrArg Declaration.union (hagree.same n hn))
    simpa only [SchemaDecl.declares, Option.isSome_map] using hsome

/-- A name has a type if it is declared. -/
theorem Processed.lookup_isSome_iff (h : Processed rnd old data order) {name : String} :
    (data.types.lookup name).isSome = true ↔ Declared old.structs old.unions name := by
  constructor
  · intro hsome
    obtain ⟨t, ht⟩ := Option.isSome_iff_exists.mp hsome
    obtain ⟨rest, hmakes, -⟩ := h.built.makes ht
    unfold Declared
    rw [Bool.or_eq_true]
    cases hmakes with
    | union hd => exact Or.inr (Option.isSome_iff_exists.mpr ⟨_, hd⟩)
    | struct _ hd => exact Or.inl (Option.isSome_iff_exists.mpr ⟨_, hd⟩)
  · intro hd
    obtain ⟨t, ht⟩ := h.lookup_isSome ((topoSortTypes_ordered h.sorted).2 name hd)
    rw [ht]
    rfl

/-- A name is declared if the schema has a struct or a union of it. -/
theorem declared_iff {schema : SchemaDecl} {name : String} :
    Declared schema.structs schema.unions name ↔
      (schema.declares name).struct.isSome = true ∨ (schema.declares name).union.isSome = true := by
  unfold Declared SchemaDecl.declares
  rw [Bool.or_eq_true, Option.isSome_map, Option.isSome_map]

/-- The fields are those of the declaration. -/
theorem processFields_types {ctx : Context} {scope : Scope} {name encoding : String}
    {isPacked : Bool} :
    ∀ (fs : List FieldDecl) {offset : Nat} {fields : List Field},
      ctx.processFields rnd scope name encoding isPacked offset fs = .ok fields →
      fields.map (fun f => f.elem.type) = fs.map FieldDecl.type := by
  intro fs
  induction fs with
  | nil =>
    intro offset fields h
    rw [Context.processFields, pure_eq_ok] at h
    subst h
    rfl
  | cons f fs ih =>
    intro offset fields h
    rw [Context.processFields, bind_eq_ok] at h
    obtain ⟨field, hfield, h⟩ := h
    rw [bind_eq_ok] at h
    obtain ⟨rest, hrest, h⟩ := h
    rw [pure_eq_ok] at h
    subst h
    unfold Context.processField at hfield
    rw [bind_eq_ok] at hfield
    obtain ⟨size, -, hfield⟩ := hfield
    rw [pure_eq_ok] at hfield
    subst hfield
    rw [List.map_cons, List.map_cons, ih hrest]
    rfl

/-- A type refers to what its declaration refers to. -/
theorem Context.Makes.references {schema : SchemaDecl} {defs : Dict Enum} {scope : Scope}
    {name : String} {t : TypeDef} (h : (schema.context defs).Makes rnd scope name t) :
    ∀ e ∈ t.references, e.type ∈ (schema.declares name).types := by
  intro e he
  cases h with
  | @union d u hd hu =>
    have hd : schema.unions.lookup name = some d := hd
    unfold Context.enrichUnion at hu
    rw [bind_eq_ok] at hu
    obtain ⟨variants, hvariants, hu⟩ := hu
    rw [pure_eq_ok] at hu
    subst hu
    obtain ⟨v, hv, rfl⟩ := List.mem_map.mp he
    obtain ⟨f, hf, hmade⟩ := (mapM_ok hvariants).2 v hv
    rw [bind_eq_ok] at hmade
    obtain ⟨size, -, hmade⟩ := hmade
    rw [pure_eq_ok] at hmade
    subst hmade
    simp only [Declaration.types, SchemaDecl.declares, hd, Option.map_some, Option.elim_some]
    exact List.mem_append_right _ (List.mem_map_of_mem hf)
  | @struct d s _ hd hs =>
    have hd : schema.structs.lookup name = some d := hd
    unfold Context.processStruct at hs
    rw [bind_eq_ok] at hs
    obtain ⟨fields, hfields, hs⟩ := hs
    rw [pure_eq_ok] at hs
    subst hs
    obtain ⟨f, hf, rfl⟩ := List.mem_map.mp he
    simp only [Declaration.types, SchemaDecl.declares, hd, Option.map_some, Option.elim_some,
      ← processFields_types d.fields hfields]
    exact List.mem_append_left _ (List.mem_map_of_mem hf)

/-- The types under one name are the same, wherever they stand. -/
theorem SchemaDecl.Agrees.sameChildren (hagree : old.Agrees S new)
    (h : Processed rnd old data order)
    (h' : Processed rnd new data' order') : SameChildren S data.types data'.types := by
  have hall : ∀ scope : Scope, scope.Built rnd (old.context data.enums) →
      SameChildren S scope data'.types := by
    intro scope
    induction scope with
    | nil => intro _ m _ t t' ht; cases ht
    | cons entry rest ih =>
      intro hbuilt m hm t t' ht ht'
      obtain ⟨n, t₀⟩ := entry
      obtain ⟨-, hmakes, hrest⟩ := hbuilt
      by_cases heq : m = n
      · subst heq
        rw [List.lookup_cons_self] at ht
        cases ht
        -- both are made over scopes that agree on what has been processed before
        obtain ⟨rest', hmakes', hsub⟩ := h'.built.makes ht'
        refine (hagree.context h h').makes hagree (fun k hk c c' hc hc' => ?_) hm hmakes hmakes'
        exact ih hrest k hk c c' hc (hsub k c' hc')
      · rw [lookup_tail t₀ rest heq] at ht
        exact ih hrest m hm t t' ht ht'
  exact hall data.types h.built

/-- **Versions that agree have the same types.** -/
theorem SchemaDecl.Agrees.types (hagree : old.Agrees S new) (hp : processSchema rnd old = .ok data)
    (hp' : processSchema rnd new = .ok data') :
    Agree TypeDef.embeds S data.types data'.types := by
  obtain ⟨order, h⟩ := processSchema_ok hp
  obtain ⟨order', h'⟩ := processSchema_ok hp'
  have hsome : ∀ n ∈ S, (data'.types.lookup n).isSome = (data.types.lookup n).isSome := by
    intro n hn
    rw [Bool.eq_iff_iff, h.lookup_isSome_iff, h'.lookup_isSome_iff, declared_iff, declared_iff,
      hagree.same n hn]
  refine ⟨fun n hn => ?_, fun n hn t ht m hm => ?_⟩
  · have hn' := hsome n hn
    cases ht : data.types.lookup n with
    | none =>
      rw [ht, Option.isSome_none, Option.isSome_eq_false_iff, Option.isNone_iff_eq_none] at hn'
      exact hn'
    | some t =>
      rw [ht, Option.isSome_some] at hn'
      obtain ⟨t', ht'⟩ := Option.isSome_iff_exists.mp hn'
      rw [ht', hagree.sameChildren h h' n hn t t' ht ht']
  · obtain ⟨e, he, -, rfl⟩ := TypeDef.mem_embeds.mp hm
    obtain ⟨rest, hmakes, -⟩ := h.built.makes ht
    exact hagree.closed n hn _ (hmakes.references e he)

end Versions

end ProtoEmb.Schema

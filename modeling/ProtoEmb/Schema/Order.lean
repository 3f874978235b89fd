import ProtoEmb.Schema.Layout
import Mathlib.Data.List.Basic
import Mathlib.Logic.Relation

/-!
# The dependency order

`visit` of `topo_sort_types` in `generate.py` emits a name behind every declared type it refers
to, or reports a cycle. So in the order that `topo_sort_types` returns each name stands behind
what it is made of (`topoSortTypes_ordered`), however long the chain of references
(`Ordered.chain`), and no type refers to itself.

What a struct is made into depends on the rest of the schema only through the types of its
fields: declared in a larger schema in which none of these is a struct or a union either, it
is laid out the same (`processStruct_same`).
-/

namespace ProtoEmb.Schema

open ProtoEmb.Lib

variable {structs : Dict StructDecl} {unions : Dict UnionDecl}

/-- The name of a struct or a union. -/
def Declared (structs : Dict StructDecl) (unions : Dict UnionDecl) (name : String) : Prop :=
  ((structs.lookup name).isSome || (unions.lookup name).isSome) = true

/-- A field or variant of the type `name` has the struct or union type `t`. -/
def RefersTo (structs : Dict StructDecl) (unions : Dict UnionDecl) (name t : String) : Prop :=
  t ∈ referencedTypes structs unions name ∧ Declared structs unions t

/-- Every name stands behind the types it refers to. -/
def Ordered (structs : Dict StructDecl) (unions : Dict UnionDecl) (order : List String) : Prop :=
  ∀ n ∈ order, ∀ t, RefersTo structs unions n t → t ∈ order ∧ order.idxOf t < order.idxOf n

theorem Ordered.push {order : List String} (h : Ordered structs unions order) {name : String}
    (hrefs : ∀ t, RefersTo structs unions name t → t ∈ order) :
    Ordered structs unions (order ++ [name]) := by
  intro n hn t ht
  by_cases hmem : n ∈ order
  · obtain ⟨hin, hlt⟩ := h n hmem t ht
    rw [List.idxOf_append_of_mem hin, List.idxOf_append_of_mem hmem]
    exact ⟨List.mem_append_left _ hin, hlt⟩
  · -- it is the new name, behind all the others
    have hname : n = name := by simpa [hmem] using hn
    subst hname
    have hin := hrefs t ht
    rw [List.idxOf_append_of_mem hin, List.idxOf_append_of_notMem hmem]
    exact ⟨List.mem_append_left _ hin, by have := List.idxOf_lt_length_of_mem hin; omega⟩

/-- A step that emits its name, if it is wanted, keeps the order; so does a fold of it. -/
theorem foldlM_emits {f : List String → String → Except ProcessError (List String)}
    {wanted : String → Prop}
    (hstep : ∀ order name order', f order name = .ok order' → Ordered structs unions order →
      Ordered structs unions order' ∧ order ⊆ order' ∧ (wanted name → name ∈ order')) :
    ∀ (l : List String) {order order' : List String}, l.foldlM f order = .ok order' →
      Ordered structs unions order →
      Ordered structs unions order' ∧ order ⊆ order' ∧ ∀ n ∈ l, wanted n → n ∈ order' := by
  intro l
  induction l with
  | nil =>
    intro order order' h hord
    rw [List.foldlM_nil, pure_eq_ok] at h
    subst h
    exact ⟨hord, fun _ hx => hx, fun n hn => absurd hn List.not_mem_nil⟩
  | cons name l ih =>
    intro order order' h hord
    rw [List.foldlM_cons, bind_eq_ok] at h
    obtain ⟨order₁, hfirst, hrest⟩ := h
    obtain ⟨hord₁, hsub₁, hname⟩ := hstep order name order₁ hfirst hord
    obtain ⟨hord', hsub, hl⟩ := ih hrest hord₁
    refine ⟨hord', fun x hx => hsub (hsub₁ hx), fun n hn hw => ?_⟩
    rcases List.mem_cons.mp hn with rfl | hn
    · exact hsub (hname hw)
    · exact hl n hn hw

/-- **`visit` emits the name behind everything it refers to.** -/
theorem visit_ordered :
    ∀ (fuel : Nat) {order stack : List String} {name : String} {order' : List String},
      visit structs unions fuel order stack name = .ok order' → Ordered structs unions order →
      Ordered structs unions order' ∧ order ⊆ order' ∧ name ∈ order' := by
  intro fuel
  induction fuel with
  | zero => intro order stack name order' h _; cases h
  | succ fuel ih =>
    intro order stack name order' h hord
    unfold visit at h
    split at h
    next hmem =>
      rw [pure_eq_ok] at h
      subst h
      exact ⟨hord, fun _ hx => hx, by simpa using hmem⟩
    next =>
      split at h
      next => cases h
      next =>
        rw [bind_eq_ok] at h
        obtain ⟨order₁, hfold, h⟩ := h
        rw [pure_eq_ok] at h
        subst h
        -- the visits of the referenced types
        obtain ⟨hord₁, hsub, hall⟩ := @foldlM_emits structs unions _ (Declared structs unions)
          (fun o t o' hstep ho => by
            split at hstep
            next =>
              obtain ⟨h₁, h₂, h₃⟩ := ih hstep ho
              exact ⟨h₁, h₂, fun _ => h₃⟩
            next hnone =>
              rw [pure_eq_ok] at hstep
              subst hstep
              exact ⟨ho, fun _ hx => hx, fun hd => absurd hd hnone⟩)
          (referencedTypes structs unions name) order order₁ hfold hord
        exact ⟨hord₁.push fun t ht => hall t ht.1 ht.2,
          fun x hx => List.mem_append_left _ (hsub hx), by simp⟩

/-- **The dependency order has every declared type, behind the types it refers to.** -/
theorem topoSortTypes_ordered {order : List String} (h : topoSortTypes structs unions = .ok order) :
    Ordered structs unions order ∧ ∀ n, Declared structs unions n → n ∈ order := by
  obtain ⟨hord, -, hall⟩ := @foldlM_emits structs unions _ (fun _ => True)
    (fun o t o' hstep ho => by
      obtain ⟨h₁, h₂, h₃⟩ := visit_ordered _ hstep ho
      exact ⟨h₁, h₂, fun _ => h₃⟩)
    (structs.map Prod.fst ++ unions.map Prod.fst) [] order h
    (fun n hn => absurd hn List.not_mem_nil)
  refine ⟨hord, fun n hn => hall n ?_ trivial⟩
  unfold Declared at hn
  rw [Bool.or_eq_true, List.lookup_isSome_iff, List.lookup_isSome_iff] at hn
  rw [List.mem_append]
  refine hn.imp ?_ ?_
  all_goals
    rintro ⟨p, hp, heq⟩
    rw [eq_of_beq heq]
    exact List.mem_map_of_mem hp

/-- A chain of references goes down the order. -/
theorem Ordered.chain {order : List String} (h : Ordered structs unions order) {n t : String}
    (hn : n ∈ order) (hchain : Relation.TransGen (RefersTo structs unions) n t) :
    t ∈ order ∧ order.idxOf t < order.idxOf n := by
  induction hchain with
  | single href => exact h n hn _ href
  | tail _ href ih =>
    obtain ⟨hmem, hlt⟩ := ih
    obtain ⟨hmem', hlt'⟩ := h _ hmem _ href
    exact ⟨hmem', by omega⟩

/-! ## One entry for every name -/

variable {rnd : Rat → Rat} {schema : SchemaDecl} {data : Data} {order : List String}

/-- Every name of the order has been processed. -/
theorem Processed.lookup_isSome (h : Processed rnd schema data order) {name : String}
    (hmem : name ∈ order) : ∃ t, data.types.lookup name = some t := by
  have hall : ∀ (l : List String) {scope scope' : Scope},
      l.foldlM ((schema.context data.enums).processType rnd) scope = .ok scope' →
      (∀ n, n ∈ l ∨ (scope.lookup n).isSome = true → (scope'.lookup n).isSome = true) := by
    intro l
    induction l with
    | nil =>
      intro scope scope' hfold n hn
      rw [List.foldlM_nil, pure_eq_ok] at hfold
      subst hfold
      exact hn.resolve_left List.not_mem_nil
    | cons m l ih =>
      intro scope scope' hfold n hn
      rw [List.foldlM_cons, bind_eq_ok] at hfold
      obtain ⟨scope₁, hfirst, hrest⟩ := hfold
      obtain ⟨t, rfl, _⟩ := processType_makes hfirst
      apply ih hrest n
      by_cases heq : n = m
      · exact Or.inr (by simp [heq])
      · refine hn.imp (fun h => (List.mem_cons.mp h).resolve_left heq) fun hs => ?_
        rw [List.lookup_cons, beq_eq_false_iff_ne.mpr heq]
        exact hs
  exact Option.isSome_iff_exists.mp (hall order h.types name (Or.inl hmem))

/-- A struct of the schema has the one entry its declaration is made into. -/
theorem Processed.struct (h : Processed rnd schema data order) {name : String} {d : StructDecl}
    (hnone : schema.unions.lookup name = none) (hd : schema.structs.lookup name = some d) :
    ∃ scope s, data.types.lookup name = some (.struct s) ∧
      (schema.context data.enums).processStruct rnd scope name d = .ok s := by
  have hmem := (topoSortTypes_ordered h.sorted).2 name
    (by unfold Declared; rw [hd]; rfl)
  obtain ⟨t, ht⟩ := h.lookup_isSome hmem
  obtain ⟨l, r, hsplit, -⟩ := List.lookup_eq_some_iff.mp ht
  obtain ⟨scope, hmakes⟩ := h.makes (name, t) (by rw [hsplit]; simp)
  cases hmakes with
  | union hu => rw [show schema.unions.lookup name = _ from hu] at hnone; cases hnone
  | struct _ hd' hs =>
    rw [show schema.structs.lookup name = _ from hd'] at hd
    cases hd
    exact ⟨scope, _, ht, hs⟩

/-! ## The same struct in two schemas -/

section Same

variable {ctx ctx' : Context} {scope scope' : Scope} {name encoding : String} {isPacked : Bool}

/-- A field whose type is no struct or union in either schema. -/
theorem processField_same (henums : ctx'.enums = ctx.enums) (hdefs : ctx'.enumDefs = ctx.enumDefs)
    {f : FieldDecl} (hleaf : ¬ Declared ctx.structs ctx.unions f.type)
    (hleaf' : ¬ Declared ctx'.structs ctx'.unions f.type) (offset : Nat) :
    ctx'.processField rnd scope' name encoding isPacked offset f
      = ctx.processField rnd scope name encoding isPacked offset f := by
  unfold Declared at hleaf hleaf'
  have hno := Bool.eq_false_iff.mpr hleaf
  have hno' := Bool.eq_false_iff.mpr hleaf'
  rw [Bool.or_eq_false_iff] at hno hno'
  simp only [Context.processField, Context.elemSize, Context.enrich, hno.1, hno.2, hno'.1, hno'.2,
    henums, hdefs]
  rfl

theorem processFields_same (henums : ctx'.enums = ctx.enums)
    (hdefs : ctx'.enumDefs = ctx.enumDefs) :
    ∀ (fs : List FieldDecl), (∀ f ∈ fs, ¬ Declared ctx.structs ctx.unions f.type) →
      (∀ f ∈ fs, ¬ Declared ctx'.structs ctx'.unions f.type) → ∀ offset,
      ctx'.processFields rnd scope' name encoding isPacked offset fs
        = ctx.processFields rnd scope name encoding isPacked offset fs := by
  intro fs
  induction fs with
  | nil => intro _ _ offset; rfl
  | cons f fs ih =>
    intro hleaf hleaf' offset
    have hrest := ih (fun g hg => hleaf g (List.mem_cons_of_mem _ hg))
      fun g hg => hleaf' g (List.mem_cons_of_mem _ hg)
    have hfirst :=
      @processField_same rnd ctx ctx' scope scope' name encoding isPacked henums hdefs f
      (hleaf f (List.mem_cons_self ..)) (hleaf' f (List.mem_cons_self ..))
    simp only [Context.processFields, hrest, hfirst]

/-- **A struct without nested types is laid out the same.** -/
theorem processStruct_same (henums : ctx'.enums = ctx.enums)
    (hdefs : ctx'.enumDefs = ctx.enumDefs) (hdefault : ctx'.defaultEncoding = ctx.defaultEncoding)
    {d : StructDecl} (hleaf : ∀ f ∈ d.fields, ¬ Declared ctx.structs ctx.unions f.type)
    (hleaf' : ∀ f ∈ d.fields, ¬ Declared ctx'.structs ctx'.unions f.type) :
    ctx'.processStruct rnd scope' name d = ctx.processStruct rnd scope name d := by
  have hfields := fun encoding isPacked => @processFields_same rnd ctx ctx' scope scope' name
    encoding isPacked henums hdefs d.fields hleaf hleaf'
  simp only [Context.processStruct, Context.encoding, hdefault, hfields]
  rfl

/-- The declared types of the fields of a struct show in `_has_nested`. -/
theorem processFields_leaf :
    ∀ (fs : List FieldDecl) {offset : Nat} {fields : List Field},
      ctx.processFields rnd scope name encoding isPacked offset fs = .ok fields →
      (∀ f ∈ fields, f.elem.isNested = false) →
      ∀ f ∈ fs, ¬ Declared ctx.structs ctx.unions f.type := by
  intro fs
  induction fs with
  | nil => intro _ _ _ _ f hf; exact absurd hf List.not_mem_nil
  | cons f fs ih =>
    intro offset fields h hleaf g hg
    rw [Context.processFields, bind_eq_ok] at h
    obtain ⟨field, hfield, h⟩ := h
    rw [bind_eq_ok] at h
    obtain ⟨rest, hrest, h⟩ := h
    rw [pure_eq_ok] at h
    subst h
    rcases List.mem_cons.mp hg with rfl | hg
    · unfold Context.processField at hfield
      rw [bind_eq_ok] at hfield
      obtain ⟨size, -, hfield⟩ := hfield
      rw [pure_eq_ok] at hfield
      subst hfield
      have hn := hleaf _ (List.mem_cons_self ..)
      rw [enrich_isNested] at hn
      unfold Declared
      rw [hn]
      exact Bool.false_ne_true
    · exact ih hrest (fun x hx => hleaf x (List.mem_cons_of_mem _ hx)) g hg

theorem processStruct_leaf {d : StructDecl} {s : Struct}
    (h : ctx.processStruct rnd scope name d = .ok s) (hn : s.hasNested = false) :
    ∀ f ∈ d.fields, ¬ Declared ctx.structs ctx.unions f.type := by
  unfold Context.processStruct at h
  rw [bind_eq_ok] at h
  obtain ⟨fields, hfields, h⟩ := h
  rw [pure_eq_ok] at h
  subst h
  exact processFields_leaf d.fields hfields fun f hf => by
    simpa using List.any_eq_false.mp hn f hf

end Same

/-! ## Extending a schema -/

/-- A schema with further structs, each of which embeds the struct `name`, directly or through
others of them. -/
structure SchemaDecl.Extends (schema schema' : SchemaDecl) (name : String) : Prop where
  rest : schema' = { schema with structs := schema'.structs }
  keeps : ∀ n d, schema.structs.lookup n = some d → schema'.structs.lookup n = some d
  embeds : ∀ n, schema.structs.lookup n = none → (schema'.structs.lookup n).isSome = true →
    Relation.TransGen (RefersTo schema'.structs schema'.unions) n name

/-- Structs added at the end, each of which embeds the struct. -/
theorem SchemaDecl.extends_append (schema : SchemaDecl) (new : Dict StructDecl) {name : String}
    (h : ∀ d ∈ new, Relation.TransGen (RefersTo (schema.structs ++ new) schema.unions) d.1 name) :
    schema.Extends { schema with structs := schema.structs ++ new } name := by
  refine ⟨rfl, fun n d hd => ?_, fun n hnone hsome => ?_⟩
  · show (schema.structs ++ new).lookup n = some d
    rw [List.lookup_append, hd, Option.some_or]
  · have hnew : ((schema.structs ++ new).lookup n).isSome = true := hsome
    rw [List.lookup_append, hnone, Option.none_or, List.lookup_isSome_iff] at hnew
    obtain ⟨d, hd, heq⟩ := hnew
    rw [eq_of_beq heq]
    exact h d hd

/-- **A struct without nested types is laid out the same in every extension that embeds it.**
None of its field types is a new struct: that one would embed itself. -/
theorem SchemaDecl.Extends.struct_same {schema' : SchemaDecl} {data' : Data} {name : String}
    {s : Struct} (hext : schema.Extends schema' name) (hp : processSchema rnd schema = .ok data)
    (hp' : processSchema rnd schema' = .ok data')
    (hs : data.types.lookup name = some (.struct s)) (hn : s.hasNested = false) :
    data'.types.lookup name = some (.struct s) := by
  obtain ⟨order, h⟩ := processSchema_ok hp
  obtain ⟨order', h'⟩ := processSchema_ok hp'
  obtain ⟨l, r, hsplit, -⟩ := List.lookup_eq_some_iff.mp hs
  obtain ⟨scope, hmakes⟩ := h.makes (name, .struct s) (by rw [hsplit]; simp)
  cases hmakes with | @struct d _ hnone hd hmade =>
  have hrest := hext.rest
  have hunions : schema'.unions = schema.unions := by rw [hrest]
  have henums : schema'.enums = schema.enums := by rw [hrest]
  have hdefault : schema'.defaultEncoding = schema.defaultEncoding := by rw [hrest]
  have hdefs : data'.enums = data.enums := by
    have hmap := h'.enums
    rw [henums, h.enums] at hmap
    exact (Except.ok.inj hmap).symm
  have hd' := hext.keeps name d hd
  obtain ⟨scope', s', hs', hmade'⟩ := h'.struct (by rw [hunions]; exact hnone) hd'
  obtain ⟨hord, hall⟩ := topoSortTypes_ordered h'.sorted
  have hleaf := processStruct_leaf hmade hn
  -- a new struct among the field types would be ordered before `name` and after it
  have hleaf' : ∀ f ∈ d.fields, ¬ Declared schema'.structs schema'.unions f.type := by
    intro f hf hdecl
    have hold : ¬ Declared schema.structs schema.unions f.type := hleaf f hf
    unfold Declared at hold
    rw [Bool.or_eq_true, not_or, Bool.not_eq_true, Bool.not_eq_true,
      Option.isSome_eq_false_iff, Option.isNone_iff_eq_none] at hold
    have hnew : (schema'.structs.lookup f.type).isSome = true := by
      have hdecl' := hdecl
      unfold Declared at hdecl'
      rw [hunions, hold.2, Bool.or_false] at hdecl'
      exact hdecl'
    have href : RefersTo schema'.structs schema'.unions name f.type := by
      refine ⟨?_, hdecl⟩
      unfold referencedTypes
      rw [hd']
      exact List.mem_map_of_mem hf
    have hself := (hext.embeds f.type hold.1 hnew).head href
    have hin := hall name (by unfold Declared; rw [hd']; rfl)
    exact absurd (hord.chain hin hself).2 (lt_irrefl _)
  -- so both runs of the generator see the same declarations
  have hsame : (schema'.context data'.enums).processStruct rnd scope' name d
      = (schema.context data.enums).processStruct rnd scope name d :=
    processStruct_same henums hdefs hdefault hleaf hleaf'
  rw [hsame, hmade] at hmade'
  cases hmade'
  exact hs'

end ProtoEmb.Schema

import ProtoEmb.Schema.Order
import ProtoEmb.Lib.TopoSort

/-!
# The order of the types

`topo_sort_types` of `generate.py` as it stands, with its dictionary of states and the kind of
each type in the order. It is the depth-first search of the library on the declared types that a
type refers to, so it raises for a cycle and for nothing else; the depth of Python's stack is left
out. `topoSortTypes`, which the rest of the generator is modelled on, has the same names in the
same order (`topoSortTypes_eq`).
-/

namespace ProtoEmb.Schema

open Relation
open ProtoEmb.Lib

inductive Kind where
  | struct
  | union
  deriving DecidableEq, Repr

structure TopoState where
  state : String → Option TopoSort.Mark
  order : List (Kind × String)

section

variable (structs : Dict StructDecl) (unions : Dict UnionDecl)

/-- A type that is in both maps is taken for a union. -/
def kindOf (name : String) : Kind := if (unions.lookup name).isSome then .union else .struct

/-- `visit`: the raise has the path of the cycle. -/
def visitType : Nat → List String → TopoState → String →
    Except (TopoSort.Failure String) TopoState
  | 0, _, _, _ => .error .outOfFuel
  | fuel + 1, stack, s, name =>
    match s.state name with
    | some .done => .ok s
    | some .visiting => .error (.cycle (stack ++ [name]))
    | none => do
      let s ← (referencedTypes structs unions name).foldlM
        (fun s t =>
          if (structs.lookup t).isSome || (unions.lookup t).isSome then
            visitType fuel (stack ++ [name]) s t
          else return s)
        { s with state := Function.update s.state name (some .visiting) }
      return { state := Function.update s.state name (some .done)
               order := s.order ++ [(kindOf unions name, name)] }

/-- `list(structs) + list(unions)`. -/
def typeNames : List String := structs.map Prod.fst ++ unions.map Prod.fst

/-- `topo_sort_types`. -/
def topoSort : Except (TopoSort.Failure String) (List (Kind × String)) := do
  let s ← (typeNames structs unions).foldlM
    (visitType structs unions ((typeNames structs unions).length + 1) []) ⟨fun _ => none, []⟩
  return s.order

/-- The declared types that a type refers to. -/
def declaredTypes (name : String) : List String :=
  (referencedTypes structs unions name).filter fun t =>
    (structs.lookup t).isSome || (unions.lookup t).isSome

end

variable {structs : Dict StructDecl} {unions : Dict UnionDecl}

/-! ## The search of the library -/

/-- The state of the search, with the kinds. -/
def withKinds (unions : Dict UnionDecl) (s : TopoSort.State String) : TopoState :=
  ⟨s.mark, s.emitted.map fun name => (kindOf unions name, name)⟩

/-- A fold that is a map of another one. -/
theorem foldlM_map_state {ε σ τ α : Type} {f : σ → α → Except ε σ} {g : τ → α → Except ε τ}
    (φ : σ → τ) (h : ∀ s x, g (φ s) x = (f s x).map φ) :
    ∀ (xs : List α) (s : σ), xs.foldlM g (φ s) = (xs.foldlM f s).map φ := by
  intro xs
  induction xs with
  | nil => exact fun _ => rfl
  | cons x xs ih =>
    intro s
    rw [List.foldlM_cons, List.foldlM_cons, h]
    cases f s x with
    | error e => rfl
    | ok s' => exact ih s'

theorem visitType_eq :
    ∀ (fuel : Nat) (stack : List String) (s : TopoSort.State String) (name : String),
      visitType structs unions fuel stack (withKinds unions s) name
        = (TopoSort.visit (declaredTypes structs unions) fuel stack s name).map
          (withKinds unions) := by
  intro fuel
  induction fuel with
  | zero => exact fun _ _ _ => rfl
  | succ fuel ih =>
    intro stack s name
    unfold visitType TopoSort.visit
    have hstate : (withKinds unions s).state = s.mark := rfl
    rw [hstate]
    cases s.mark name with
    | some m => cases m <;> rfl
    | none =>
      -- references that are no declared type are passed over
      have hfold := @foldlM_map_state _ _ _ _
        (fun s t => if ((structs.lookup t).isSome || (unions.lookup t).isSome) = true then
          TopoSort.visit (declaredTypes structs unions) fuel (stack ++ [name]) s t else pure s)
        (fun s t => if ((structs.lookup t).isSome || (unions.lookup t).isSome) = true then
          visitType structs unions fuel (stack ++ [name]) s t else pure s)
        (withKinds unions) (fun s t => by
          split
          next => exact ih _ s t
          next => rfl) (referencedTypes structs unions name) (s.set name .visiting)
      have hfilter : (declaredTypes structs unions name).foldlM
          (TopoSort.visit (declaredTypes structs unions) fuel (stack ++ [name]))
          (s.set name .visiting) = _ := List.foldlM_filter
      rw [← hfilter] at hfold
      show ((referencedTypes structs unions name).foldlM _ (withKinds unions (s.set name .visiting))
        >>= _) = _
      rw [hfold]
      cases (declaredTypes structs unions name).foldlM
          (TopoSort.visit (declaredTypes structs unions) fuel (stack ++ [name]))
          (s.set name .visiting) with
      | error e => rfl
      | ok s' =>
        have hemit : withKinds unions (s'.emit name) = ⟨(s'.emit name).mark,
            (withKinds unions s').order ++ [(kindOf unions name, name)]⟩ :=
          congrArg (TopoState.mk _) List.map_append
        show Except.ok _ = Except.ok (withKinds unions (s'.emit name))
        rw [hemit]
        rfl

theorem topoSort_eq : topoSort structs unions
    = (TopoSort.sort (declaredTypes structs unions) (typeNames structs unions)).map fun s =>
      s.emitted.map fun name => (kindOf unions name, name) := by
  unfold topoSort TopoSort.sort
  have hfold := @foldlM_map_state _ _ _ _
    (TopoSort.visit (declaredTypes structs unions) ((typeNames structs unions).length + 1) [])
    (visitType structs unions ((typeNames structs unions).length + 1) []) (withKinds unions)
    (fun s name => visitType_eq _ _ s name) (typeNames structs unions) ⟨fun _ => none, []⟩
  have hstart : withKinds unions ⟨fun _ => none, []⟩ = ⟨fun _ => none, []⟩ := rfl
  rw [hstart] at hfold
  rw [hfold]
  cases (typeNames structs unions).foldlM
      (TopoSort.visit (declaredTypes structs unions) ((typeNames structs unions).length + 1) [])
      ⟨fun _ => none, []⟩ <;> rfl

/-! ## The order -/

theorem mem_typeNames {name : String} :
    name ∈ typeNames structs unions ↔ Declared structs unions name := by
  have hlookup : ∀ {β : Type} (d : Dict β),
      name ∈ d.map Prod.fst ↔ (d.lookup name).isSome = true := by
    intro β d
    rw [List.lookup_isSome_iff, List.mem_map]
    refine exists_congr fun p => and_congr_right fun _ => ?_
    rw [beq_iff_eq]
    exact eq_comm
  unfold typeNames Declared
  rw [List.mem_append, hlookup, hlookup, Bool.or_eq_true]

theorem mem_declaredTypes {name t : String} :
    t ∈ declaredTypes structs unions name ↔ RefersTo structs unions name t := by
  unfold declaredTypes RefersTo Declared
  exact List.mem_filter

/-- The references of the generator are the edges of the search. -/
theorem edge_eq : TopoSort.Edge (declaredTypes structs unions) = RefersTo structs unions := by
  funext name t
  exact propext mem_declaredTypes

/-- Only a declared type refers to one. -/
theorem RefersTo.declared {name t : String} (h : RefersTo structs unions name t) :
    Declared structs unions name := by
  have hmem := h.1
  unfold referencedTypes at hmem
  unfold Declared
  cases hs : structs.lookup name with
  | some d => rfl
  | none =>
    rw [hs] at hmem
    cases hu : unions.lookup name with
    | some u => rfl
    | none =>
      rw [hu] at hmem
      exact absurd hmem List.not_mem_nil

theorem cycle_declared {name : String} (h : TransGen (RefersTo structs unions) name name) :
    Declared structs unions name := by
  obtain ⟨t, hfirst, _⟩ := TransGen.head'_iff.mp h
  exact hfirst.declared

/-- **`topo_sort_types` is a correct topological sort.** It always ends, raises if and only if
some type refers to itself through the others, and otherwise returns every declared type
once, behind those it refers to; without references it keeps the order of definition. -/
theorem topoSort_correct (structs : Dict StructDecl) (unions : Dict UnionDecl) :
    topoSort structs unions ≠ .error .outOfFuel ∧
    ((∃ path, topoSort structs unions = .error (.cycle path)) ↔
      ∃ name, TransGen (RefersTo structs unions) name name) ∧
    ∀ order, topoSort structs unions = .ok order →
      (order.map Prod.snd).Nodup ∧
      (∀ name, name ∈ order.map Prod.snd ↔ Declared structs unions name) ∧
      (∀ p ∈ order, p.1 = kindOf unions p.2) ∧
      (∀ before p after, order = before ++ p :: after →
        ∀ t, RefersTo structs unions p.2 t → t ∈ before.map Prod.snd) ∧
      ((∀ name t, ¬ RefersTo structs unions name t) →
        order =
          (typeNames structs unions).eraseDups.map fun name => (kindOf unions name, name)) := by
  have hclosed : ∀ name ∈ typeNames structs unions,
      declaredTypes structs unions name ⊆ typeNames structs unions := fun name _ t ht =>
    mem_typeNames.mpr (mem_declaredTypes.mp ht).2
  have houtcome := TopoSort.sort_outcome hclosed
  rw [topoSort_eq]
  cases hsort : TopoSort.sort (declaredTypes structs unions) (typeNames structs unions) with
  | error e =>
    -- the search does not run out of fuel, and a path it stops at is a cycle
    rw [hsort] at houtcome
    cases e with
    | outOfFuel => exact houtcome.elim
    | cycle path =>
      obtain ⟨name, _, hcycle⟩ := houtcome
      rw [edge_eq] at hcycle
      exact ⟨nofun, ⟨fun _ => ⟨name, hcycle⟩, fun _ => ⟨path, rfl⟩⟩, nofun⟩
  | ok s =>
    rw [hsort] at houtcome
    obtain ⟨h, _, hall⟩ := houtcome
    refine ⟨nofun, ⟨nofun, fun ⟨name, hcycle⟩ => ?_⟩, fun order horder => ?_⟩
    · -- a search that ends has been through every type, so none is on a cycle
      refine (h.not_cycle (hall (mem_typeNames.mpr (cycle_declared hcycle))) ?_).elim
      rw [edge_eq]
      exact hcycle
    · obtain rfl := Except.ok.inj horder
      have hnames : ∀ l : List String,
          (l.map fun name => (kindOf unions name, name)).map Prod.snd = l := by
        intro l
        rw [List.map_map]
        exact List.map_id l
      rw [hnames]
      refine ⟨h.nodup, fun name => ⟨fun hmem => mem_typeNames.mp (h.subset hmem), fun hmem =>
        hall (mem_typeNames.mpr hmem)⟩, List.forall_mem_map.mpr fun _ _ => rfl, ?_, ?_⟩
      · intro before p after hcut t href
        have hsplit := congrArg (List.map Prod.snd) hcut
        rw [hnames, List.map_append, List.map_cons] at hsplit
        exact h.behind _ _ _ hsplit (mem_declaredTypes.mpr href)
      · -- without references the search visits the names as they are declared
        intro hnone
        obtain ⟨s', hs', hemit⟩ := @TopoSort.sort_of_no_edge _ (declaredTypes structs unions)
          (typeNames structs unions) _ fun name _ =>
            List.eq_nil_iff_forall_not_mem.mpr fun t ht => hnone name t (mem_declaredTypes.mp ht)
        rw [hsort] at hs'
        rw [← hemit, Except.ok.inj hs']

/-! ## The names alone -/

/-- The search on names, as the rest of the generator is modelled on it. -/
def toNames : Except (TopoSort.Failure String) (TopoSort.State String) →
    Except ProcessError (List String)
  | .ok s => .ok s.emitted
  | .error (.cycle path) => .error (.cycle path)
  | .error .outOfFuel => .error (.cycle [])

theorem foldlM_names {stack nodes : List String}
    {f : TopoSort.State String → String → Except (TopoSort.Failure String) (TopoSort.State String)}
    {g : List String → String → Except ProcessError (List String)} :
    ∀ {xs : List String} {s : TopoSort.State String},
      (∀ s, TopoSort.Searched (declaredTypes structs unions) nodes stack s → ∀ x ∈ xs,
        TopoSort.Outcome (declaredTypes structs unions) nodes stack s [x] (f s x) ∧
          g s.emitted x = toNames (f s x)) →
      TopoSort.Searched (declaredTypes structs unions) nodes stack s →
      xs.foldlM g s.emitted = toNames (xs.foldlM f s) := by
  intro xs
  induction xs with
  | nil => exact fun _ _ => rfl
  | cons x xs ih =>
    intro s hstep h
    obtain ⟨hout, hx⟩ := hstep s h x List.mem_cons_self
    rw [List.foldlM_cons, List.foldlM_cons, hx]
    cases hf : f s x with
    | error e => cases e <;> rfl
    | ok s₁ =>
      rw [hf] at hout
      exact ih (fun s hs y hy => hstep s hs y (List.mem_cons_of_mem x hy)) hout.1

theorem visit_names {nodes : List String}
    (hclosed : ∀ name ∈ nodes, declaredTypes structs unions name ⊆ nodes) :
    ∀ (fuel : Nat) {stack : List String} {s : TopoSort.State String} {name : String},
      TopoSort.Searched (declaredTypes structs unions) nodes stack s →
      TopoSort.OnStack (declaredTypes structs unions) nodes stack name →
      nodes.length < stack.length + fuel →
      visit structs unions fuel s.emitted stack name
        = toNames (TopoSort.visit (declaredTypes structs unions) fuel stack s name) := by
  intro fuel
  induction fuel with
  | zero =>
    intro stack s name h hstack hfuel
    have hle := hstack.length_le
    omega
  | succ fuel ih =>
    intro stack s name h hstack hfuel
    unfold visit TopoSort.visit
    have hcontains : ∀ l : List String, l.contains name = true ↔ name ∈ l := fun l => by simp
    cases hmark : s.mark name with
    | some m =>
      cases m with
      | done =>
        rw [if_pos ((hcontains _).mpr ((h.done name).mp hmark))]
        rfl
      | visiting =>
        have hfresh : ¬ s.emitted.contains name = true := by
          rw [hcontains, ← h.done, hmark]
          intro hdone
          cases hdone
        rw [if_neg hfresh, if_pos ((hcontains _).mpr ((h.visiting name).mp hmark))]
        rfl
    | none =>
      obtain ⟨hoff, hnew⟩ := h.fresh hmark
      rw [if_neg (fun hmem => hnew ((hcontains _).mp hmem)),
        if_neg (fun hmem => hoff ((hcontains _).mp hmem))]
      -- the visits of the references, one by one
      have hfuel' : nodes.length < (stack ++ [name]).length + fuel := by
        rw [List.length_append, List.length_singleton]
        omega
      have hfold := @foldlM_names structs unions (stack ++ [name]) nodes
        (TopoSort.visit (declaredTypes structs unions) fuel (stack ++ [name]))
        (fun order t => visit structs unions fuel order (stack ++ [name]) t)
        (declaredTypes structs unions name) (s.set name .visiting)
        (fun s hs t ht =>
          have hpush := hstack.push hclosed hoff ht
          ⟨TopoSort.visit_outcome hclosed fuel hs hpush hfuel', ih hs hpush hfuel'⟩)
        (h.enter hmark)
      have hfilter : (declaredTypes structs unions name).foldlM
          (fun order t => visit structs unions fuel order (stack ++ [name]) t) s.emitted = _ :=
        List.foldlM_filter
      change (declaredTypes structs unions name).foldlM _ s.emitted = _ at hfold
      rw [hfilter] at hfold
      show ((referencedTypes structs unions name).foldlM _ s.emitted >>= _) = _
      rw [hfold]
      cases (declaredTypes structs unions name).foldlM
          (TopoSort.visit (declaredTypes structs unions) fuel (stack ++ [name]))
          (s.set name .visiting) with
      | error e => cases e <;> rfl
      | ok s' => rfl

/-- **The names are those of `topo_sort_types`.** -/
theorem topoSortTypes_eq (structs : Dict StructDecl) (unions : Dict UnionDecl) :
    topoSortTypes structs unions
      = toNames (TopoSort.sort (declaredTypes structs unions) (typeNames structs unions)) := by
  have hclosed : ∀ name ∈ typeNames structs unions,
      declaredTypes structs unions name ⊆ typeNames structs unions := fun name _ t ht =>
    mem_typeNames.mpr (mem_declaredTypes.mp ht).2
  have hlen : (typeNames structs unions).length = structs.length + unions.length := by
    rw [typeNames, List.length_append, List.length_map, List.length_map]
  refine @foldlM_names structs unions [] (typeNames structs unions) _ _ _ ⟨fun _ => none, []⟩
    (fun s hs name hname => ?_) TopoSort.searched_new
  have hfuel : (typeNames structs unions).length
      < ([] : List String).length + ((typeNames structs unions).length + 1) := by
    rw [List.length_nil]
    omega
  refine ⟨TopoSort.visit_outcome hclosed _ hs (TopoSort.onStack_nil hname) hfuel, ?_⟩
  rw [← hlen]
  exact visit_names hclosed _ hs (TopoSort.onStack_nil hname) hfuel

end ProtoEmb.Schema

import ProtoEmb.Codec.Writes

/-!
# Replacing the leaves of a value

`mapLeaves` keeps the shape of a value, so the layout of the result is the layout of
the value with its leaves replaced (`mapLeaves_layout`); the two succeed together.
Hence two maps give the same value exactly if they agree on every leaf of its layout
(`mapLeaves_eq_iff`): what a codec does to a whole value is decided leaf by leaf.

Each result is proved one level at a time, on the statements of the encoder of one
type, and then over the scope.

The lemmas are about the model alone. They let the encoders of two templates be compared leaf by
leaf, without going through their bodies again.
-/

namespace ProtoEmb.Codec

open ProtoEmb.Lib ProtoEmb.Schema

/-! ## One level: writes -/

/-- The statement with its leaf replaced. -/
def mapWrite (h : LeafMap) : Write → Option Write
  | .elem off scalar width e v => (h scalar e v).map (.elem off scalar width e ·)
  | w => some w

/-- All statements with their leaves replaced, if every leaf can be. -/
def mapWrites (h : LeafMap) : List Write → Option (List Write)
  | [] => some []
  | w :: ws => do
    let w' ← mapWrite h w
    let ws' ← mapWrites h ws
    return w' :: ws'

theorem mapWrites_append (h : LeafMap) (xs ys : List Write) :
    mapWrites h (xs ++ ys)
      = (mapWrites h xs).bind fun a => (mapWrites h ys).bind fun b => some (a ++ b) := by
  induction xs with
  | nil => simp [mapWrites]
  | cons w xs ih =>
    simp only [List.cons_append, mapWrites, ih, Option.bind_eq_bind, Option.pure_def]
    cases mapWrite h w <;> cases mapWrites h xs <;> cases mapWrites h ys <;> simp

section Writes

variable (g : LeafMap) (env : String → Value → Option Value)

/-- Replacing leaves keeps the length of an array. -/
theorem mapArray_length {e : Elem} :
    ∀ (vs : List Value) {ws : List Value}, mapArray g env e vs = some ws →
      ws.length = vs.length := by
  intro vs
  induction vs with
  | nil => intro ws h; cases h; rfl
  | cons v vs ih =>
    intro ws h
    simp only [mapArray, Option.bind_eq_bind, Option.bind_eq_some_iff, Option.pure_def,
      Option.some.injEq] at h
    obtain ⟨w, _, ws', hws', rfl⟩ := h
    rw [List.length_cons, List.length_cons, ih hws']

/-- For an array: replacing leaves before or after writing is the same. -/
theorem mapArray_writes (f : Field) :
    ∀ (vs : List Value) (i : Nat),
      (mapArray g env f.elem vs).map (writesArray f i)
        = mapWrites (mapElem g env) (writesArray f i vs) := by
  intro vs
  induction vs with
  | nil => intro i; rfl
  | cons v vs ih =>
    intro i
    simp only [mapArray, writesArray, mapWrites, mapWrite, ← ih (i + 1), Option.bind_eq_bind,
      Option.pure_def]
    cases mapElem g env false f.elem v <;> cases mapArray g env f.elem vs <;> simp [writesArray]

/-- For a field of any kind. -/
theorem mapField_writes {f : Field} {v : Value} {ws : List Write}
    (h : writesField f v = some ws) :
    (mapField g env f v).map (writesField f) = (mapWrites (mapElem g env) ws).map some := by
  unfold writesField at h
  unfold mapField
  by_cases harr : f.isArray = true
  · rw [if_pos harr] at h ⊢
    split at h
    next vs =>
      split at h
      next hlen =>
        cases h
        rw [← mapArray_writes]
        simp only [Option.bind_eq_bind, Option.pure_def]
        cases hm : mapArray g env f.elem vs with
        | none => rfl
        | some ws =>
          have hl := mapArray_length g env vs hm
          simp [writesField, harr, hl, hlen]
      next => cases h
    next => cases h
  · rw [if_neg harr] at h ⊢
    by_cases hopt : f.isOptional = true
    · rw [if_pos hopt] at h ⊢
      split at h
      next =>
        cases h
        simp [writesField, harr, hopt, mapWrites, mapWrite]
      next v =>
        cases h
        simp only [mapWrites, mapWrite, Option.bind_eq_bind, Option.pure_def]
        cases mapElem g env false f.elem v <;> simp [writesField, harr, hopt]
      next => cases h
    · rw [if_neg hopt] at h ⊢
      cases h
      simp only [mapWrites, mapWrite, Option.bind_eq_bind, Option.pure_def]
      cases mapElem g env true f.elem v <;> simp [writesField, harr, hopt]

/-- For the fields of a struct. -/
theorem mapFields_writes :
    ∀ (fs : List Field) {vs : List Value} {ws : List Write}, writesFields fs vs = some ws →
      (mapFields g env fs vs).map (writesFields fs)
        = (mapWrites (mapElem g env) ws).map some := by
  intro fs
  induction fs with
  | nil =>
    intro vs ws h
    cases vs with
    | nil => cases h; rfl
    | cons v vs => cases h
  | cons f fs ih =>
    intro vs ws h
    cases vs with
    | nil => cases h
    | cons v vs =>
      simp only [writesFields, Option.bind_eq_bind, Option.bind_eq_some_iff, Option.pure_def,
        Option.some.injEq] at h
      obtain ⟨w, hw, ws', hws', rfl⟩ := h
      rw [mapWrites_append]
      refine map_bind_together (mapField_writes g env hw) (ih hws') ?_
      intro p q p' q' hp hq
      simp only [writesFields, hp, hq, Option.bind_eq_bind, Option.bind_some, Option.pure_def]

/-- The writes of a value with its leaves replaced. -/
theorem mapType_writes {t : TypeDef} {v : Value} {ws : List Write} (h : writes t v = some ws) :
    (mapType g env t v).map (writes t) = (mapWrites (mapElem g env) ws).map some := by
  unfold writes at h
  split at h
  next s vs =>
    have hf := mapFields_writes g env s.fields h
    rw [← hf]
    simp only [mapType, Option.bind_eq_bind, Option.pure_def]
    cases mapFields g env s.fields vs <;> simp [writes]
  next u tag v =>
    split at h
    next w hw =>
      cases h
      simp only [mapType, hw, mapWrites, mapWrite, Option.bind_eq_bind, Option.pure_def]
      cases mapElem g env false w.elem v <;> simp [writes, hw]
    next => cases h
  next => cases h

end Writes

/-! ## The layout -/

/-- A chunk of the layout with its leaf replaced. -/
def mapChunk (g : LeafMap) : Chunk → Option Chunk
  | .leaf scalar e v => (g scalar e v).map (.leaf scalar e ·)
  | c => some c

/-- The layout with its leaves replaced, if every leaf can be. -/
def mapChunks (g : LeafMap) : List Chunk → Option (List Chunk)
  | [] => some []
  | c :: cs => do
    let c' ← mapChunk g c
    let cs' ← mapChunks g cs
    return c' :: cs'

theorem mapChunks_append (g : LeafMap) (xs ys : List Chunk) :
    mapChunks g (xs ++ ys)
      = (mapChunks g xs).bind fun a => (mapChunks g ys).bind fun b => some (a ++ b) := by
  induction xs with
  | nil => simp [mapChunks]
  | cons c xs ih =>
    simp only [List.cons_append, mapChunks, ih, Option.bind_eq_bind, Option.pure_def]
    cases mapChunk g c <;> cases mapChunks g xs <;> cases mapChunks g ys <;> simp

section Layout

variable (g : LeafMap)

/-- A list of writes, given the statement for the nested types. -/
theorem mapWrites_layout {scope : Scope}
    (ih : ∀ {m v cs}, layout scope m v = some cs →
      (mapLeaves g scope m v).map (layout scope m) = (mapChunks g cs).map some) :
    ∀ (ws : List Write) {cs : List Chunk}, layoutWrites (layout scope) ws = some cs →
      (mapWrites (mapElem g (mapLeaves g scope)) ws).map (layoutWrites (layout scope))
        = (mapChunks g cs).map some := by
  intro ws
  induction ws with
  | nil => intro cs h; cases h; rfl
  | cons w ws ihs =>
    intro cs h
    simp only [layoutWrites, Option.bind_eq_bind, Option.bind_eq_some_iff, Option.pure_def,
      Option.some.injEq] at h
    obtain ⟨c, hc, cs', hcs', rfl⟩ := h
    have hrest := ihs hcs'
    have hfirst : (mapWrite (mapElem g (mapLeaves g scope)) w).map (layoutWrite (layout scope))
        = (mapChunks g c).map some := by
      cases w with
      | elem off s k e v =>
        simp only [layoutWrite, layoutElem, mapWrite, mapElem] at hc ⊢
        by_cases hn : e.isNested = true
        · rw [if_pos hn] at hc ⊢
          rw [← ih hc]
          cases mapLeaves g scope e.type v <;> simp [layoutWrite, layoutElem, hn]
        · rw [if_neg hn] at hc ⊢
          cases hc
          simp only [mapChunks, mapChunk, Option.bind_eq_bind, Option.pure_def]
          cases g s e v <;> simp [layoutWrite, layoutElem, hn]
      | _ => cases hc; rfl
    rw [mapChunks_append]
    refine map_bind_together hfirst hrest ?_
    intro p q p' q' hp hq
    simp only [layoutWrites, hp, hq, Option.bind_eq_bind, Option.bind_some, Option.pure_def]

/-- **The layout of a value with its leaves replaced** is its layout with the leaves
replaced, and the one exists exactly if the other does. -/
theorem mapLeaves_layout :
    ∀ (scope : Scope) {name : String} {v : Value} {cs : List Chunk},
      layout scope name v = some cs →
      (mapLeaves g scope name v).map (layout scope name) = (mapChunks g cs).map some := by
  intro scope
  induction scope with
  | nil => intro name v cs h; cases h
  | cons entry rest ih =>
    intro name v cs h
    obtain ⟨n, t⟩ := entry
    by_cases hname : name = n
    · subst hname
      rw [layout, resolve_head] at h ⊢
      rw [mapLeaves, resolve_head]
      have h' : layoutType (layout rest) t v = some cs := h
      rw [layoutType_eq, Option.bind_eq_some_iff] at h'
      obtain ⟨ws, hws, hcs⟩ := h'
      have hmap := mapType_writes g (mapLeaves g rest) hws
      have hlay := mapWrites_layout g ih ws hcs
      show (mapType g (mapLeaves g rest) t v).map (layoutType (layout rest) t) = _
      -- both sides are the layout of the mapped writes
      cases hm : mapType g (mapLeaves g rest) t v with
      | none =>
        rw [hm] at hmap
        cases hx : mapWrites (mapElem g (mapLeaves g rest)) ws with
        | none => rw [hx] at hlay; exact hlay
        | some x => rw [hx] at hmap; cases hmap
      | some w =>
        rw [hm] at hmap
        cases hx : mapWrites (mapElem g (mapLeaves g rest)) ws with
        | none => rw [hx] at hmap; cases hmap
        | some x =>
          rw [hx] at hmap hlay
          simp only [Option.map_some, Option.some.injEq] at hmap
          rw [← hlay, Option.map_some, Option.map_some, layoutType_eq, hmap, Option.bind_some]
    · rw [layout, resolve_tail t rest hname] at h ⊢
      rw [mapLeaves, resolve_tail t rest hname]
      exact ih h

end Layout

/-! ## Facts about leaves -/

/-- The leaves of a layout. -/
def AllLeaves (P : Bool → Elem → Value → Prop) (cs : List Chunk) : Prop :=
  ∀ s e v, .leaf s e v ∈ cs → P s e v

/-- What `AllLeaves` says of one part. -/
def Chunk.OnLeaf (P : Bool → Elem → Value → Prop) : Chunk → Prop
  | .leaf s e v => P s e v
  | _ => True

instance (P : Bool → Elem → Value → Prop) [∀ s e v, Decidable (P s e v)] :
    (c : Chunk) → Decidable (c.OnLeaf P)
  | .leaf s e v => inferInstanceAs (Decidable (P s e v))
  | .flag _ | .tag _ _ | .pad _ => inferInstanceAs (Decidable True)

/-- Every leaf of a layout is a leaf of one of its chunks. -/
theorem allLeaves_iff {P : Bool → Elem → Value → Prop} {cs : List Chunk} :
    AllLeaves P cs ↔ ∀ c ∈ cs, c.OnLeaf P := by
  constructor
  · intro h c hc
    cases c with
    | leaf s e v => exact h s e v hc
    | _ => trivial
  · intro h s e v hl
    exact h _ hl

instance (P : Bool → Elem → Value → Prop) [∀ s e v, Decidable (P s e v)] (cs : List Chunk) :
    Decidable (AllLeaves P cs) :=
  decidable_of_iff (∀ c ∈ cs, c.OnLeaf P) allLeaves_iff.symm

section AllLeaves

variable {g : LeafMap} {scope : Scope} {name : String} {v : Value} {cs : List Chunk}

/-- The replacement succeeds exactly if it does on every leaf. -/
theorem mapChunks_some_iff {cs : List Chunk} :
    (∃ ds, mapChunks g cs = some ds) ↔ AllLeaves (fun s e v => ∃ w, g s e v = some w) cs := by
  induction cs with
  | nil => exact ⟨fun _ s e v h => absurd h List.not_mem_nil, fun _ => ⟨[], rfl⟩⟩
  | cons c cs ih =>
    simp only [mapChunks, Option.bind_eq_bind, Option.bind_eq_some_iff, Option.pure_def,
      Option.some.injEq]
    constructor
    · rintro ⟨ds, c', hc', cs', hcs', rfl⟩ s e v hmem
      rcases List.mem_cons.mp hmem with heq | hmem
      · subst heq
        simp only [mapChunk, Option.map_eq_some_iff] at hc'
        obtain ⟨w, hw, -⟩ := hc'
        exact ⟨w, hw⟩
      · exact ih.mp ⟨cs', hcs'⟩ s e v hmem
    · intro h
      obtain ⟨cs', hcs'⟩ := ih.mpr fun s e v hmem => h s e v (List.mem_cons_of_mem _ hmem)
      have hc : ∃ c', mapChunk g c = some c' := by
        cases c with
        | leaf s e v =>
          obtain ⟨w, hw⟩ := h s e v (List.mem_cons_self ..)
          exact ⟨_, by rw [mapChunk, hw]; rfl⟩
        | _ => exact ⟨_, rfl⟩
      obtain ⟨c', hc'⟩ := hc
      exact ⟨c' :: cs', c', hc', cs', hcs', rfl⟩

/-- A map defined on every leaf gives a value. -/
theorem mapLeaves_isSome (h : layout scope name v = some cs)
    (hg : AllLeaves (fun s e v => ∃ w, g s e v = some w) cs) :
    ∃ w, mapLeaves g scope name v = some w := by
  obtain ⟨ds, hds⟩ := mapChunks_some_iff.mpr hg
  have hlay := mapLeaves_layout g scope h
  rw [hds] at hlay
  cases hm : mapLeaves g scope name v with
  | none => rw [hm] at hlay; cases hlay
  | some w => exact ⟨w, rfl⟩

/-- The layout of the result. -/
theorem layout_of_mapLeaves {w : Value} (h : layout scope name v = some cs)
    (hm : mapLeaves g scope name v = some w) :
    ∃ ds, mapChunks g cs = some ds ∧ layout scope name w = some ds := by
  have hlay := mapLeaves_layout g scope h
  rw [hm, Option.map_some] at hlay
  cases hx : mapChunks g cs with
  | none => rw [hx] at hlay; cases hlay
  | some ds =>
    rw [hx, Option.map_some, Option.some.injEq] at hlay
    exact ⟨ds, rfl, hlay⟩

end AllLeaves

/-! ## Maps that agree on the leaves -/

/-- The elements of a list of writes. -/
def AllElems (P : Bool → Elem → Value → Prop) (ws : List Write) : Prop :=
  ∀ off s k e v, .elem off s k e v ∈ ws → P s e v

theorem allElems_append {P : Bool → Elem → Value → Prop} {xs ys : List Write} :
    AllElems P (xs ++ ys) ↔ AllElems P xs ∧ AllElems P ys := by
  constructor
  · intro h
    exact ⟨fun off s k e v hm => h off s k e v (List.mem_append_left _ hm),
      fun off s k e v hm => h off s k e v (List.mem_append_right _ hm)⟩
  · rintro ⟨hx, hy⟩ off s k e v hm
    rcases List.mem_append.mp hm with hm | hm
    · exact hx off s k e v hm
    · exact hy off s k e v hm

section Congr

variable {g g' : LeafMap} {env env' : String → Value → Option Value}

/-- Two maps that agree on the elements of an array agree on it. -/
theorem mapArray_congr (f : Field) :
    ∀ (vs : List Value) (i : Nat),
      AllElems (fun s e v => mapElem g env s e v = mapElem g' env' s e v) (writesArray f i vs) →
      mapArray g env f.elem vs = mapArray g' env' f.elem vs := by
  intro vs
  induction vs with
  | nil => intro i _; rfl
  | cons v vs ih =>
    intro i h
    have hfirst := h _ _ _ _ _ (List.mem_cons_self ..)
    have hrest := ih (i + 1) fun off s k e v hm => h off s k e v (List.mem_cons_of_mem _ hm)
    simp only [mapArray, hfirst, hrest]

/-- Two maps that agree on what a field writes agree on the field. -/
theorem mapField_congr {f : Field} {v : Value} {ws : List Write} (h : writesField f v = some ws)
    (hall : AllElems (fun s e v => mapElem g env s e v = mapElem g' env' s e v) ws) :
    mapField g env f v = mapField g' env' f v := by
  unfold writesField at h
  unfold mapField
  by_cases harr : f.isArray = true
  · rw [if_pos harr] at h ⊢
    rw [if_pos harr]
    split at h
    next vs =>
      split at h
      next =>
        cases h
        simp only [mapArray_congr f vs 0 hall]
      next => cases h
    next => cases h
  · rw [if_neg harr] at h ⊢
    rw [if_neg harr]
    by_cases hopt : f.isOptional = true
    · rw [if_pos hopt] at h ⊢
      rw [if_pos hopt]
      split at h
      next => rfl
      next v =>
        cases h
        have he := hall _ _ _ _ _ (List.mem_cons_of_mem _ (List.mem_cons_self ..))
        simp only [he]
      next => cases h
    · rw [if_neg hopt] at h ⊢
      rw [if_neg hopt]
      cases h
      exact hall _ _ _ _ _ (List.mem_cons_self ..)

/-- So for the fields of a struct. -/
theorem mapFields_congr :
    ∀ (fs : List Field) {vs : List Value} {ws : List Write}, writesFields fs vs = some ws →
      AllElems (fun s e v => mapElem g env s e v = mapElem g' env' s e v) ws →
      mapFields g env fs vs = mapFields g' env' fs vs := by
  intro fs
  induction fs with
  | nil => intro vs ws _ _; cases vs <;> rfl
  | cons f fs ih =>
    intro vs ws h hall
    cases vs with
    | nil => rfl
    | cons v vs =>
      simp only [writesFields, Option.bind_eq_bind, Option.bind_eq_some_iff, Option.pure_def,
        Option.some.injEq] at h
      obtain ⟨w, hw, ws', hws', rfl⟩ := h
      obtain ⟨h₁, h₂⟩ := allElems_append.mp hall
      simp only [mapFields, mapField_congr hw h₁, ih hws' h₂]

/-- And for a type of either kind. -/
theorem mapType_congr {t : TypeDef} {v : Value} {ws : List Write} (h : writes t v = some ws)
    (hall : AllElems (fun s e v => mapElem g env s e v = mapElem g' env' s e v) ws) :
    mapType g env t v = mapType g' env' t v := by
  unfold writes at h
  split at h
  next s vs => simp only [mapType, mapFields_congr s.fields h hall]
  next u tag v =>
    split at h
    next w hw =>
      cases h
      have he := hall _ _ _ _ _ (List.mem_cons_of_mem _ (List.mem_cons_self ..))
      simp only [mapType, hw, he]
    next => cases h
  next => cases h

end Congr

/-- Nothing replaced, nothing changed. -/
theorem mapType_id {t : TypeDef} {v : Value} {ws : List Write} (h : writes t v = some ws) :
    mapType (fun _ _ v => some v) (fun _ v => some v) t v = some v := by
  have harr : ∀ (e : Elem) (vs : List Value),
      mapArray (fun _ _ v => some v) (fun _ v => some v) e vs = some vs := by
    intro e vs
    induction vs with
    | nil => rfl
    | cons v vs ih => simp [mapArray, mapElem, ih]
  -- a field whose value has the wrong shape has no statements
  have hfield : ∀ {f : Field} {v : Value} {ws : List Write}, writesField f v = some ws →
      mapField (fun _ _ v => some v) (fun _ v => some v) f v = some v := by
    intro f v ws h
    unfold writesField at h
    unfold mapField
    by_cases ha : f.isArray = true
    · rw [if_pos ha] at h ⊢
      cases v <;> simp_all
    · rw [if_neg ha] at h ⊢
      by_cases ho : f.isOptional = true
      · rw [if_pos ho] at h ⊢
        cases v <;> simp_all [mapElem]
      · rw [if_neg ho]
        simp [mapElem]
  have hfields : ∀ (fs : List Field) {vs : List Value} {ws : List Write},
      writesFields fs vs = some ws →
      mapFields (fun _ _ v => some v) (fun _ v => some v) fs vs = some vs := by
    intro fs
    induction fs with
    | nil =>
      intro vs ws h
      cases vs with
      | nil => rfl
      | cons v vs => cases h
    | cons f fs ih =>
      intro vs ws h
      cases vs with
      | nil => cases h
      | cons v vs =>
        simp only [writesFields, Option.bind_eq_bind, Option.bind_eq_some_iff, Option.pure_def,
          Option.some.injEq] at h
        obtain ⟨w, hw, ws', hws', rfl⟩ := h
        simp [mapFields, hfield hw, ih hws']
  unfold writes at h
  split at h
  next s vs => simp [mapType, hfields s.fields h]
  next u tag v =>
    split at h
    next w hw => simp [mapType, hw, mapElem]
    next => cases h
  next => cases h

/-! ## Replacing leaves throughout a value -/

/-- What holds of the leaves of a layout holds of the elements of the writes, given the
same for the nested types. -/
theorem allElems_of_leaves {scope : Scope} {P : Bool → Elem → Value → Prop}
    {Q : String → Value → Prop}
    (ih : ∀ {m v cs}, layout scope m v = some cs → AllLeaves P cs → Q m v) :
    ∀ (ws : List Write) {cs : List Chunk}, layoutWrites (layout scope) ws = some cs →
      AllLeaves P cs →
      AllElems (fun s e v => if e.isNested then Q e.type v else P s e v) ws := by
  intro ws
  induction ws with
  | nil => intro cs _ _ off s k e v hm; exact absurd hm List.not_mem_nil
  | cons w ws ihs =>
    intro cs h hall off s k e v hm
    simp only [layoutWrites, Option.bind_eq_bind, Option.bind_eq_some_iff, Option.pure_def,
      Option.some.injEq] at h
    obtain ⟨c, hc, cs', hcs', rfl⟩ := h
    rcases List.mem_cons.mp hm with rfl | hm
    · simp only [layoutWrite, layoutElem] at hc
      split at hc
      next hn =>
        rw [if_pos hn]
        exact ih hc fun s e v hl => hall s e v (List.mem_append_left _ hl)
      next hn =>
        cases hc
        rw [if_neg hn]
        exact hall s e v (List.mem_append_left _ (List.mem_cons_self ..))
    · exact ihs hcs' (fun s e v hl => hall s e v (List.mem_append_right _ hl)) off s k e v hm

/-- A type of the scope: its writes, and the elements of these. -/
theorem layout_head {n : String} {t : TypeDef} {rest : Scope} {v : Value} {cs : List Chunk}
    (h : layout ((n, t) :: rest) n v = some cs) :
    ∃ ws, writes t v = some ws ∧ layoutWrites (layout rest) ws = some cs := by
  rw [layout, resolve_head] at h
  have h' : layoutType (layout rest) t v = some cs := h
  rw [layoutType_eq, Option.bind_eq_some_iff] at h'
  exact h'

section Leafwise

variable {g g' : LeafMap} {name : String} {v : Value} {cs : List Chunk}

/-- Maps that agree on the leaves of a value agree on the value. -/
theorem mapLeaves_congr :
    ∀ (scope : Scope) {name : String} {v : Value} {cs : List Chunk},
      layout scope name v = some cs → AllLeaves (fun s e v => g s e v = g' s e v) cs →
      mapLeaves g scope name v = mapLeaves g' scope name v := by
  intro scope
  induction scope with
  | nil => intro name v cs h; cases h
  | cons entry rest ih =>
    intro name v cs h hall
    obtain ⟨n, t⟩ := entry
    by_cases hname : name = n
    · subst hname
      obtain ⟨ws, hws, hcs⟩ := layout_head h
      rw [mapLeaves, resolve_head, mapLeaves, resolve_head]
      refine mapType_congr hws fun off s k e v hm => ?_
      have he := allElems_of_leaves ih ws hcs hall off s k e v hm
      beta_reduce at he ⊢
      unfold mapElem
      split at he
      next hn => rw [if_pos hn, if_pos hn]; exact he
      next hn => rw [if_neg hn, if_neg hn]; exact he
    · rw [layout, resolve_tail t rest hname] at h
      rw [mapLeaves, resolve_tail t rest hname, mapLeaves, resolve_tail t rest hname]
      exact ih h hall

/-- A map that fixes every leaf fixes the value. -/
theorem mapLeaves_self :
    ∀ (scope : Scope) {name : String} {v : Value} {cs : List Chunk},
      layout scope name v = some cs → AllLeaves (fun s e v => g s e v = some v) cs →
      mapLeaves g scope name v = some v := by
  intro scope
  induction scope with
  | nil => intro name v cs h; cases h
  | cons entry rest ih =>
    intro name v cs h hall
    obtain ⟨n, t⟩ := entry
    by_cases hname : name = n
    · subst hname
      obtain ⟨ws, hws, hcs⟩ := layout_head h
      rw [mapLeaves, resolve_head]
      refine (mapType_congr hws fun off s k e v hm => ?_).trans (mapType_id hws)
      have he := allElems_of_leaves ih ws hcs hall off s k e v hm
      beta_reduce at he ⊢
      unfold mapElem
      split at he
      next hn => rw [if_pos hn, if_pos hn]; exact he
      next hn => rw [if_neg hn, if_neg hn]; exact he
    · rw [layout, resolve_tail t rest hname] at h
      rw [mapLeaves, resolve_tail t rest hname]
      exact ih h hall

/-- Two maps with one result agree on every leaf. -/
theorem mapChunks_inj {ds : List Chunk} (h : mapChunks g cs = some ds)
    (h' : mapChunks g' cs = some ds) : AllLeaves (fun s e v => g s e v = g' s e v) cs := by
  induction cs generalizing ds with
  | nil => intro s e v hm; exact absurd hm List.not_mem_nil
  | cons c cs ih =>
    simp only [mapChunks, Option.bind_eq_bind, Option.bind_eq_some_iff, Option.pure_def,
      Option.some.injEq] at h h'
    obtain ⟨c₁, hc₁, cs₁, hcs₁, rfl⟩ := h
    obtain ⟨c₂, hc₂, cs₂, hcs₂, heq⟩ := h'
    obtain ⟨rfl, rfl⟩ := List.cons.inj heq
    intro s e v hm
    rcases List.mem_cons.mp hm with rfl | hm
    · simp only [mapChunk, Option.map_eq_some_iff] at hc₁ hc₂
      obtain ⟨x, hx, rfl⟩ := hc₁
      obtain ⟨y, hy, hxy⟩ := hc₂
      rw [hx, hy]
      simpa using hxy.symm
    · exact ih hcs₁ hcs₂ s e v hm

/-- **Two maps give the same value exactly if they agree on every leaf.** -/
theorem mapLeaves_eq_iff {scope : Scope} {w : Value} (h : layout scope name v = some cs)
    (hg' : mapLeaves g' scope name v = some w) :
    mapLeaves g scope name v = some w ↔ AllLeaves (fun s e v => g s e v = g' s e v) cs := by
  constructor
  · intro hg
    obtain ⟨ds, hds, hw⟩ := layout_of_mapLeaves h hg
    obtain ⟨ds', hds', hw'⟩ := layout_of_mapLeaves h hg'
    rw [hw, Option.some.injEq] at hw'
    subst hw'
    exact mapChunks_inj hds hds'
  · intro hall
    rw [mapLeaves_congr scope h hall, hg']

/-- The value comes back exactly if every leaf does. -/
theorem mapLeaves_eq_self_iff {scope : Scope} (h : layout scope name v = some cs) :
    mapLeaves g scope name v = some v ↔ AllLeaves (fun s e v => g s e v = some v) cs :=
  mapLeaves_eq_iff h (mapLeaves_self (g := fun _ _ v => some v) scope h fun _ _ _ _ => rfl)

end Leafwise

/-! ## Composition -/

/-- First `g`, then `h`. -/
def LeafMap.comp (g h : LeafMap) : LeafMap := fun s e v => (g s e v).bind (h s e)

section Comp

variable (g h : LeafMap) (env env' : String → Value → Option Value)

/-- One map after the other on an element is their composition. -/
theorem mapElem_comp (s : Bool) (e : Elem) (v : Value) :
    (mapElem g env s e v).bind (mapElem h env' s e)
      = mapElem (g.comp h) (fun m v => (env m v).bind (env' m)) s e v := by
  unfold mapElem
  by_cases hn : e.isNested = true
  · simp only [if_pos hn]
  · simp only [if_neg hn, LeafMap.comp]

theorem mapArray_comp (e : Elem) (vs : List Value) :
    (mapArray g env e vs).bind (mapArray h env' e)
      = mapArray (g.comp h) (fun m v => (env m v).bind (env' m)) e vs := by
  induction vs with
  | nil => rfl
  | cons v vs ih =>
    simp only [mapArray, ← ih, ← mapElem_comp, Option.bind_eq_bind, Option.pure_def]
    cases mapElem g env false e v with
    | none => rfl
    | some w =>
      cases mapArray g env e vs with
      | none => cases hw : mapElem h env' false e w <;> simp [hw]
      | some ws => simp [mapArray]

/-- The composition on a field of any kind. -/
theorem mapField_comp (f : Field) (v : Value) :
    (mapField g env f v).bind (mapField h env' f)
      = mapField (g.comp h) (fun m v => (env m v).bind (env' m)) f v := by
  unfold mapField
  by_cases ha : f.isArray = true
  · simp only [if_pos ha]
    cases v with
    | array vs =>
      simp only [← mapArray_comp, Option.bind_eq_bind, Option.pure_def]
      cases mapArray g env f.elem vs <;> simp
    | _ => rfl
  · simp only [if_neg ha]
    by_cases ho : f.isOptional = true
    · simp only [if_pos ho]
      cases v with
      | present v =>
        simp only [← mapElem_comp, Option.bind_eq_bind, Option.pure_def]
        cases mapElem g env false f.elem v <;> simp
      | absent => rfl
      | _ => rfl
    · simp only [if_neg ho]
      exact mapElem_comp g h env env' true f.elem v

theorem mapFields_comp (fs : List Field) (vs : List Value) :
    (mapFields g env fs vs).bind (mapFields h env' fs)
      = mapFields (g.comp h) (fun m v => (env m v).bind (env' m)) fs vs := by
  induction fs generalizing vs with
  | nil => cases vs <;> rfl
  | cons f fs ih =>
    cases vs with
    | nil => rfl
    | cons v vs =>
      simp only [mapFields, ← ih, ← mapField_comp, Option.bind_eq_bind, Option.pure_def]
      cases mapField g env f v with
      | none => rfl
      | some w =>
        cases mapFields g env fs vs with
        | none => cases hw : mapField h env' f w <;> simp [hw]
        | some ws => simp [mapFields]

/-- The composition on a type of either kind. -/
theorem mapType_comp (t : TypeDef) (v : Value) :
    (mapType g env t v).bind (mapType h env' t)
      = mapType (g.comp h) (fun m v => (env m v).bind (env' m)) t v := by
  cases t with
  | struct s =>
    cases v with
    | struct vs =>
      simp only [mapType, ← mapFields_comp, Option.bind_eq_bind, Option.pure_def]
      cases mapFields g env s.fields vs <;> simp [mapType]
    | _ => rfl
  | union u =>
    cases v with
    | union tag v =>
      cases hw : u.variants[tag]? with
      | none => simp [mapType, hw]
      | some w =>
        simp only [mapType, hw, ← mapElem_comp, Option.bind_eq_bind, Option.pure_def]
        cases mapElem g env false w.elem v <;> simp [mapType, hw]
    | _ => rfl

/-- **Replacing leaves twice** replaces them by the composed map. -/
theorem mapLeaves_comp :
    ∀ (scope : Scope) (name : String) (v : Value),
      (mapLeaves g scope name v).bind (mapLeaves h scope name)
        = mapLeaves (g.comp h) scope name v := by
  intro scope
  induction scope with
  | nil => intro name v; rfl
  | cons entry rest ih =>
    intro name v
    obtain ⟨n, t⟩ := entry
    by_cases hname : name = n
    · subst hname
      simp only [mapLeaves, resolve_head]
      rw [mapType_comp]
      congr 1
      funext m v
      exact ih m v
    · simp only [mapLeaves, resolve_tail t rest hname]
      exact ih name v

end Comp

/-! ## The leaves of an accepted type -/

/-- An element of the schema: a leaf, and no string unless it is a field of its own. -/
structure InSchema (rnd : Rat → Rat) (ctx : Context) (isPacked s : Bool) (e : Elem) : Prop where
  leaf : e.Leaf rnd ctx isPacked
  not_string : s = false → e.isString = false

/-- **Every leaf of a value of an accepted type is an element of that type's schema.** -/
theorem layout_inSchema {rnd : Rat → Rat} {ctx : Context} {isPacked : Bool} :
    ∀ (scope : Scope) (name : String) (t : TypeDef), scope.lookup name = some t →
      scope.Accepted rnd ctx → t.isPacked = isPacked →
      ∀ {v : Value} {cs : List Chunk}, layout scope name v = some cs →
        AllLeaves (fun s e _ => InSchema rnd ctx isPacked s e) cs := by
  -- statement by statement; a nested value is the business of its own type
  have hwrites : ∀ (scope : Scope),
      (∀ {m t}, scope.lookup m = some t → t.isPacked = isPacked → ∀ {v cs},
        layout scope m v = some cs → AllLeaves (fun s e _ => InSchema rnd ctx isPacked s e) cs) →
      ∀ (ws : List Write) {cs : List Chunk}, (∀ w ∈ ws, w.Laid rnd ctx scope isPacked) →
        layoutWrites (layout scope) ws = some cs →
        AllLeaves (fun s e _ => InSchema rnd ctx isPacked s e) cs := by
    intro scope ih ws
    induction ws with
    | nil => intro cs _ h; cases h; intro s e v hm; exact absurd hm List.not_mem_nil
    | cons w ws ihs =>
      intro cs hlaid h s e v hm
      simp only [layoutWrites, Option.bind_eq_bind, Option.bind_eq_some_iff, Option.pure_def,
        Option.some.injEq] at h
      obtain ⟨c, hc, cs', hcs', rfl⟩ := h
      rcases List.mem_append.mp hm with hm | hm
      · cases w with
        | elem off s' k e' v' =>
          obtain ⟨_, he, hstr⟩ := hlaid _ (List.mem_cons_self ..)
          simp only [layoutWrite, layoutElem] at hc
          split at hc
          next hn =>
            obtain ⟨t, ht, hpk, _⟩ := he.nested hn
            exact ih ht hpk hc s e v hm
          next hn =>
            cases hc
            cases List.mem_singleton.mp hm
            exact ⟨he.leaf (by simpa using hn), hstr⟩
        | _ => cases hc; cases List.mem_singleton.mp hm
      · exact ihs (fun x hx => hlaid x (List.mem_cons_of_mem _ hx)) hcs' s e v hm
  refine scope_induction ?_ ?_
  · intro n t rest ih hacc hpk v cs h
    obtain ⟨ws, hws, hcs⟩ := layout_head h
    obtain ⟨_, hl⟩ := writes_contiguous hacc.laid.1 (hacc.valid _ (List.mem_cons_self ..)) hws
    rw [hpk] at hl
    exact hwrites rest (fun hm hpk _ _ h => ih _ _ hm hacc.tail hpk h) ws hl hcs
  · intro n t₀ rest m t hm ih hacc hpk v cs h
    rw [layout, resolve_tail t₀ rest hm] at h
    exact ih hacc.tail hpk h

/-- The leaves in the layout of a value are leaves of the schema. -/
theorem layout_leaves {rnd : Rat → Rat} {ctx : Context} {isPacked : Bool} (scope : Scope)
    (name : String) (t : TypeDef) (ht : scope.lookup name = some t)
    (hacc : scope.Accepted rnd ctx) (hpk : t.isPacked = isPacked) {v : Value} {cs : List Chunk}
    (h : layout scope name v = some cs) : AllLeaves (fun _ e _ => e.Leaf rnd ctx isPacked) cs :=
  fun s e v hl => (layout_inSchema scope name t ht hacc hpk h s e v hl).leaf

end ProtoEmb.Codec

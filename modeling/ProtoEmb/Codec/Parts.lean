import ProtoEmb.Codec.Leaves

/-!
# The parts a decoder visits

A decoder run on bytes that nobody encoded still goes through the fields of its type: it reads a
flag, and the value behind it if the flag is set; a tag, and the variant that has it. The
`*_decode` of `protocol.c.j2` and the decoders of `protocol.rs.j2` and `protocol.ts.j2` do so in
the same order, so one definition stands for all of them. `visit` is the list of what is read,
from the contents of the buffer alone, and `parts` the list of what could be read, over all
contents.

* `visit_subset`, `parts_within`: every part that is visited is one of these, and lies
  inside its type.
* `exists_visit`: every part is visited on some contents, and a leaf with whatever is
  wanted in it.

Contents are given cell by cell, a bit of a packed type or a byte of an aligned one.

Two things are left to the languages: whether a part can be read where it lies, and what its
bits are turned into (`Codec.Visits`). A tag that no variant has visits nothing, since C sets no
member then and Rust and TypeScript give up.
-/

namespace ProtoEmb.Codec

open ProtoEmb.Schema

/-- Something a decoder reads, at an offset from the start of the buffer. -/
inductive Part where
  | flag (off : Nat)
  | tag (off size : Nat)
  /-- the base of a nested type -/
  | nested (off : Nat)
  | leaf (off : Nat) (scalar : Bool) (width : Nat) (e : Elem)

namespace Part

/-- Where a part is read. -/
def off : Part → Nat
  | flag off | tag off _ | nested off | leaf off _ _ _ => off

/-- The cells that are read. -/
def width : Part → Nat
  | flag _ => 1
  | tag _ size => size
  | nested _ => 0
  | leaf _ _ width _ => width

end Part

/-- How the cells of an encoding are read. -/
structure Cells (α : Type) where
  /-- a set flag -/
  set : α
  flag : α → Bool
  tag : List α → Nat
  /-- how many tags there are of a size -/
  tags : Nat → Nat

namespace Cells

variable {α : Type}

/-- The cells read for a tag. -/
def read (look : Nat → α) (off size : Nat) : List α := (List.range size).map fun i => look (off + i)

/-- What is used of an encoding. -/
structure Lawful (C : Cells α) : Prop where
  set_flag : C.flag C.set = true
  tag_lt : ∀ l, C.tag l < C.tags l.length
  exists_tag : ∀ size j, j < C.tags size → ∃ l : List α, l.length = size ∧ C.tag l = j

end Cells

section Visit

variable {α : Type} (C : Cells α)

/-- A nested type is visited at its base, a leaf is read. -/
def visitElem (env : String → Nat → List Part) (base off : Nat) (scalar : Bool) (width : Nat)
    (e : Elem) : List Part :=
  if e.isNested then .nested (base + off) :: env e.type (base + off)
  else [.leaf (base + off) scalar width e]

/-- The elements of an array from element `i`, of `n` that are left. -/
def visitArray (env : String → Nat → List Part) (base : Nat) (f : Field) : Nat → Nat → List Part
  | 0, _ => []
  | n + 1, i =>
    visitElem env base (f.offset + i * f.elem.size) false f.elem.size f.elem
      ++ visitArray env base f n (i + 1)

/-- The value behind a flag is visited if the flag is set. -/
def visitField (flagAt : Nat → Bool) (env : String → Nat → List Part) (base : Nat) (f : Field) :
    List Part :=
  if f.isArray then visitArray env base f f.arrayLen 0
  else if f.isOptional then
    .flag (base + f.offset) ::
      if flagAt (base + f.offset) then visitElem env base f.valueOffset false f.elem.size f.elem
      else []
  else visitElem env base f.offset true f.size f.elem

/-- The variant that has the tag; none for a tag behind the last one. -/
def visitVariant (env : String → Nat → List Part) (base : Nat) (u : Union) (tag : Nat) :
    List Part :=
  match u.variants[tag]? with
  | some w => visitElem env base u.payloadOffset false w.elem.size w.elem
  | none => []

/-- What the decoder of one type visits, over those of the types it embeds. -/
def visitType (look : Nat → α) (env : String → Nat → List Part) (base : Nat) :
    TypeDef → List Part
  | .struct s => s.fields.flatMap (visitField (fun p => C.flag (look p)) env base)
  | .union u =>
    .tag base u.tagSize :: visitVariant env base u (C.tag (Cells.read look base u.tagSize))

/-- What the decoder of a type at a base offset reads of these contents. -/
def visit (look : Nat → α) : Scope → String → Nat → List Part :=
  resolve (fun _ => []) fun env t base => visitType C look env base t

/-- As `visitType`, with every flag set and every tag in turn. -/
def partsType (env : String → Nat → List Part) (base : Nat) : TypeDef → List Part
  | .struct s => s.fields.flatMap (visitField (fun _ => true) env base)
  | .union u =>
    .tag base u.tagSize :: (List.range (C.tags u.tagSize)).flatMap (visitVariant env base u)

/-- What it could read: behind every flag, and under every tag. -/
def parts : Scope → String → Nat → List Part :=
  resolve (fun _ => []) fun env t base => partsType C env base t

end Visit

/-! ## What is visited is a part -/

section Subset

variable {α : Type} {C : Cells α} {look : Nat → α} {env env' : String → Nat → List Part}
  {p : Part}

/-- More parts in the nested types are more parts here. -/
theorem visitElem_mono (henv : ∀ m base, ∀ p ∈ env m base, p ∈ env' m base) {base off : Nat}
    {s : Bool} {k : Nat} {e : Elem} (h : p ∈ visitElem env base off s k e) :
    p ∈ visitElem env' base off s k e := by
  unfold visitElem at h ⊢
  split at h
  next hn =>
    rw [if_pos hn]
    rcases List.mem_cons.mp h with rfl | h
    · exact List.mem_cons_self ..
    · exact List.mem_cons_of_mem _ (henv _ _ _ h)
  next hn =>
    rw [if_neg hn]
    exact h

theorem visitArray_mono (henv : ∀ m base, ∀ p ∈ env m base, p ∈ env' m base) {base : Nat}
    {f : Field} : ∀ (n i : Nat), p ∈ visitArray env base f n i →
      p ∈ visitArray env' base f n i := by
  intro n
  induction n with
  | zero => intro i h; exact h
  | succ n ih =>
    intro i h
    rcases List.mem_append.mp h with h | h
    · exact List.mem_append_left _ (visitElem_mono henv h)
    · exact List.mem_append_right _ (ih (i + 1) h)

/-- A field has the most parts when its flag is set. -/
theorem visitField_mono (henv : ∀ m base, ∀ p ∈ env m base, p ∈ env' m base)
    {flagAt : Nat → Bool} {base : Nat} {f : Field} (h : p ∈ visitField flagAt env base f) :
    p ∈ visitField (fun _ => true) env' base f := by
  unfold visitField at h ⊢
  by_cases ha : f.isArray = true
  · rw [if_pos ha] at h ⊢
    exact visitArray_mono henv _ _ h
  rw [if_neg ha] at h ⊢
  by_cases ho : f.isOptional = true
  · rw [if_pos ho] at h ⊢
    rcases List.mem_cons.mp h with rfl | h
    · exact List.mem_cons_self ..
    · refine List.mem_cons_of_mem _ ?_
      rw [if_pos rfl]
      split at h
      · exact visitElem_mono henv h
      · exact absurd h List.not_mem_nil
  · rw [if_neg ho] at h ⊢
    exact visitElem_mono henv h

theorem visitVariant_mono (henv : ∀ m base, ∀ p ∈ env m base, p ∈ env' m base) {base : Nat}
    {u : Union} {tag : Nat} (h : p ∈ visitVariant env base u tag) :
    p ∈ visitVariant env' base u tag := by
  unfold visitVariant at h ⊢
  split at h
  · exact visitElem_mono henv h
  · exact absurd h List.not_mem_nil

/-- **What is visited is one of the parts.** -/
theorem visit_subset (hC : C.Lawful) :
    ∀ (scope : Scope) (name : String) (base : Nat), p ∈ visit C look scope name base →
      p ∈ parts C scope name base := by
  intro scope
  induction scope generalizing p with
  | nil => intro name base h; exact h
  | cons entry rest ih =>
    intro name base h
    obtain ⟨n, t⟩ := entry
    by_cases hname : name = n
    · subst hname
      rw [visit, resolve_head] at h
      rw [parts, resolve_head]
      have henv : ∀ m base, ∀ p ∈ visit C look rest m base, p ∈ parts C rest m base :=
        fun m base p hp => ih m base hp
      cases t with
      | struct s =>
        obtain ⟨f, hf, hp⟩ := List.mem_flatMap.mp h
        exact List.mem_flatMap.mpr ⟨f, hf, visitField_mono henv hp⟩
      | union u =>
        rcases List.mem_cons.mp h with rfl | h
        · exact List.mem_cons_self ..
        · refine List.mem_cons_of_mem _ (List.mem_flatMap.mpr ⟨_, ?_, visitVariant_mono henv h⟩)
          have hlt := hC.tag_lt (Cells.read look base u.tagSize)
          rw [Cells.read, List.length_map, List.length_range] at hlt
          exact List.mem_range.mpr hlt
    · rw [visit, resolve_tail t rest hname] at h
      rw [parts, resolve_tail t rest hname]
      exact ih name base h

end Subset

/-! ## Where the parts lie -/

/-- The part lies between two cells; a leaf is read at its size and is an element of the
schema, and a tag that is not packed is a byte. -/
structure Part.Within (rnd : Rat → Rat) (ctx : Context) (isPacked : Bool) (lo hi : Nat)
    (p : Part) : Prop where
  lo_le : lo ≤ p.off
  le_hi : p.off + p.width ≤ hi
  leaf : ∀ off s k e, p = .leaf off s k e → k = e.size ∧ InSchema rnd ctx isPacked s e
  tag : ∀ off size, p = .tag off size → isPacked = false → size = 1

section Within

variable {rnd : Rat → Rat} {ctx : Context} {isPacked : Bool} {scope : Scope}
  {env : String → Nat → List Part} {lo hi : Nat} {p : Part}

/-- What lies inside a range lies inside a wider one. -/
theorem Part.Within.mono (h : p.Within rnd ctx isPacked lo hi) {lo' hi' : Nat} (hlo : lo' ≤ lo)
    (hhi : hi ≤ hi') : p.Within rnd ctx isPacked lo' hi' :=
  ⟨hlo.trans h.lo_le, h.le_hi.trans hhi, h.leaf, h.tag⟩

/-- A field of a struct: where it lies. -/
theorem fieldsLaid_mem :
    ∀ (fs : List Field) {off : Nat}, FieldsLaid rnd ctx scope isPacked off fs → ∀ f ∈ fs,
      ∃ o, f.Laid rnd ctx scope isPacked o ∧ off ≤ o ∧
        o + f.size ≤ off + (fs.map Field.size).sum := by
  intro fs
  induction fs with
  | nil => intro off _ f hf; exact absurd hf List.not_mem_nil
  | cons g fs ih =>
    intro off h f hf
    rw [List.map_cons, List.sum_cons]
    rcases List.mem_cons.mp hf with rfl | hf
    · exact ⟨off, h.1, le_rfl, by omega⟩
    · obtain ⟨o, hl, hlo, hhi⟩ := ih h.2 f hf
      exact ⟨o, hl, by omega, by omega⟩

/-- The nested types of the scope keep their parts inside. -/
def EnvWithin (rnd : Rat → Rat) (ctx : Context) (isPacked : Bool) (scope : Scope)
    (env : String → Nat → List Part) : Prop :=
  ∀ m t base, scope.lookup m = some t → t.isPacked = isPacked → ∀ p ∈ env m base,
    p.Within rnd ctx isPacked base (base + t.total)

/-- An element lies in its own room. -/
theorem visitElem_within (henv : EnvWithin rnd ctx isPacked scope env) {base off : Nat} {s : Bool}
    {k : Nat} {e : Elem} (he : e.Laid rnd ctx scope isPacked) (hk : k = e.size)
    (hs : s = false → e.isString = false) (h : p ∈ visitElem env base off s k e) :
    p.Within rnd ctx isPacked (base + off) (base + off + e.size) := by
  unfold visitElem at h
  split at h
  next hn =>
    rcases List.mem_cons.mp h with rfl | h
    · exact ⟨le_rfl, Nat.le_add_right .., (fun _ _ _ _ h => by cases h), fun _ _ h => by cases h⟩
    · obtain ⟨t, ht, hpk, hsize⟩ := he.nested hn
      rw [hsize]
      exact henv _ t _ ht hpk p h
  next hn =>
    cases List.mem_singleton.mp h
    refine ⟨le_rfl, ?_, ?_, fun _ _ h => by cases h⟩
    · show base + off + k ≤ base + off + e.size
      rw [hk]
    · intro o s' k' e' heq
      cases heq
      exact ⟨hk, he.leaf (by simpa using hn), hs⟩

/-- The elements of an array lie in the room of the array. -/
theorem visitArray_within (henv : EnvWithin rnd ctx isPacked scope env) {base : Nat} {f : Field}
    (he : f.elem.Laid rnd ctx scope isPacked) (hs : f.elem.isString = false) :
    ∀ (n i : Nat), p ∈ visitArray env base f n i →
      p.Within rnd ctx isPacked (base + (f.offset + i * f.elem.size))
        (base + (f.offset + (i + n) * f.elem.size)) := by
  intro n
  induction n with
  | zero => intro i h; exact absurd h List.not_mem_nil
  | succ n ih =>
    intro i h
    have hnext : (i + 1) * f.elem.size = i * f.elem.size + f.elem.size := Nat.succ_mul ..
    have hlast : (i + (n + 1)) * f.elem.size = (i + 1) * f.elem.size + n * f.elem.size := by
      rw [← Nat.add_mul]
      congr 1
      omega
    rcases List.mem_append.mp h with h | h
    · apply (visitElem_within henv he rfl (fun _ => hs) h).mono le_rfl
      omega
    · have hlast' : (i + 1 + n) * f.elem.size = (i + (n + 1)) * f.elem.size := by
        congr 1
        omega
      apply (ih (i + 1) h).mono
      · omega
      · rw [hlast']

/-- A field lies in its room, whatever its flag is. -/
theorem visitField_within (henv : EnvWithin rnd ctx isPacked scope env) {base off : Nat}
    {f : Field} (hf : f.Laid rnd ctx scope isPacked off) (hv : f.Valid)
    {flagAt : Nat → Bool} (h : p ∈ visitField flagAt env base f) :
    p.Within rnd ctx isPacked (base + off) (base + off + f.size) := by
  have hsize := hf.size_eq
  have hoff := hf.offset_eq
  unfold visitField at h
  by_cases ha : f.isArray = true
  · rw [if_pos ha] at h
    have hvalid := hv.array (hf.array_eq ▸ ha)
    have hopt : f.isOptional = false := hf.optional_eq.trans hvalid.1
    rw [Field.flagSize, hopt, if_neg Bool.false_ne_true, Nat.zero_add] at hsize
    apply (visitArray_within henv hf.elem hvalid.2 _ _ h).mono
    · omega
    · rw [Nat.zero_add, hsize, hoff, Nat.mul_comm f.arrayLen]
      omega
  rw [if_neg ha] at h
  have hone : f.arrayLen = 1 := hf.single (by simpa using ha)
  rw [hone, Nat.mul_one] at hsize
  by_cases ho : f.isOptional = true
  · have hval := hf.value_eq
    rw [Field.flagSize, if_pos ho] at hsize hval
    rw [if_pos ho] at h
    rcases List.mem_cons.mp h with rfl | h
    · refine ⟨?_, ?_, (fun _ _ _ _ h => by cases h), fun _ _ h => by cases h⟩
      · show base + off ≤ base + f.offset
        omega
      · show base + f.offset + 1 ≤ base + off + f.size
        omega
    · -- the value lies behind its flag, inside the field
      split at h
      · apply (visitElem_within henv hf.elem rfl
          (fun _ => hv.optional (hf.optional_eq ▸ ho)) h).mono
        · omega
        · omega
      · exact absurd h List.not_mem_nil
  · rw [if_neg ho] at h
    rw [Field.flagSize, if_neg ho, Nat.zero_add] at hsize
    apply (visitElem_within henv hf.elem hsize (fun h => by cases h) h).mono
    · omega
    · omega

/-- The active variant lies behind the tag, inside the union. -/
theorem visitVariant_within (henv : EnvWithin rnd ctx isPacked scope env) {base : Nat} {u : Union}
    (hu : u.Laid rnd ctx) (hpk : u.isPacked = isPacked) (hv : ∀ w ∈ u.variants, w.Valid)
    {tag : Nat} (h : p ∈ visitVariant env base u tag) :
    p.Within rnd ctx isPacked (base + u.tagSize) (base + u.total) := by
  unfold visitVariant at h
  split at h
  next w hw =>
    have hmem : w ∈ u.variants := List.mem_of_getElem? hw
    obtain ⟨hlaid, hstr⟩ := hu.variant hv hmem scope
    have hpay := hu.payload_eq
    have hfits := hu.fits w hmem
    apply (visitElem_within henv (hpk ▸ hlaid) rfl (fun _ => hstr) h).mono
    · omega
    · omega
  next => exact absurd h List.not_mem_nil

end Within

/-- **The parts of an accepted type lie inside it.** -/
theorem parts_within {α : Type} {C : Cells α} {rnd : Rat → Rat} {ctx : Context}
    {isPacked : Bool} :
    ∀ (scope : Scope) (name : String) (t : TypeDef), scope.lookup name = some t →
      scope.Accepted rnd ctx → t.isPacked = isPacked → ∀ base, ∀ p ∈ parts C scope name base,
        p.Within rnd ctx isPacked base (base + t.total) := by
  refine scope_induction ?_ ?_
  · intro n t rest ih hacc hpk base p h
    rw [parts, resolve_head] at h
    have henv : EnvWithin rnd ctx isPacked rest (parts C rest) :=
      fun m t' b hm hpk' p hp => ih m t' hm hacc.tail hpk' b p hp
    have hlaid := hacc.laid.1
    have hvalid := hacc.valid _ (List.mem_cons_self ..)
    cases t with
    | struct s =>
      obtain ⟨f, hf, hp⟩ := List.mem_flatMap.mp h
      have hs : s.Laid rnd ctx rest := hlaid
      obtain ⟨o, hl, hlo, hhi⟩ := fieldsLaid_mem s.fields hs.fields f hf
      have hpk' : s.isPacked = isPacked := hpk
      rw [hpk'] at hl
      apply (visitField_within henv hl (hvalid f hf) hp).mono
      · omega
      · show base + o + f.size ≤ base + s.total
        rw [hs.total_eq]
        omega
    | union u =>
      have hu : u.Laid rnd ctx := hlaid
      rcases List.mem_cons.mp h with rfl | h
      · have hpay := hu.payload_eq
        have hle := hu.payload_le
        refine ⟨le_rfl, ?_, (fun _ _ _ _ h => by cases h), ?_⟩
        · show base + u.tagSize ≤ base + u.total
          omega
        · intro off size heq hnot
          cases heq
          have hnot' : u.isPacked = false := hpk.trans hnot
          rw [Union.tagSize, hnot']
          rfl
      · obtain ⟨tag, _, hp⟩ := List.mem_flatMap.mp h
        apply (visitVariant_within henv hu hpk hvalid hp).mono
        · omega
        · exact le_rfl
  · intro n t₀ rest m t hm ih hacc hpk base p h
    rw [parts, resolve_tail t₀ rest hm] at h
    exact ih hacc.tail hpk base p h

/-! ## Every part is visited -/

/-- Some contents of the cells from `lo` to `hi` have the part visited, whatever is wanted
in its own cells. -/
def Reaches {α : Type} (lo hi : Nat) (visited : (Nat → α) → List Part) (p : Part) : Prop :=
  ∀ x : List α, x.length = p.width → ∃ r : Nat → α,
    Cells.read r p.off p.width = x ∧
    ∀ look : Nat → α, (∀ i, lo ≤ i → i < hi → look i = r i) → p ∈ visited look

namespace Cells

variable {α : Type}

@[simp] theorem read_length (look : Nat → α) (off size : Nat) :
    (read look off size).length = size := by
  simp [read]

/-- Contents that agree on a range are read the same there. -/
theorem read_congr {look look' : Nat → α} {off size : Nat}
    (h : ∀ i, off ≤ i → i < off + size → look i = look' i) :
    read look off size = read look' off size := by
  refine List.map_congr_left fun i hi => ?_
  have := List.mem_range.mp hi
  exact h _ (by omega) (by omega)

/-- Contents with a list at an offset. -/
def put (r : Nat → α) (off : Nat) (l : List α) (i : Nat) : α :=
  if off ≤ i then (l[i - off]?).getD (r i) else r i

/-- What was put somewhere is read back from there. -/
theorem read_put (r : Nat → α) (off : Nat) (l : List α) : read (put r off l) off l.length = l := by
  apply List.ext_getElem (by simp)
  intro i h₁ h₂
  simp [read, put, h₂]

/-- What lies behind is left alone. -/
theorem put_of_le {r : Nat → α} {off i : Nat} {l : List α} (h : off + l.length ≤ i) :
    put r off l i = r i := by
  unfold put
  split
  · rw [List.getElem?_eq_none (by omega)]
    rfl
  · rfl

end Cells

section Reach

variable {α : Type} {C : Cells α} {lo hi : Nat} {p : Part}
  {visited visited' : (Nat → α) → List Part}

/-- What is visited on all contents is reached. -/
theorem Reaches.always (C : Cells α) (h : ∀ look, p ∈ visited look) : Reaches lo hi visited p := by
  intro x hx
  refine ⟨Cells.put (fun _ => C.set) p.off x, ?_, fun look _ => h look⟩
  rw [← hx, Cells.read_put]

/-- A part that is reached stays so in a wider range. -/
theorem Reaches.mono (h : Reaches lo hi visited p)
    (hsub : ∀ look, p ∈ visited look → p ∈ visited' look) {lo' hi' : Nat} (hlo : lo' ≤ lo)
    (hhi : hi ≤ hi') : Reaches lo' hi' visited' p := by
  intro x hx
  obtain ⟨r, hr, hvis⟩ := h x hx
  refine ⟨r, hr, fun look hlook => hsub look (hvis look fun i h₁ h₂ => ?_)⟩
  exact hlook i (hlo.trans h₁) (h₂.trans_le hhi)

/-- What lies behind a guard is reached with the guard's cells as it wants them. -/
theorem Reaches.behind {a : Nat} {g : List α} (h : Reaches lo hi visited p)
    (ha : a + g.length ≤ lo) (hp : lo ≤ p.off) (hle : lo ≤ hi)
    (hsub : ∀ look, Cells.read look a g.length = g → p ∈ visited look → p ∈ visited' look) :
    Reaches a hi visited' p := by
  intro x hx
  obtain ⟨r, hr, hvis⟩ := h x hx
  refine ⟨Cells.put r a g, ?_, fun look hlook => ?_⟩
  · rw [← hr]
    exact Cells.read_congr fun i h₁ _ => Cells.put_of_le (by omega)
  · refine hsub look ?_ (hvis look fun i h₁ h₂ => ?_)
    · refine (Cells.read_congr fun i h₁ h₂ => ?_).trans (Cells.read_put r a g)
      exact hlook i h₁ (by omega)
    · rw [hlook i (by omega) h₂]
      exact Cells.put_of_le (by omega)

end Reach

section ReachLevels

variable {α : Type} {C : Cells α} {rnd : Rat → Rat} {ctx : Context} {isPacked : Bool}
  {scope : Scope} {env : (Nat → α) → String → Nat → List Part}
  {penv : String → Nat → List Part} {p : Part}

/-- The parts of the nested types of the scope are reached. -/
def EnvReaches (isPacked : Bool) (scope : Scope) (env : (Nat → α) → String → Nat → List Part)
    (penv : String → Nat → List Part) : Prop :=
  ∀ m t base, scope.lookup m = some t → t.isPacked = isPacked → ∀ p ∈ penv m base,
    Reaches base (base + t.total) (fun look => env look m base) p

/-- Every part of an element is reached by contents of its own room. -/
theorem visitElem_reaches (C : Cells α) (henv : EnvReaches isPacked scope env penv)
    {base off : Nat} {s : Bool} {k : Nat} {e : Elem} (he : e.Laid rnd ctx scope isPacked)
    (h : p ∈ visitElem penv base off s k e) :
    Reaches (base + off) (base + off + e.size) (fun look => visitElem (env look) base off s k e)
      p := by
  unfold visitElem at h ⊢
  split at h
  next hn =>
    simp only [if_pos hn]
    rcases List.mem_cons.mp h with rfl | h
    · exact Reaches.always C fun look => List.mem_cons_self ..
    · obtain ⟨t, ht, hpk, hsize⟩ := he.nested hn
      rw [hsize]
      exact (henv _ t _ ht hpk p h).mono (fun look hp => List.mem_cons_of_mem _ hp) le_rfl le_rfl
  next hn =>
    cases List.mem_singleton.mp h
    simp only [if_neg hn]
    exact Reaches.always C fun look => List.mem_singleton_self _

/-- For an array the contents of the other elements do not matter. -/
theorem visitArray_reaches (C : Cells α) (henv : EnvReaches isPacked scope env penv) {base : Nat}
    {f : Field} (he : f.elem.Laid rnd ctx scope isPacked) :
    ∀ (n i : Nat), p ∈ visitArray penv base f n i →
      Reaches (base + f.offset) (base + f.offset + (i + n) * f.elem.size)
        (fun look => visitArray (env look) base f n i) p := by
  intro n
  induction n with
  | zero => intro i h; exact absurd h List.not_mem_nil
  | succ n ih =>
    intro i h
    have hnext : (i + 1) * f.elem.size = i * f.elem.size + f.elem.size := Nat.succ_mul ..
    have hlast : (i + (n + 1)) * f.elem.size = (i + 1) * f.elem.size + n * f.elem.size := by
      rw [← Nat.add_mul]
      congr 1
      omega
    rcases List.mem_append.mp h with h | h
    · apply (visitElem_reaches C henv he h).mono
      · intro look hp
        exact List.mem_append_left _ hp
      · omega
      · omega
    · have hlast' : i + 1 + n = i + (n + 1) := by omega
      apply (ih (i + 1) h).mono
      · intro look hp
        exact List.mem_append_right _ hp
      · exact le_rfl
      · rw [hlast']

/-- For an optional the flag is set in front of the contents of the value. -/
theorem visitField_reaches (hC : C.Lawful) (henv : EnvReaches isPacked scope env penv)
    (hwithin : EnvWithin rnd ctx isPacked scope penv) {base off : Nat} {f : Field}
    (hf : f.Laid rnd ctx scope isPacked off) (hv : f.Valid)
    (h : p ∈ visitField (fun _ => true) penv base f) :
    Reaches (base + off) (base + off + f.size)
      (fun look => visitField (fun q => C.flag (look q)) (env look) base f) p := by
  have hsize := hf.size_eq
  have hoff := hf.offset_eq
  unfold visitField at h ⊢
  by_cases ha : f.isArray = true
  · rw [if_pos ha] at h
    simp only [if_pos ha]
    have hopt : f.isOptional = false := hf.optional_eq.trans (hv.array (hf.array_eq ▸ ha)).1
    rw [Field.flagSize, hopt, if_neg Bool.false_ne_true, Nat.zero_add] at hsize
    apply (visitArray_reaches C henv hf.elem _ _ h).mono (fun look hp => hp)
    · omega
    · rw [Nat.zero_add, hsize, hoff, Nat.mul_comm f.arrayLen]
  -- one element, at the offset of the field or behind the flag
  rw [if_neg ha] at h
  simp only [if_neg ha]
  have hone : f.arrayLen = 1 := hf.single (by simpa using ha)
  rw [hone, Nat.mul_one] at hsize
  by_cases ho : f.isOptional = true
  · have hval := hf.value_eq
    rw [Field.flagSize, if_pos ho] at hsize hval
    rw [if_pos ho] at h
    simp only [if_pos ho]
    rcases List.mem_cons.mp h with rfl | h
    · exact Reaches.always C fun look => List.mem_cons_self ..
    · -- the value is there when the flag in front of it is set
      rw [if_pos rfl] at h
      have hstr := fun _ : false = false => hv.optional (hf.optional_eq ▸ ho)
      have hin := visitElem_within hwithin hf.elem rfl hstr h
      have hreach : Reaches (base + off) (base + f.valueOffset + f.elem.size)
          (fun look => .flag (base + f.offset) :: if C.flag (look (base + f.offset)) = true then
            visitElem (env look) base f.valueOffset false f.elem.size f.elem else []) p := by
        apply (visitElem_reaches C henv hf.elem h).behind (g := [C.set])
        · rw [List.length_singleton]
          omega
        · exact hin.lo_le
        · omega
        · intro look hg hp
          have hset : look (base + f.offset) = C.set := by
            rw [hoff]
            simpa [Cells.read] using hg
          rw [hset, hC.set_flag, if_pos rfl]
          exact List.mem_cons_of_mem _ hp
      apply hreach.mono (fun look hp => hp) le_rfl
      omega
  · rw [if_neg ho] at h
    simp only [if_neg ho]
    rw [Field.flagSize, if_neg ho, Nat.zero_add] at hsize
    apply (visitElem_reaches C henv hf.elem h).mono (fun look hp => hp)
    · omega
    · omega

/-- For a variant its tag is put in front. -/
theorem visitVariant_reaches (hC : C.Lawful) (henv : EnvReaches isPacked scope env penv)
    (hwithin : EnvWithin rnd ctx isPacked scope penv) {base : Nat} {u : Union}
    (hu : u.Laid rnd ctx) (hpk : u.isPacked = isPacked) (hv : ∀ w ∈ u.variants, w.Valid)
    {tag : Nat} (htag : tag < C.tags u.tagSize) (h : p ∈ visitVariant penv base u tag) :
    Reaches base (base + u.total)
      (fun look => visitVariant (env look) base u (C.tag (Cells.read look base u.tagSize))) p := by
  have hin := visitVariant_within hwithin hu hpk hv h
  unfold visitVariant at h
  split at h
  next w hw =>
    have hmem : w ∈ u.variants := List.mem_of_getElem? hw
    obtain ⟨hlaid, _⟩ := hu.variant hv hmem scope
    have hpay := hu.payload_eq
    have hfits := hu.fits w hmem
    obtain ⟨g, hg, hgt⟩ := hC.exists_tag _ _ htag
    have hlo := hin.lo_le
    have hreach : Reaches base (base + u.payloadOffset + w.elem.size) (fun look =>
        visitVariant (env look) base u (C.tag (Cells.read look base u.tagSize))) p := by
      apply (visitElem_reaches C henv (hpk ▸ hlaid) h).behind (g := g)
      · omega
      · omega
      · omega
      · intro look hread hp
        rw [hg] at hread
        rw [hread, hgt, visitVariant, hw]
        exact hp
    apply hreach.mono (fun look hp => hp) le_rfl
    omega
  next => exact absurd h List.not_mem_nil

end ReachLevels

/-- **Every part of an accepted type is visited on some contents**, whatever is wanted in
its own cells. -/
theorem exists_visit {α : Type} {C : Cells α} (hC : C.Lawful) {rnd : Rat → Rat} {ctx : Context}
    {isPacked : Bool} :
    ∀ (scope : Scope) (name : String) (t : TypeDef), scope.lookup name = some t →
      scope.Accepted rnd ctx → t.isPacked = isPacked → ∀ base, ∀ p ∈ parts C scope name base,
        Reaches base (base + t.total) (fun look => visit C look scope name base) p := by
  refine scope_induction ?_ ?_
  · intro n t rest ih hacc hpk base p h
    rw [parts, resolve_head] at h
    simp only [visit, resolve_head]
    have henv : EnvReaches isPacked rest (fun look => visit C look rest) (parts C rest) :=
      fun m t' b hm hpk' p hp => ih m t' hm hacc.tail hpk' b p hp
    have hwithin : EnvWithin rnd ctx isPacked rest (parts C rest) :=
      fun m t' b hm hpk' p hp => parts_within rest m t' hm hacc.tail hpk' b p hp
    have hlaid := hacc.laid.1
    have hvalid := hacc.valid _ (List.mem_cons_self ..)
    cases t with
    | struct s =>
      obtain ⟨f, hf, hp⟩ := List.mem_flatMap.mp h
      have hs : s.Laid rnd ctx rest := hlaid
      obtain ⟨o, hl, hlo, hhi⟩ := fieldsLaid_mem s.fields hs.fields f hf
      have hpk' : s.isPacked = isPacked := hpk
      rw [hpk'] at hl
      apply (visitField_reaches hC henv hwithin hl (hvalid f hf) hp).mono
      · intro look hp
        exact List.mem_flatMap.mpr ⟨f, hf, hp⟩
      · omega
      · show base + o + f.size ≤ base + s.total
        rw [hs.total_eq]
        omega
    | union u =>
      -- the tag is always visited, a variant if the tag says so
      have hu : u.Laid rnd ctx := hlaid
      rcases List.mem_cons.mp h with rfl | h
      · exact Reaches.always C fun look => List.mem_cons_self ..
      · obtain ⟨tag, htag, hp⟩ := List.mem_flatMap.mp h
        apply (visitVariant_reaches hC henv hwithin hu hpk hvalid (List.mem_range.mp htag) hp).mono
        · intro look hp
          exact List.mem_cons_of_mem _ hp
        · exact le_rfl
        · exact le_rfl
  · intro n t₀ rest m t hm ih hacc hpk base p h
    rw [parts, resolve_tail t₀ rest hm] at h
    simp only [visit, resolve_tail t₀ rest hm]
    exact ih hacc.tail hpk base p h

end ProtoEmb.Codec

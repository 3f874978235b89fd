import ProtoEmb.Codec.Packed
import ProtoEmb.Lib.ByteBuffer
import ProtoEmb.Lib.LittleEndian

/-!
# The aligned codec

An aligned type is a sequence of bytes: a flag or a tag is one byte, a leaf as many as
its native type has. The encoders store each part into a zeroed buffer. They differ in
how they find the offset and in what they do with a nested type:

* C (`protocol.c.j2`) encodes a nested type in place, by `*_encodeAt` at a base offset and the
  literal offsets of `process_schema`; only a struct outside of any nesting keeps a running offset
  (`encodeInPlace`). Below `2 ^ 32` bytes the two are the same (`encodeFlat_eq`).
* Rust and TypeScript (`protocol.rs.j2`, `protocol.ts.j2`) keep a running offset in every struct
  and copy the bytes of a nested type from that type's own encoder (`encodeCopied`).

`AlignLang` is what else the languages differ in. For every accepted schema both
procedures produce the bytes of the layout, one part after the other
(`encodeInPlace_eq`, `encodeCopied_eq`). A store outside the buffer is `none`: it is
undefined in C, a panic in Rust, and does not occur in TypeScript.
-/

namespace ProtoEmb.Codec

open ProtoEmb.Lib ProtoEmb.Schema

/-- What the aligned templates of a target language differ in. -/
structure AlignLang where
  /-- `base + offset`, the offset being a literal -/
  add : Nat → Nat → Option Nat
  /-- the running offset, when it has grown to this -/
  running : Nat → Option Nat
  /-- the byte stored for a tag -/
  tagByte : Nat → Option UInt8
  /-- the bytes stored for a leaf of a field or an element, of the given size -/
  leaf : Bool → Nat → Elem → Value → Option (List UInt8)
  /-- what the running offset grows by, given the wire sizes of the types -/
  advance : (String → Nat) → Field → Option Nat

namespace AlignLang

variable (L : AlignLang)

/-! ## The templates -/

/-- One statement of the encoder; `nested` encodes a nested type at an offset. -/
def storeWrite (nested : String → List UInt8 → Nat → Value → Option (List UInt8))
    (offset : Nat → Option Nat) (buf : List UInt8) : Write → Option (List UInt8)
  | .flag off b => do
    let o ← offset off
    store buf o [if b then 1 else 0]
  | .tag off _ index => do
    let o ← offset off
    let b ← L.tagByte index
    store buf o [b]
  | .skip _ _ => some buf
  | .elem off scalar width e v => do
    let o ← offset off
    if e.isNested then nested e.type buf o v
    else do
      let bs ← L.leaf scalar width e v
      store buf o bs

/-- The fields at the running offset. -/
def placeFields (advance : Field → Option Nat) : Nat → List Field → Option (List Field)
  | _, [] => some []
  | offset, f :: fs => do
    let n ← advance f
    let rest ← placeFields advance (offset + n) fs
    return { f with offset, valueOffset := offset + f.flagSize } :: rest

/-- The type with its fields at the running offset. -/
def place (advance : Field → Option Nat) : TypeDef → Option TypeDef
  | .struct s => do
    let fields ← placeFields advance 0 s.fields
    return .struct { s with fields }
  | .union u => some (.union u)

/-- `*_encodeAt`: encode a value at a base offset. -/
def encodeAt : Scope → String → List UInt8 → Nat → Value → Option (List UInt8) :=
  resolve (fun _ _ _ => none) fun env t buf base v => do
    let ws ← writes t v
    ws.foldlM (L.storeWrite env (L.add base)) buf

/-- `*_encode` of an aligned type, in place. -/
def encodeInPlace (scope : Scope) (name : String) (v : Value) : Option (List UInt8) := do
  let t ← scope.lookup name
  if PackLang.isFlat scope name t then do
    let placed ← place (L.advance fun _ => 0) t
    let ws ← writes placed v
    ws.foldlM (L.storeWrite (fun _ _ _ _ => none) L.running) (zeros t.wireSize)
  else L.encodeAt scope name (zeros t.wireSize) 0 v

/-- Copy the bytes of a nested type's own encoder. -/
def copyNested (encode : Value → Option (List UInt8)) (buf : List UInt8) (o : Nat) (v : Value) :
    Option (List UInt8) := do
  let bs ← encode v
  store buf o bs

/-- The wire size and the encoder of a type that copies its nested types. -/
def encoder : Scope → String → Nat × (Value → Option (List UInt8)) :=
  resolve (0, fun _ => none) fun env t =>
    (t.wireSize, fun v => do
      let placed ← place (L.advance fun m => (env m).1) t
      let ws ← writes placed v
      ws.foldlM (L.storeWrite (fun m => copyNested (env m).2) L.running) (zeros t.wireSize))

/-- `encode`, `encode*` of an aligned type, with nested types copied. -/
def encodeCopied (scope : Scope) (name : String) (v : Value) : Option (List UInt8) :=
  (L.encoder scope name).2 v

end AlignLang

/-! ## Byte strings -/

/-- The bytes of every leaf. -/
abbrev Bytes := Bool → Elem → Value → List UInt8

def Chunk.bytes (bs : Bytes) : Chunk → List UInt8
  | flag b => [if b then 1 else 0]
  | tag size index => leBytes size index
  | pad size => zeros size
  | leaf s e v => bs s e v

/-- **The documented bytes** of an aligned layout: every part in order. -/
def byteImage (bs : Bytes) (cs : List Chunk) : List UInt8 := cs.flatMap (Chunk.bytes bs)

section Image

variable {bs : Bytes}

@[simp] theorem byteImage_nil : byteImage bs [] = [] := rfl

@[simp] theorem byteImage_cons (c : Chunk) (cs : List Chunk) :
    byteImage bs (c :: cs) = c.bytes bs ++ byteImage bs cs := List.flatMap_cons

@[simp] theorem byteImage_append (xs ys : List Chunk) :
    byteImage bs (xs ++ ys) = byteImage bs xs ++ byteImage bs ys := List.flatMap_append

theorem bytes_length {c : Chunk} (h : c.OnLeaf fun s e v => (bs s e v).length = e.size) :
    (c.bytes bs).length = c.size := by
  cases c with
  | leaf s e v => exact h
  | flag b => rfl
  | tag size index => exact leBytes_length size index
  | pad size => exact zeros_length size

theorem byteImage_length {cs : List Chunk}
    (h : AllLeaves (fun s e v => (bs s e v).length = e.size) cs) :
    (byteImage bs cs).length = sizeOf cs := by
  rw [allLeaves_iff] at h
  induction cs with
  | nil => rfl
  | cons c cs ih =>
    rw [byteImage_cons, List.length_append, sizeOf_cons,
      bytes_length (h c (List.mem_cons_self ..)),
      ih fun x hx => h x (List.mem_cons_of_mem _ hx)]

end Image

/-- A tag fits the byte it has. -/
def Chunk.TagFits : Chunk → Prop
  | tag _ index => index < 256
  | _ => True

instance : (c : Chunk) → Decidable c.TagFits
  | .tag _ index => inferInstanceAs (Decidable (index < 256))
  | .flag _ | .pad _ | .leaf _ _ _ => inferInstanceAs (Decidable True)

/-- The language can store the layout: a leaf gives the bytes `bs`, with zeros behind a
shorter string, and the tags fit their byte. -/
structure AlignLang.Stores (L : AlignLang) (bs : Bytes) (cs : List Chunk) : Prop where
  leaf : AllLeaves (fun s e v => ∃ x, L.leaf s e.size e v = some x ∧ x.length ≤ e.size ∧
    bs s e v = padTo e.size x) cs
  tag : ∀ size i, .tag size i ∈ cs → L.tagByte i = some (UInt8.ofNat i)

namespace AlignLang.Stores

variable {L : AlignLang} {bs : Bytes} {xs ys cs : List Chunk}

theorem left (h : L.Stores bs (xs ++ ys)) : L.Stores bs xs :=
  ⟨fun s e v hl => h.leaf s e v (List.mem_append_left _ hl),
    fun size i ht => h.tag size i (List.mem_append_left _ ht)⟩

theorem right (h : L.Stores bs (xs ++ ys)) : L.Stores bs ys :=
  ⟨fun s e v hl => h.leaf s e v (List.mem_append_right _ hl),
    fun size i ht => h.tag size i (List.mem_append_right _ ht)⟩

theorem length_eq (h : L.Stores bs cs) : (byteImage bs cs).length = sizeOf cs := by
  refine byteImage_length fun s e v hl => ?_
  obtain ⟨x, _, hle, hx⟩ := h.leaf s e v hl
  rw [hx, padTo_length hle]

end AlignLang.Stores

/-! ## Encoding -/

section Encode

variable {L : AlignLang} {rnd : Rat → Rat} {ctx : Context} {scope : Scope} {bs : Bytes}
  {nested : String → List UInt8 → Nat → Value → Option (List UInt8)}
  {offset : Nat → Option Nat} {bound : Nat}

/-- The encoder of nested types turns a zeroed part of the buffer into the bytes of the
value, below `bound`. -/
def EncodesNested (L : AlignLang) (scope : Scope) (bs : Bytes) (bound : Nat)
    (nested : String → List UInt8 → Nat → Value → Option (List UInt8)) : Prop :=
  ∀ {m t v cs}, scope.lookup m = some t → t.isPacked = false → layout scope m v = some cs →
    L.Stores bs cs → ∀ {pre post : List UInt8}, pre.length + t.total < bound →
    nested m (pre ++ zeros t.total ++ post) pre.length v = some (pre ++ byteImage bs cs ++ post)

/-- One statement turns its zeroed part of the buffer into its bytes. -/
theorem storeWrite_eq (ih : EncodesNested L scope bs bound nested) {w : Write}
    (hw : w.Laid rnd ctx scope false) {cs : List Chunk}
    (h : layoutWrite (layout scope) w = some cs) (hs : L.Stores bs cs) {pre post : List UInt8}
    (hoff : offset w.off = some pre.length) (hlim : pre.length + w.size < bound) :
    L.storeWrite nested offset (pre ++ zeros w.size ++ post) w
      = some (pre ++ byteImage bs cs ++ post) := by
  cases w with
  | flag off b =>
    cases h
    simp only [AlignLang.storeWrite, Write.off, Write.size] at hoff ⊢
    rw [hoff, Option.bind_eq_bind, Option.bind_some, store_append (Nat.le_refl 1)]
    simp [Chunk.bytes, padTo, zeros]
  | tag off size index =>
    cases h
    have hsize : size = 1 := hw
    -- a tag is one byte; one that does not fit is not stored
    subst hsize
    have htag := hs.tag 1 index (List.mem_cons_self ..)
    simp only [AlignLang.storeWrite, Write.off, Write.size] at hoff ⊢
    rw [hoff, htag]
    show store _ _ _ = _
    rw [store_append (Nat.le_refl 1)]
    simp [Chunk.bytes, padTo, zeros, leBytes]
  | skip off size =>
    cases h
    simp [AlignLang.storeWrite, Write.size, Chunk.bytes]
  | elem off s k e v =>
    obtain ⟨rfl, he, _⟩ := hw
    simp only [layoutWrite, layoutElem] at h
    simp only [AlignLang.storeWrite, Write.off, Write.size] at hoff hlim ⊢
    rw [hoff, Option.bind_eq_bind, Option.bind_some]
    -- the nested encoder fills its own part, what is around it stays
    split at h
    next hn =>
      obtain ⟨t, ht, hpk, hsize⟩ := he.nested hn
      rw [if_pos hn, hsize]
      exact ih ht hpk h hs (hsize ▸ hlim)
    next hn =>
      cases h
      obtain ⟨x, hx, hle, hbs⟩ := hs.leaf s e v (List.mem_cons_self ..)
      rw [if_neg hn, hx]
      show store _ _ _ = _
      rw [store_append hle]
      simp [Chunk.bytes, hbs]

theorem Contiguous.le {ws : List Write} {a b : Nat} (h : Contiguous a ws b) : a ≤ b := by
  induction ws generalizing a with
  | nil =>
    have hab : a = b := h
    omega
  | cons w ws ih =>
    have := ih h.2
    omega

/-- Every statement lies between the ends. -/
theorem Contiguous.within {ws : List Write} {a b : Nat} (h : Contiguous a ws b) :
    ∀ w ∈ ws, a ≤ w.off ∧ w.off + w.size ≤ b := by
  induction ws generalizing a with
  | nil => intro w hw; exact absurd hw List.not_mem_nil
  | cons w₀ ws ih =>
    intro w hw
    obtain ⟨rfl, hrest⟩ := h
    rcases List.mem_cons.mp hw with rfl | hw
    · exact ⟨le_rfl, hrest.le⟩
    · obtain ⟨hlo, hhi⟩ := ih hrest w hw
      exact ⟨by omega, hhi⟩

/-- The statements of a type turn its zeroed part of the buffer into its bytes. -/
theorem storeWrites_eq (hacc : scope.Accepted rnd ctx)
    (ih : EncodesNested L scope bs bound nested) {base : Nat}
    (hoff : ∀ off, base + off < bound → offset off = some (base + off)) :
    ∀ (ws : List Write) {a b : Nat} {cs : List Chunk} {pre post : List UInt8},
      Contiguous a ws b → (∀ w ∈ ws, w.Laid rnd ctx scope false) →
      layoutWrites (layout scope) ws = some cs → L.Stores bs cs → pre.length = base + a →
      base + b < bound →
      ws.foldlM (L.storeWrite nested offset) (pre ++ zeros (b - a) ++ post)
        = some (pre ++ byteImage bs cs ++ post) := by
  intro ws
  induction ws with
  | nil =>
    intro a b cs pre post hc _ h _ _ _
    cases h
    have hab : a = b := hc
    subst hab
    simp [zeros]
  | cons w ws ihs =>
    intro a b cs pre post hc hlaid h hs hpre hlim
    simp only [layoutWrites, Option.bind_eq_bind, Option.bind_eq_some_iff, Option.pure_def,
      Option.some.injEq] at h
    obtain ⟨c, hc₁, cs', hcs', rfl⟩ := h
    obtain ⟨rfl, hrest⟩ := hc
    have hw := hlaid w (List.mem_cons_self ..)
    have hle := hrest.le
    have hsize : sizeOf c = w.size :=
      layoutWrite_size (fun hm h => layout_size scope _ _ hm hacc h) hw hc₁
    have hlen := hs.left.length_eq
    -- the part of this statement, and the part of the rest
    have hsplit : pre ++ zeros (b - w.off) ++ post
        = pre ++ zeros w.size ++ (zeros (b - (w.off + w.size)) ++ post) := by
      rw [show b - w.off = w.size + (b - (w.off + w.size)) by omega, zeros_add]
      simp only [List.append_assoc]
    have hat : offset w.off = some pre.length := by rw [hoff _ (by omega), hpre]
    have hnext : (pre ++ byteImage bs c).length = base + (w.off + w.size) := by
      rw [List.length_append, hlen, hsize, hpre]
      omega
    rw [List.foldlM_cons, hsplit, storeWrite_eq ih hw hc₁ hs.left hat (by omega),
      Option.bind_eq_bind, Option.bind_some, byteImage_append, ← List.append_assoc,
      ← List.append_assoc]
    exact ihs hrest (fun x hx => hlaid x (List.mem_cons_of_mem _ hx)) hcs' hs.right hnext hlim

/-- **The encoder in place, at any base.** -/
theorem encodeAt_eq (hadd : ∀ base off, base + off < bound → L.add base off = some (base + off)) :
    ∀ (scope : Scope) (name : String) (t : TypeDef), scope.lookup name = some t →
      scope.Accepted rnd ctx → t.isPacked = false →
      ∀ {v : Value} {cs : List Chunk}, layout scope name v = some cs → L.Stores bs cs →
      ∀ {pre post : List UInt8}, pre.length + t.total < bound →
        L.encodeAt scope name (pre ++ zeros t.total ++ post) pre.length v
          = some (pre ++ byteImage bs cs ++ post) := by
  refine scope_induction ?_ ?_
  · intro n t rest ih hacc hpk v cs h hs pre post hlim
    obtain ⟨ws, hws, hcs⟩ := layout_head h
    obtain ⟨hc, hl⟩ := writes_contiguous hacc.laid.1 (hacc.valid _ (List.mem_cons_self ..)) hws
    rw [hpk] at hl
    rw [AlignLang.encodeAt, resolve_head, hws, Option.bind_eq_bind, Option.bind_some]
    exact storeWrites_eq hacc.tail (fun hm hpk h hs _ _ hlim => ih _ _ hm hacc.tail hpk h hs hlim)
      (hadd pre.length) ws hc hl hcs hs rfl hlim
  · intro n t₀ rest m t hm ih hacc hpk v cs h hs pre post hlim
    rw [layout, resolve_tail t₀ rest hm] at h
    rw [AlignLang.encodeAt, resolve_tail t₀ rest hm]
    exact ih hacc.tail hpk h hs hlim

end Encode

/-! ## Running offsets -/

/-- Every string field says how long it is; without `max_length` the generated code does
not compile. -/
def TypeDef.StringsSized : TypeDef → Prop
  | .struct s => ∀ f ∈ s.fields, f.elem.isString = true → f.elem.maxLength.isSome = true
  | .union _ => True

instance : (t : TypeDef) → Decidable (TypeDef.StringsSized t)
  | .struct s => inferInstanceAs (Decidable (∀ f ∈ s.fields, f.elem.isString = true →
      f.elem.maxLength.isSome = true))
  | .union _ => inferInstanceAs (Decidable True)

def StringsSized (scope : Scope) : Prop := ∀ t ∈ scope, TypeDef.StringsSized t.2

instance (scope : Scope) : Decidable (StringsSized scope) :=
  inferInstanceAs (Decidable (∀ t ∈ scope, TypeDef.StringsSized t.2))

/-- The running offset of the language follows the offsets of `process_schema`. -/
def AlignLang.Advances (L : AlignLang) : Prop :=
  ∀ {rnd ctx scope off f wire}, Field.Laid rnd ctx scope false off f → f.Valid →
    (f.elem.isString = true → f.elem.maxLength.isSome = true) → f.elem.isNested = false →
    L.advance wire f = some f.size

/-- A string without `max_length` is not stored: that code does not compile. -/
def AlignLang.SizesStrings (L : AlignLang) : Prop :=
  ∀ {s k e v x}, L.leaf s k e v = some x → e.isString = true → e.maxLength.isSome = true

/-- The same for fields of a nested type. -/
def AlignLang.AdvancesNested (L : AlignLang) : Prop :=
  ∀ {rnd ctx scope off f wire}, Field.Laid rnd ctx scope false off f → f.Valid →
    f.elem.isNested = true → wire f.elem.type = f.elem.size → L.advance wire f = some f.size

section Place

variable {L : AlignLang} {rnd : Rat → Rat} {ctx : Context} {scope : Scope}
  {advance : Field → Option Nat}

theorem placeFields_eq :
    ∀ (fs : List Field) {off : Nat}, FieldsLaid rnd ctx scope false off fs →
      (∀ f ∈ fs, ∀ off, f.Laid rnd ctx scope false off → advance f = some f.size) →
      AlignLang.placeFields advance off fs = some fs := by
  intro fs
  induction fs with
  | nil => intro off _ _; rfl
  | cons f fs ih =>
    intro off h hadv
    have hf := h.1
    have hsame : { f with offset := off, valueOffset := off + f.flagSize } = f := by
      rw [← hf.value_eq]
      cases f
      cases hf.offset_eq
      rfl
    rw [AlignLang.placeFields, hadv f (List.mem_cons_self ..) off hf, Option.bind_eq_bind,
      Option.bind_some, ih h.2 fun g hg => hadv g (List.mem_cons_of_mem _ hg), hsame]
    rfl

/-- **The running offset is the offset of `process_schema`.** -/
theorem place_eq (hL : L.Advances) (hN : L.AdvancesNested) {wire : String → Nat} {t : TypeDef}
    (ht : t.Laid rnd ctx scope) (hpk : t.isPacked = false) (hv : t.Valid)
    (hstr : ∀ s, t = .struct s → ∀ f ∈ s.fields, f.elem.isNested = false →
      f.elem.isString = true → f.elem.maxLength.isSome = true)
    (hwire : ∀ m c, scope.lookup m = some c → c.isPacked = false → wire m = c.total) :
    AlignLang.place (L.advance wire) t = some t := by
  cases t with
  | union u => rfl
  | struct s =>
    have hs : s.Laid rnd ctx scope := ht
    have hpk' : s.isPacked = false := hpk
    have hfields := hs.fields
    rw [hpk'] at hfields
    have hadv : ∀ f ∈ s.fields, ∀ off, f.Laid rnd ctx scope false off →
        L.advance wire f = some f.size := by
      intro f hf off hlaid
      by_cases hn : f.elem.isNested = true
      · obtain ⟨c, hc, hcpk, hsize⟩ := hlaid.elem.nested hn
        exact hN hlaid (hv f hf) hn (by rw [hwire _ c hc hcpk, hsize])
      · have hleaf : f.elem.isNested = false := by simpa using hn
        exact hL hlaid (hv f hf) (hstr s rfl f hf hleaf) hleaf
    rw [AlignLang.place, placeFields_eq s.fields hfields hadv]
    rfl

/-- A string is neither an array nor optional. -/
theorem single_of_string {off : Nat} {f : Field} (hf : f.Laid rnd ctx scope false off)
    (hv : f.Valid) (hs : f.elem.isString = true) : f.isArray = false ∧ f.isOptional = false := by
  constructor
  · by_contra hne
    have harr := (hv.array (hf.array_eq ▸ by simpa using hne)).2
    rw [hs] at harr
    cases harr
  · by_contra hne
    have hopt := hv.optional (hf.optional_eq ▸ by simpa using hne)
    rw [hs] at hopt
    cases hopt

/-- A field that is neither an array nor optional nor nested is a leaf of every value. -/
theorem layoutFields_leaf {env : String → Layout} :
    ∀ (fs : List Field) {vs : List Value} {cs : List Chunk}, layoutFields env fs vs = some cs →
      ∀ f ∈ fs, f.isArray = false → f.isOptional = false → f.elem.isNested = false →
        ∃ v, .leaf true f.elem v ∈ cs := by
  intro fs
  induction fs with
  | nil => intro vs cs _ f hf; exact absurd hf List.not_mem_nil
  | cons g fs ih =>
    intro vs cs h f hf ha ho hn
    cases vs with
    | nil => cases h
    | cons v vs =>
      simp only [layoutFields, Option.bind_eq_bind, Option.bind_eq_some_iff, Option.pure_def,
        Option.some.injEq] at h
      obtain ⟨c, hc, cs', hcs', rfl⟩ := h
      rcases List.mem_cons.mp hf with rfl | hf
      · simp only [layoutField, layoutElem, ha, ho, hn, Bool.false_eq_true, if_false,
          Option.some.injEq] at hc
        exact ⟨v, by rw [← hc]; exact List.mem_cons_self ..⟩
      · obtain ⟨x, hx⟩ := ih hcs' f hf ha ho hn
        exact ⟨x, List.mem_append_right _ hx⟩

/-- The strings of a struct are among the leaves of its values. -/
theorem strings_sized {env : String → Layout} {t : TypeDef} {v : Value} {cs : List Chunk}
    (ht : t.Laid rnd ctx scope) (hpk : t.isPacked = false) (hv : t.Valid)
    (h : layoutType env t v = some cs)
    (hstr : AllLeaves (fun _ e _ => e.isString = true → e.maxLength.isSome = true) cs) :
    ∀ s, t = .struct s → ∀ f ∈ s.fields, f.elem.isNested = false →
      f.elem.isString = true → f.elem.maxLength.isSome = true := by
  rintro s rfl f hf hn hs
  have hlaid : s.Laid rnd ctx scope := ht
  have hfields := hlaid.fields
  rw [show s.isPacked = false from hpk] at hfields
  obtain ⟨off, hfl⟩ := FieldsLaid.mem s.fields hfields f hf
  obtain ⟨ha, ho⟩ := single_of_string hfl (hv f hf) hs
  cases v with
  | struct vs =>
    obtain ⟨x, hx⟩ := layoutFields_leaf s.fields h f hf ha ho hn
    exact hstr true f.elem x hx hs
  | _ => cases h

/-- An aligned type has as many bytes as its parts. -/
theorem aligned_wireSize {name : String} {t : TypeDef} (hacc : scope.Accepted rnd ctx)
    (ht : scope.lookup name = some t) (hpk : t.isPacked = false) : t.wireSize = t.total := by
  obtain ⟨rest, hlaid⟩ := hacc.laid.lookup rnd ctx ht
  rw [hlaid.wire_eq, hpk]
  rfl

end Place

/-! ## Whole messages -/

section Whole

variable {L : AlignLang} {rnd : Rat → Rat} {ctx : Context} {bs : Bytes}

/-- A struct without nested types needs no wire sizes for its running offset. -/
theorem place_flat (hL : L.Advances) {n : String} {s : Struct} {rest : Scope}
    (hacc : Scope.Accepted rnd ctx ((n, .struct s) :: rest))
    (hstr : TypeDef.StringsSized (.struct s)) (hpk : TypeDef.isPacked (.struct s) = false)
    (hleaf : ∀ f ∈ s.fields, f.elem.isNested = false) (wire : String → Nat) :
    AlignLang.place (L.advance wire) (.struct s) = some (.struct s) := by
  have hs : s.Laid rnd ctx rest := hacc.laid.1
  have hpk' : s.isPacked = false := hpk
  have hfields := hs.fields
  rw [hpk'] at hfields
  rw [AlignLang.place, placeFields_eq s.fields hfields fun f hf off hlaid =>
    hL hlaid (hacc.valid _ (List.mem_cons_self ..) f hf) (hstr f hf) (hleaf f hf)]
  rfl

variable {bound : Nat}

/-- **A flat encoder is the one in place at base 0**, as long as its running offset is the
literal one. -/
theorem encodeFlat_eq (hL : L.Advances) (hrun : ∀ off, off < bound → L.running off = L.add 0 off)
    (whole : Scope) :
    ∀ (scope : Scope) (name : String) (t : TypeDef), scope.lookup name = some t →
      scope.Accepted rnd ctx → TypeDef.StringsSized t → t.isPacked = false → t.total < bound →
      PackLang.isFlat whole name t = true → ∀ (buf : List UInt8) (v : Value),
        (do
          let placed ← AlignLang.place (L.advance fun _ => 0) t
          let ws ← writes placed v
          ws.foldlM (L.storeWrite (fun _ _ _ _ => none) L.running) buf)
          = L.encodeAt scope name buf 0 v := by
  refine scope_induction ?_ ?_
  · intro n t rest _ hacc hstr hpk hlim hflat buf v
    obtain ⟨s, rfl, hleaf⟩ := isFlat_struct hacc.laid.1 hflat
    rw [AlignLang.encodeAt, resolve_head, place_flat hL hacc hstr hpk hleaf _, Option.bind_eq_bind,
      Option.bind_some]
    cases hws : writes (.struct s) v with
    | none => rfl
    | some ws =>
      obtain ⟨hc, _⟩ := writes_contiguous hacc.laid.1 (hacc.valid _ (List.mem_cons_self ..)) hws
      refine foldlM_congr_mem ws buf fun w hw buf => ?_
      have hoff := hrun w.off (by have := (hc.within w hw).2; omega)
      cases w with
      | elem off sc k e x =>
        simp only [Write.off] at hoff
        simp [AlignLang.storeWrite, writes_leaf hleaf hws hw, hoff]
      | skip _ _ => rfl
      | flag _ _ | tag _ _ _ =>
        simp only [Write.off] at hoff
        simp only [AlignLang.storeWrite, hoff]
  · intro n t₀ rest m t hm ih hacc hstr hpk hlim hflat buf v
    rw [AlignLang.encodeAt, resolve_tail t₀ rest hm]
    exact ih hacc.tail hstr hpk hlim hflat buf v

variable {scope : Scope} {name : String} {t : TypeDef} {v : Value} {cs : List Chunk}

/-- What is looked up in a scope is one of its types. -/
theorem mem_of_lookup (ht : scope.lookup name = some t) : (name, t) ∈ scope := by
  obtain ⟨l, r, rfl, _⟩ := List.lookup_eq_some_iff.mp ht
  simp

/-- **The encoder that works in place produces the documented bytes**, below the bound of
its offset type. -/
theorem encodeInPlace_eq (hL : L.Advances)
    (hadd : ∀ base off, base + off < bound → L.add base off = some (base + off))
    (hrun : ∀ off, off < bound → L.running off = L.add 0 off)
    (hacc : scope.Accepted rnd ctx) (hstr : StringsSized scope)
    (ht : scope.lookup name = some t) (hpk : t.isPacked = false)
    (h : layout scope name v = some cs) (hs : L.Stores bs cs) (hlim : t.total < bound) :
    L.encodeInPlace scope name v = some (byteImage bs cs) := by
  have hin : L.encodeAt scope name (zeros t.wireSize) 0 v = some (byteImage bs cs) := by
    have heq := @encodeAt_eq L rnd ctx bs bound hadd scope name t ht hacc hpk v cs h hs [] []
      (by rw [List.length_nil]; omega)
    simpa [aligned_wireSize hacc ht hpk] using heq
  unfold AlignLang.encodeInPlace
  rw [ht, Option.bind_eq_bind, Option.bind_some]
  split
  next hflat =>
    rw [← hin, ← encodeFlat_eq hL hrun scope scope name t ht hacc (hstr _ (mem_of_lookup ht)) hpk
      hlim hflat]
    rfl
  next => exact hin

theorem encoder_head (n : String) (t : TypeDef) (rest : Scope) :
    L.encoder ((n, t) :: rest) n = (t.wireSize, fun v => do
      let placed ← AlignLang.place (L.advance fun m => (L.encoder rest m).1) t
      let ws ← writes placed v
      ws.foldlM (L.storeWrite (fun m => AlignLang.copyNested (L.encoder rest m).2) L.running)
        (zeros t.wireSize)) := by
  rw [AlignLang.encoder, resolve_head]

theorem encoder_fst :
    ∀ (scope : Scope) (name : String) (t : TypeDef), scope.lookup name = some t →
      (L.encoder scope name).1 = t.wireSize := by
  refine scope_induction ?_ ?_
  · intro n t rest _
    rw [encoder_head]
  · intro n t₀ rest m t hm ih
    rw [AlignLang.encoder, resolve_tail t₀ rest hm]
    exact ih

/-- **The encoder that copies nested types produces the documented bytes.** -/
theorem encodeCopied_eq (hL : L.Advances) (hN : L.AdvancesNested) (hS : L.SizesStrings)
    (hrun : ∀ off, L.running off = some off) :
    ∀ (scope : Scope) (name : String) (t : TypeDef), scope.lookup name = some t →
      scope.Accepted rnd ctx → t.isPacked = false →
      ∀ {v : Value} {cs : List Chunk}, layout scope name v = some cs → L.Stores bs cs →
        L.encodeCopied scope name v = some (byteImage bs cs) := by
  refine scope_induction ?_ ?_
  · intro n t rest ih hacc hpk v cs h hs
    have hrest := hacc.tail
    obtain ⟨ws, hws, hcs⟩ := layout_head h
    obtain ⟨hc, hl⟩ := writes_contiguous hacc.laid.1 (hacc.valid _ (List.mem_cons_self ..)) hws
    rw [hpk] at hl
    -- the offsets the encoder counts to are those of the layout
    have hplace : AlignLang.place (L.advance fun m => (L.encoder rest m).1) t = some t := by
      have hv := hacc.valid _ (List.mem_cons_self ..)
      rw [layout, resolve_head] at h
      refine place_eq hL hN hacc.laid.1 hpk hv (strings_sized hacc.laid.1 hpk hv h ?_) ?_
      · intro s e v hl hstr
        obtain ⟨x, hx, _⟩ := hs.leaf s e v hl
        exact hS hx hstr
      · intro m c hm hcpk
        rw [encoder_fst rest m c hm, aligned_wireSize hrest hm hcpk]
    -- a nested encoder fills a buffer of its own, which is copied
    have hnested : EncodesNested L rest bs (t.total + 1)
        fun m => AlignLang.copyNested (L.encoder rest m).2 := by
      intro m c x ds hm hcpk hlay hst pre post _
      have henc : (L.encoder rest m).2 x = some (byteImage bs ds) :=
        ih m c hm hrest hcpk hlay hst
      have hlen : (byteImage bs ds).length = c.total := by
        rw [hst.length_eq, layout_size rest m c hm hrest hlay]
      show Option.bind ((L.encoder rest m).2 x) _ = _
      rw [henc, Option.bind_some, store_append (le_of_eq hlen), padTo_of_length hlen]
    have hstore := @storeWrites_eq L rnd ctx rest bs _ L.running (t.total + 1) hrest hnested 0
      (fun off _ => by rw [hrun, Nat.zero_add]) ws 0 t.total cs [] [] hc hl hcs hs rfl (by omega)
    rw [AlignLang.encodeCopied, encoder_head]
    show Option.bind _ _ = _
    rw [hplace, Option.bind_some, hws, Option.bind_eq_bind, Option.bind_some,
      aligned_wireSize hacc List.lookup_cons_self hpk]
    simpa using hstore
  · intro n t₀ rest m t hm ih hacc hpk v cs h hs
    rw [layout, resolve_tail t₀ rest hm] at h
    rw [AlignLang.encodeCopied, AlignLang.encoder, resolve_tail t₀ rest hm]
    exact ih hacc.tail hpk h hs

end Whole

/-! ## Values in other terms -/

section Terms

variable {L : AlignLang} {g : LeafMap} {bs bs' : Bytes} {scope : Scope} {name : String}
  {v : Value} {cs : List Chunk}

/-- A tag is not a leaf. -/
theorem tag_mem_mapChunks :
    ∀ (cs : List Chunk) {ds : List Chunk}, mapChunks g cs = some ds →
      ∀ size i, .tag size i ∈ ds → .tag size i ∈ cs := by
  intro cs
  induction cs with
  | nil => intro ds h; cases h; exact fun _ _ hm => absurd hm List.not_mem_nil
  | cons c cs ih =>
    intro ds h size i hm
    simp only [mapChunks, Option.bind_eq_bind, Option.bind_eq_some_iff, Option.pure_def,
      Option.some.injEq] at h
    obtain ⟨c', hc', ds', hds', rfl⟩ := h
    rcases List.mem_cons.mp hm with heq | hm
    · cases c with
      | leaf s e v =>
        simp only [mapChunk, Option.map_eq_some_iff] at hc'
        obtain ⟨w, _, rfl⟩ := hc'
        cases heq
      | _ => cases hc'; exact heq ▸ List.mem_cons_self ..
    · exact List.mem_cons_of_mem _ (ih hds' size i hm)

/-- What is put for a leaf is a leaf of the result. -/
theorem leaf_mem_mapChunks :
    ∀ (cs : List Chunk) {ds : List Chunk}, mapChunks g cs = some ds →
      ∀ s e v, .leaf s e v ∈ cs → ∀ w, g s e v = some w → .leaf s e w ∈ ds := by
  intro cs
  induction cs with
  | nil => intro ds _ s e v hm; exact absurd hm List.not_mem_nil
  | cons c cs ih =>
    intro ds h s e v hm w hw
    simp only [mapChunks, Option.bind_eq_bind, Option.bind_eq_some_iff, Option.pure_def,
      Option.some.injEq] at h
    obtain ⟨c', hc', ds', hds', rfl⟩ := h
    rcases List.mem_cons.mp hm with rfl | hm
    · rw [mapChunk, hw, Option.map_some, Option.some.injEq] at hc'
      rw [← hc']
      exact List.mem_cons_self ..
    · exact List.mem_cons_of_mem _ (ih hds' s e v hm w hw)

/-- Values with the same bytes in every leaf have the same bytes. -/
theorem byteImage_mapChunks {ds : List Chunk} (h : mapChunks g cs = some ds)
    (hall : AllLeaves (fun s e v => ∀ w, g s e v = some w → bs' s e w = bs s e v) cs) :
    byteImage bs' ds = byteImage bs cs := by
  refine flatMap_mapChunks (fun c d hd hc => ?_) cs h hall
  cases c with
  | leaf s e v => exact absurd rfl (hc s e v)
  | _ => cases hd; rfl

/-- **A value in its language's terms**, and the bytes that are stored for it. -/
theorem stores_in_terms (h : layout scope name v = some cs)
    (hg : AllLeaves (fun s e v => ∃ w x, g s e v = some w ∧ L.leaf s e.size e w = some x ∧
      x.length ≤ e.size ∧ bs s e v = padTo e.size x) cs)
    (htag : ∀ size i, .tag size i ∈ cs → L.tagByte i = some (UInt8.ofNat i)) :
    ∃ w ds bs', mapLeaves g scope name v = some w ∧ layout scope name w = some ds ∧
      L.Stores bs' ds ∧ byteImage bs' ds = byteImage bs cs := by
  obtain ⟨w, hw⟩ := mapLeaves_isSome h fun s e v hl => by
    obtain ⟨x, _, hx, _⟩ := hg s e v hl
    exact ⟨x, hx⟩
  obtain ⟨ds, hds, hlay⟩ := layout_of_mapLeaves h hw
  refine ⟨w, ds, fun s e w => padTo e.size ((L.leaf s e.size e w).getD []), hw, hlay,
    ⟨allLeaves_mapChunks cs hds fun s e v hl w hgw => ?_, fun size i hm =>
      htag size i (tag_mem_mapChunks cs hds size i hm)⟩,
    byteImage_mapChunks hds fun s e v hl w hgw => ?_⟩
  · obtain ⟨y, x, hy, hx, hle, _⟩ := hg s e v hl
    rw [hy, Option.some.injEq] at hgw
    subst hgw
    exact ⟨x, hx, hle, by rw [hx, Option.getD_some]⟩
  · obtain ⟨y, x, hy, hx, _, hbs⟩ := hg s e v hl
    rw [hy, Option.some.injEq] at hgw
    subst hgw
    rw [hx, Option.getD_some, hbs]

/-- **Equal bytes are equal in every leaf**, since a leaf always takes its size. -/
theorem byteImage_eq_iff :
    ∀ (cs : List Chunk), AllLeaves (fun s e v => (bs s e v).length = e.size) cs →
      AllLeaves (fun s e v => (bs' s e v).length = e.size) cs →
      (byteImage bs cs = byteImage bs' cs ↔ AllLeaves (fun s e v => bs s e v = bs' s e v) cs) := by
  intro cs h h'
  rw [allLeaves_iff] at h h' ⊢
  induction cs with
  | nil => simp
  | cons c cs ih =>
    have hc := h c (List.mem_cons_self ..)
    have hc' := h' c (List.mem_cons_self ..)
    have hlen : (c.bytes bs).length = (c.bytes bs').length := by
      rw [bytes_length hc, bytes_length hc']
    have hpart : c.bytes bs = c.bytes bs' ↔ c.OnLeaf fun s e v => bs s e v = bs' s e v := by
      cases c with
      | leaf s e v => exact Iff.rfl
      | _ => exact ⟨fun _ => trivial, fun _ => rfl⟩
    have hrest := ih (fun x hx => h x (List.mem_cons_of_mem _ hx))
      (fun x hx => h' x (List.mem_cons_of_mem _ hx))
    have happ : c.bytes bs ++ byteImage bs cs = c.bytes bs' ++ byteImage bs' cs ↔
        c.bytes bs = c.bytes bs' ∧ byteImage bs cs = byteImage bs' cs :=
      ⟨fun heq => List.append_inj heq hlen, fun heq => by rw [heq.1, heq.2]⟩
    rw [byteImage_cons, byteImage_cons, happ, hpart, hrest, List.forall_mem_cons]

end Terms

end ProtoEmb.Codec

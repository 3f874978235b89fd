import ProtoEmb.Codec.Reads
import ProtoEmb.Lib.BitBuffer

/-!
# The packed codec

The packed encoder of a type, in `protocol.c.j2`, `protocol.rs.j2` and `protocol.ts.j2`, ORs each
flag, tag and leaf into a zeroed buffer at the bit offset the template printed; a nested type is
packed by its own helper at a base offset. A struct that nothing embeds and that embeds nothing
has no helper: its encoder is the same body at literal offsets.

The templates of the three target languages share this body and differ in the
arithmetic around it. `PackLang` is what they differ in, `PackLang.Lawful` what the
body needs from it: below `2 ^ 32` bits, offsets are exact and `pack_bits` and
`unpack_bits` move whole bit strings. `none` stands for undefined behaviour or a panic.

For every accepted schema the encoder produces the bit string of the layout
(`pack_eq`) and the decoder, on a buffer that holds this string, reads back every leaf
through the language's decode expression (`unpack_eq`).
-/

namespace ProtoEmb.Codec

open ProtoEmb.Lib ProtoEmb.Schema

/-- What the packed templates of a target language differ in. -/
structure PackLang where
  /-- a literal bit offset -/
  literal : Nat → Option Nat
  /-- `base + offset` -/
  add : Nat → Nat → Option Nat
  /-- `pack_bits(buf, bit_off, bits, value)` -/
  packBits : List UInt8 → Nat → Nat → Nat → Option (List UInt8)
  /-- `unpack_bits(buf, bit_off, bits)` -/
  unpackBits : List UInt8 → Nat → Nat → Option Nat
  /-- the value argument of `pack_bits` for a leaf -/
  step : Bool → Elem → Value → Option Nat
  /-- the leaf, from the result of `unpack_bits` -/
  unstep : Bool → Elem → Nat → Option Value
  /-- the result of decoding a tag that has no variant -/
  unknownTag : Union → Nat → Option Value

namespace PackLang

variable (L : PackLang)

/-! ## The templates -/

/-- The width literal of a leaf: a bool is always one bit. -/
def leafWidth (e : Elem) (width : Nat) : Nat := if e.isBool then 1 else width

/-- One statement of the encoder, the base being that of `offset`. -/
def packWrite (env : String → List UInt8 → Nat → Value → Option (List UInt8))
    (offset : Nat → Option Nat) (buf : List UInt8) : Write → Option (List UInt8)
  | .flag off b => do
    let o ← offset off
    L.packBits buf o 1 (if b then 1 else 0)
  | .tag off size index => do
    let o ← offset off
    L.packBits buf o size index
  | .skip _ _ => some buf
  | .elem off scalar width e v => do
    let o ← offset off
    if e.isNested then env e.type buf o v
    else do
      let x ← L.step scalar e v
      L.packBits buf o (leafWidth e width) x

/-- The body of an encoder. -/
def packBody (env : String → List UInt8 → Nat → Value → Option (List UInt8))
    (offset : Nat → Option Nat) (t : TypeDef) (buf : List UInt8) (v : Value) :
    Option (List UInt8) := do
  let ws ← writes t v
  ws.foldlM (L.packWrite env offset) buf

/-- `*_pack`, `pack_into`, `pack*Into`: pack a value at a base offset. -/
def pack : Scope → String → List UInt8 → Nat → Value → Option (List UInt8) :=
  resolve (fun _ _ _ => none) fun env t buf base v => L.packBody env (L.add base) t buf v

/-- A struct outside of any nesting has no helper. -/
def isFlat (scope : Scope) (name : String) : TypeDef → Bool
  | .struct s => !(scope.needsPackHelper name || s.hasNested)
  | .union _ => false

/-- `*_encode`, `encode`, `encode*` of a packed type. -/
def encode (scope : Scope) (name : String) (v : Value) : Option (List UInt8) := do
  let t ← scope.lookup name
  let buf := List.replicate t.wireSize 0
  if isFlat scope name t then L.packBody (fun _ _ _ _ => none) L.literal t buf v
  else L.pack scope name buf 0 v

/-- How the decoder of a type reads `buf`. -/
def reader (env : String → List UInt8 → Nat → Option Value) (offset : Nat → Option Nat)
    (buf : List UInt8) : Reader where
  flag off := do
    let o ← offset off
    let u ← L.unpackBits buf o 1
    return u ≠ 0
  tag off size := do
    let o ← offset off
    L.unpackBits buf o size
  elem off scalar width e := do
    let o ← offset off
    if e.isNested then env e.type buf o
    else do
      let u ← L.unpackBits buf o (leafWidth e width)
      L.unstep scalar e u
  unknownTag := L.unknownTag

/-- `*_unpack`, `unpack_from`, `unpack*From`: read a value at a base offset. -/
def unpack : Scope → String → List UInt8 → Nat → Option Value :=
  resolve (fun _ _ => none) fun env t buf base => (L.reader env (L.add base) buf).type t

/-- `*_decode`, `decode`, `decode*` of a packed type, on a buffer of at least its size. -/
def decode (scope : Scope) (name : String) (buf : List UInt8) : Option Value := do
  let t ← scope.lookup name
  if isFlat scope name t then (L.reader (fun _ _ _ => none) L.literal buf).type t
  else L.unpack scope name buf 0

/-- The languages agree on offsets and bits below `2 ^ 32`. -/
structure Lawful : Prop where
  literal_eq : ∀ off, L.literal off = L.add 0 off
  add_eq : ∀ {base off}, base + off < 4294967296 → L.add base off = some (base + off)
  packBits_eq : ∀ {buf off bits} (x : Nat), bits ≤ 32 → off + bits < 4294967296 →
    off + bits ≤ 8 * buf.length →
    L.packBits buf off bits x = some (orBits buf off (natBits bits x))
  unpackBits_eq : ∀ {buf off bits}, bits ≤ 32 → off + bits < 4294967296 →
    off + bits ≤ 8 * buf.length → L.unpackBits buf off bits = some (ofBits (bitsAt buf off bits))

end PackLang

/-! ## Sizes -/

section Sizes

variable {rnd : Rat → Rat} {ctx : Context} {scope : Scope} {isPacked : Bool}

/-- The units a layout takes. -/
def sizeOf (cs : List Chunk) : Nat := (cs.map Chunk.size).sum

@[simp] theorem sizeOf_nil : sizeOf [] = 0 := rfl

@[simp] theorem sizeOf_cons (c : Chunk) (cs : List Chunk) :
    sizeOf (c :: cs) = c.size + sizeOf cs := by
  rw [sizeOf, List.map_cons, List.sum_cons, sizeOf]

@[simp] theorem sizeOf_append (xs ys : List Chunk) :
    sizeOf (xs ++ ys) = sizeOf xs + sizeOf ys := by
  rw [sizeOf, List.map_append, List.sum_append, sizeOf, sizeOf]

/-- A write takes the room it claims, given the same for the nested types. -/
theorem layoutWrite_size
    (ih : ∀ {m t v cs}, scope.lookup m = some t → layout scope m v = some cs →
      sizeOf cs = t.total)
    {w : Write} (hw : w.Laid rnd ctx scope isPacked) {cs : List Chunk}
    (h : layoutWrite (layout scope) w = some cs) : sizeOf cs = w.size := by
  cases w with
  | elem off s k e v =>
    simp only [layoutWrite, layoutElem] at h
    split at h
    next hn =>
      obtain ⟨t, ht, _, hsize⟩ := hw.2.1.nested hn
      rw [ih ht h]
      exact hsize.symm
    next => cases h; rfl
  | _ => cases h; rfl

theorem layoutWrites_size
    (ih : ∀ {m t v cs}, scope.lookup m = some t → layout scope m v = some cs →
      sizeOf cs = t.total) :
    ∀ (ws : List Write) {a b : Nat} {cs : List Chunk}, Contiguous a ws b →
      (∀ w ∈ ws, w.Laid rnd ctx scope isPacked) → layoutWrites (layout scope) ws = some cs →
      a + sizeOf cs = b := by
  intro ws
  induction ws with
  | nil => intro a b cs hc _ h; cases h; exact hc
  | cons w ws ihs =>
    intro a b cs hc hlaid h
    simp only [layoutWrites, Option.bind_eq_bind, Option.bind_eq_some_iff, Option.pure_def,
      Option.some.injEq] at h
    obtain ⟨c, hc₁, cs', hcs', rfl⟩ := h
    have hfirst := layoutWrite_size ih (hlaid w (List.mem_cons_self ..)) hc₁
    have hrest := ihs hc.2 (fun x hx => hlaid x (List.mem_cons_of_mem _ hx)) hcs'
    rw [sizeOf_append]
    omega

/-- **The layout of a value of a type takes the type's size.** -/
theorem layout_size :
    ∀ (scope : Scope) (name : String) (t : TypeDef), scope.lookup name = some t →
      scope.Accepted rnd ctx →
      ∀ {v : Value} {cs : List Chunk}, layout scope name v = some cs → sizeOf cs = t.total := by
  refine scope_induction ?_ ?_
  · intro n t rest ih hacc v cs h
    obtain ⟨ws, hws, hcs⟩ := layout_head h
    obtain ⟨hc, hl⟩ := writes_contiguous hacc.laid.1 (hacc.valid _ (List.mem_cons_self ..)) hws
    have := layoutWrites_size (fun hm h => ih _ _ hm hacc.tail h) ws hc hl hcs
    omega
  · intro n t₀ rest m t hm ih hacc v cs h
    rw [layout, resolve_tail t₀ rest hm] at h
    exact ih hacc.tail h

end Sizes

/-! ## Bit strings -/

/-- The wire step of every leaf. -/
abbrev Steps := Bool → Elem → Value → Nat

def Chunk.bits (step : Steps) : Chunk → List Bool
  | flag b => [b]
  | tag size index => natBits size index
  | pad size => List.replicate size false
  | leaf s e v => natBits e.size (step s e v)

/-- **The documented bit string** of a layout: every part in order, each as wide as it
is, least significant bit first. -/
def image (step : Steps) (cs : List Chunk) : List Bool := cs.flatMap (Chunk.bits step)

section Image

variable {step : Steps}

@[simp] theorem image_nil : image step [] = [] := rfl

@[simp] theorem image_cons (c : Chunk) (cs : List Chunk) :
    image step (c :: cs) = c.bits step ++ image step cs := List.flatMap_cons

@[simp] theorem image_append (xs ys : List Chunk) :
    image step (xs ++ ys) = image step xs ++ image step ys := List.flatMap_append

@[simp] theorem image_length (cs : List Chunk) : (image step cs).length = sizeOf cs := by
  induction cs with
  | nil => rfl
  | cons c cs ih =>
    rw [image_cons, List.length_append, ih, sizeOf_cons]
    cases c <;> simp [Chunk.bits, Chunk.size]

end Image

/-- The parts that go through `pack_bits` have at most 32 bits. -/
def Chunk.Narrow : Chunk → Prop
  | flag _ => True
  | tag size _ => size ≤ 32
  | pad _ => True
  | leaf _ e _ => e.size ≤ 32

instance : (c : Chunk) → Decidable c.Narrow
  | .flag _ => inferInstanceAs (Decidable True)
  | .tag size _ => inferInstanceAs (Decidable (size ≤ 32))
  | .pad _ => inferInstanceAs (Decidable True)
  | .leaf _ e _ => inferInstanceAs (Decidable (e.size ≤ 32))

/-- The language can pack the layout: its parts are narrow and the leaf expressions
have the values `step`. -/
structure PackLang.Packs (L : PackLang) (step : Steps) (cs : List Chunk) : Prop where
  narrow : ∀ c ∈ cs, c.Narrow
  defined : AllLeaves (fun s e v => L.step s e v = some (step s e v)) cs

theorem PackLang.Packs.left {L : PackLang} {step : Steps} {xs ys : List Chunk}
    (h : L.Packs step (xs ++ ys)) : L.Packs step xs :=
  ⟨fun c hc => h.narrow c (List.mem_append_left _ hc),
    fun s e v hl => h.defined s e v (List.mem_append_left _ hl)⟩

theorem PackLang.Packs.right {L : PackLang} {step : Steps} {xs ys : List Chunk}
    (h : L.Packs step (xs ++ ys)) : L.Packs step ys :=
  ⟨fun c hc => h.narrow c (List.mem_append_right _ hc),
    fun s e v hl => h.defined s e v (List.mem_append_right _ hl)⟩

/-- A packed bool has one bit. -/
theorem leafWidth_eq {rnd : Rat → Rat} {ctx : Context} {scope : Scope} {e : Elem}
    (he : e.Laid rnd ctx scope true) (hn : ¬ e.isNested = true) :
    PackLang.leafWidth e e.size = e.size := by
  unfold PackLang.leafWidth
  split
  next hb => exact ((he.leaf (by simpa using hn)).bool_size hb).symm
  next => rfl

/-! ## Encoding -/

section Encode

variable {L : PackLang} {rnd : Rat → Rat} {ctx : Context} {scope : Scope} {step : Steps}

/-- One statement ORs its part of the bit string into the buffer. -/
theorem packWrite_eq (hL : L.Lawful)
    (ih : ∀ {m t v cs}, scope.lookup m = some t → t.isPacked = true →
      layout scope m v = some cs → L.Packs step cs → ∀ {buf base},
      base + t.total < 4294967296 → base + t.total ≤ 8 * buf.length →
      L.pack scope m buf base v = some (orBits buf base (image step cs)))
    {w : Write} (hw : w.Laid rnd ctx scope true) {cs : List Chunk}
    (h : layoutWrite (layout scope) w = some cs) (hp : L.Packs step cs) (buf : List UInt8)
    (base : Nat) (hlim : base + w.off + w.size < 4294967296)
    (hbuf : base + w.off + w.size ≤ 8 * buf.length) :
    L.packWrite (L.pack scope) (L.add base) buf w
      = some (orBits buf (base + w.off) (image step cs)) := by
  have hadd : L.add base w.off = some (base + w.off) := hL.add_eq (by omega)
  cases w with
  | flag off b =>
    cases h
    simp only [PackLang.packWrite, Write.off, Write.size] at hadd hlim hbuf ⊢
    rw [hadd, Option.bind_eq_bind, Option.bind_some, hL.packBits_eq _ (by decide) hlim hbuf]
    cases b <;> rfl
  | tag off size index =>
    cases h
    have hsize : size ≤ 32 := hp.narrow _ (List.mem_cons_self ..)
    simp only [PackLang.packWrite, Write.off, Write.size] at hadd hlim hbuf ⊢
    rw [hadd, Option.bind_eq_bind, Option.bind_some, hL.packBits_eq _ hsize hlim hbuf]
    simp [Chunk.bits]
  -- what is skipped stays zero
  | skip off size =>
    cases h
    simp [PackLang.packWrite, Chunk.bits, orBits_zeros]
  | elem off s k e v =>
    obtain ⟨rfl, he, _⟩ := hw
    simp only [layoutWrite, layoutElem] at h
    simp only [PackLang.packWrite, Write.off, Write.size] at hadd hlim hbuf ⊢
    rw [hadd, Option.bind_eq_bind, Option.bind_some]
    -- a nested type is packed by its own function, at the sum of the offsets
    split at h
    next hn =>
      obtain ⟨t, ht, hpk, hsize⟩ := he.nested hn
      rw [if_pos hn]
      exact ih ht hpk h hp (hsize ▸ hlim) (hsize ▸ hbuf)
    next hn =>
      cases h
      have hsize : e.size ≤ 32 := hp.narrow _ (List.mem_cons_self ..)
      rw [if_neg hn, hp.defined s e v (List.mem_cons_self ..), leafWidth_eq he hn]
      show L.packBits buf _ _ _ = _
      rw [hL.packBits_eq _ hsize hlim hbuf]
      simp [Chunk.bits]

theorem packWrites_eq (hL : L.Lawful) (hacc : scope.Accepted rnd ctx)
    (ih : ∀ {m t v cs}, scope.lookup m = some t → t.isPacked = true →
      layout scope m v = some cs → L.Packs step cs → ∀ {buf base},
      base + t.total < 4294967296 → base + t.total ≤ 8 * buf.length →
      L.pack scope m buf base v = some (orBits buf base (image step cs))) :
    ∀ (ws : List Write) {a b base : Nat} {cs : List Chunk} {buf : List UInt8},
      Contiguous a ws b → (∀ w ∈ ws, w.Laid rnd ctx scope true) →
      layoutWrites (layout scope) ws = some cs → L.Packs step cs →
      base + b < 4294967296 → base + b ≤ 8 * buf.length →
      ws.foldlM (L.packWrite (L.pack scope) (L.add base)) buf
        = some (orBits buf (base + a) (image step cs)) := by
  intro ws
  induction ws with
  | nil => intro a b base cs buf _ _ h _ _ _; cases h; rfl
  | cons w ws ihs =>
    intro a b base cs buf hc hlaid h hp hlim hbuf
    simp only [layoutWrites, Option.bind_eq_bind, Option.bind_eq_some_iff, Option.pure_def,
      Option.some.injEq] at h
    obtain ⟨c, hc₁, cs', hcs', rfl⟩ := h
    obtain ⟨rfl, hrest⟩ := hc
    have hw := hlaid w (List.mem_cons_self ..)
    have hlaid' := fun x hx => hlaid x (List.mem_cons_of_mem _ hx)
    have hsz : ∀ {m t v cs}, scope.lookup m = some t → layout scope m v = some cs →
        sizeOf cs = t.total := fun hm h => layout_size scope _ _ hm hacc h
    have hend := layoutWrites_size hsz ws hrest hlaid' hcs'
    have hsize := layoutWrite_size hsz hw hc₁
    have hfirst := packWrite_eq hL ih hw hc₁ hp.left buf base (by omega) (by omega)
    rw [List.foldlM_cons, hfirst, Option.bind_eq_bind, Option.bind_some,
      ihs hrest hlaid' hcs' hp.right hlim (by rw [orBits_length]; exact hbuf),
      image_append, orBits_append, image_length, hsize, Nat.add_assoc]

/-- **The packed encoder of a type, at any base, ORs the documented bit string into the
buffer.** -/
theorem pack_eq (hL : L.Lawful) :
    ∀ (scope : Scope) (name : String) (t : TypeDef), scope.lookup name = some t →
      scope.Accepted rnd ctx → t.isPacked = true →
      ∀ {v : Value} {cs : List Chunk}, layout scope name v = some cs → L.Packs step cs →
      ∀ {buf : List UInt8} {base : Nat}, base + t.total < 4294967296 →
        base + t.total ≤ 8 * buf.length →
        L.pack scope name buf base v = some (orBits buf base (image step cs)) := by
  refine scope_induction ?_ ?_
  · intro n t rest ih hacc hpk v cs h hp buf base hlim hbuf
    obtain ⟨ws, hws, hcs⟩ := layout_head h
    obtain ⟨hc, hl⟩ := writes_contiguous hacc.laid.1 (hacc.valid _ (List.mem_cons_self ..)) hws
    rw [hpk] at hl
    rw [PackLang.pack, resolve_head, PackLang.packBody, hws, Option.bind_eq_bind,
      Option.bind_some]
    exact packWrites_eq hL hacc.tail (fun hm hpk h hp _ _ hlim hbuf =>
      ih _ _ hm hacc.tail hpk h hp hlim hbuf) ws hc hl hcs hp hlim hbuf
  · intro n t₀ rest m t hm ih hacc hpk v cs h hp buf base hlim hbuf
    rw [layout, resolve_tail t₀ rest hm] at h
    rw [PackLang.pack, resolve_tail t₀ rest hm]
    exact ih hacc.tail hpk h hp hlim hbuf

end Encode

/-! ## Decoding -/

section Decode

variable {L : PackLang} {rnd : Rat → Rat} {ctx : Context} {scope : Scope} {step : Steps}

/-- A leaf that is packed and unpacked again. -/
def PackLang.readBack (L : PackLang) (step : Steps) : LeafMap :=
  fun s e v => L.unstep s e (step s e v % 2 ^ e.size)

/-- What stands in the buffer, write by write. -/
theorem holds_writes (hacc : scope.Accepted rnd ctx) {buf : List UInt8} {base : Nat} :
    ∀ (ws : List Write) {a b : Nat} {cs : List Chunk}, Contiguous a ws b →
      (∀ w ∈ ws, w.Laid rnd ctx scope true) → layoutWrites (layout scope) ws = some cs →
      Holds buf (base + a) (image step cs) →
      ∀ w ∈ ws, w.off + w.size ≤ b ∧
        ∃ c, layoutWrite (layout scope) w = some c ∧ (∀ x ∈ c, x ∈ cs) ∧
          Holds buf (base + w.off) (image step c) := by
  intro ws
  induction ws with
  | nil => intro a b cs _ _ _ _ w hw; exact absurd hw List.not_mem_nil
  | cons w₀ ws ihs =>
    intro a b cs hc hlaid h hold w hw
    simp only [layoutWrites, Option.bind_eq_bind, Option.bind_eq_some_iff, Option.pure_def,
      Option.some.injEq] at h
    obtain ⟨c, hc₁, cs', hcs', rfl⟩ := h
    obtain ⟨rfl, hrest⟩ := hc
    have hlaid' := fun x hx => hlaid x (List.mem_cons_of_mem _ hx)
    have hsz : ∀ {m t v cs}, scope.lookup m = some t → layout scope m v = some cs →
        sizeOf cs = t.total := fun hm h => layout_size scope _ _ hm hacc h
    have hsize := layoutWrite_size hsz (hlaid w₀ (List.mem_cons_self ..)) hc₁
    have hend := layoutWrites_size hsz ws hrest hlaid' hcs'
    rw [image_append, holds_append, image_length, hsize, Nat.add_assoc] at hold
    rcases List.mem_cons.mp hw with rfl | hw
    · exact ⟨by omega, c, hc₁, fun x hx => List.mem_append_left _ hx, hold.1⟩
    · obtain ⟨hle, c', hc', hsub, hh⟩ := ihs hrest hlaid' hcs' hold.2 w hw
      exact ⟨hle, c', hc', fun x hx => List.mem_append_right _ (hsub x hx), hh⟩

/-- The bits of a part, read back as a number. -/
theorem unpackBits_natBits (hL : L.Lawful) {buf : List UInt8} {off bits x : Nat}
    (hbits : bits ≤ 32) (hlim : off + bits < 4294967296) (hbuf : off + bits ≤ 8 * buf.length)
    (hold : Holds buf off (natBits bits x)) :
    L.unpackBits buf off bits = some (x % 2 ^ bits) := by
  have hat := bitsAt_of_holds hold
  rw [natBits_length] at hat
  rw [hL.unpackBits_eq hbits hlim hbuf, hat, ofBits_natBits]

/-- The reader finds what a statement wrote. -/
theorem reader_finds (hL : L.Lawful) {buf : List UInt8} {base : Nat}
    (ih : ∀ {m t v cs}, scope.lookup m = some t → t.isPacked = true →
      layout scope m v = some cs → (∀ c ∈ cs, c.Narrow) → ∀ {base},
      base + t.total < 4294967296 → base + t.total ≤ 8 * buf.length →
      Holds buf base (image step cs) →
      L.unpack scope m buf base = mapLeaves (L.readBack step) scope m v)
    {w : Write} (hw : w.Laid rnd ctx scope true) {cs : List Chunk}
    (h : layoutWrite (layout scope) w = some cs) (hnarrow : ∀ c ∈ cs, c.Narrow)
    (hlim : base + w.off + w.size < 4294967296)
    (hbuf : base + w.off + w.size ≤ 8 * buf.length)
    (hold : Holds buf (base + w.off) (image step cs)) :
    (L.reader (L.unpack scope) (L.add base) buf).Finds
      (mapElem (L.readBack step) (mapLeaves (L.readBack step) scope)) w := by
  have hadd : L.add base w.off = some (base + w.off) := hL.add_eq (by omega)
  cases w with
  | flag off b =>
    cases h
    simp only [Write.off, Write.size] at hadd hlim hbuf hold
    -- a flag is the one bit of its number
    have hbit : natBits 1 b.toNat = [b] := by cases b <;> rfl
    have hread := unpackBits_natBits hL (by decide) hlim hbuf
      (x := b.toNat) (by simpa [Chunk.bits, hbit] using hold)
    simp only [Reader.Finds, PackLang.reader, hadd, hread, Option.bind_eq_bind, Option.bind_some]
    cases b <;> rfl
  | tag off size index =>
    cases h
    have hsize : size ≤ 32 := hnarrow _ (List.mem_cons_self ..)
    simp only [Write.off, Write.size] at hadd hlim hbuf hold
    have hread := unpackBits_natBits hL hsize hlim hbuf
      (x := index) (by simpa [Chunk.bits] using hold)
    simp only [Reader.Finds, PackLang.reader, hadd, hread, Option.bind_eq_bind, Option.bind_some]
    rw [Nat.mod_eq_of_lt hw]
  | skip off size => exact trivial
  | elem off s k e v =>
    obtain ⟨rfl, he, _⟩ := hw
    simp only [layoutWrite, layoutElem] at h
    simp only [Write.off, Write.size] at hadd hlim hbuf hold
    simp only [Reader.Finds, PackLang.reader, hadd, Option.bind_eq_bind, Option.bind_some, mapElem]
    -- by the induction, or from the bits of the leaf
    split at h
    next hn =>
      obtain ⟨t, ht, hpk, hsize⟩ := he.nested hn
      rw [if_pos hn, if_pos hn]
      exact ih ht hpk h hnarrow (hsize ▸ hlim) (hsize ▸ hbuf) hold
    next hn =>
      cases h
      have hsize : e.size ≤ 32 := hnarrow _ (List.mem_cons_self ..)
      have hread := unpackBits_natBits hL hsize hlim hbuf
        (x := step s e v) (by simpa [Chunk.bits] using hold)
      rw [if_neg hn, if_neg hn, leafWidth_eq he hn, hread]
      rfl

/-- **The packed decoder of a type, on a buffer that holds the documented bit string of a
value, rebuilds the value from its leaves.** -/
theorem unpack_eq (hL : L.Lawful) {buf : List UInt8} :
    ∀ (scope : Scope) (name : String) (t : TypeDef), scope.lookup name = some t →
      scope.Accepted rnd ctx → t.isPacked = true →
      ∀ {v : Value} {cs : List Chunk}, layout scope name v = some cs →
      (∀ c ∈ cs, c.Narrow) → ∀ {base : Nat}, base + t.total < 4294967296 →
        base + t.total ≤ 8 * buf.length → Holds buf base (image step cs) →
        L.unpack scope name buf base = mapLeaves (L.readBack step) scope name v := by
  refine scope_induction ?_ ?_
  · intro n t rest ih hacc hpk v cs h hnarrow base hlim hbuf hold
    obtain ⟨ws, hws, hcs⟩ := layout_head h
    obtain ⟨hc, hl⟩ := writes_contiguous hacc.laid.1 (hacc.valid _ (List.mem_cons_self ..)) hws
    rw [hpk] at hl
    rw [PackLang.unpack, resolve_head, mapLeaves, resolve_head]
    refine Reader.type_eq hws fun w hw => ?_
    obtain ⟨hle, c, hc₁, hsub, hh⟩ := holds_writes hacc.tail ws hc hl hcs hold w hw
    exact reader_finds hL (fun hm hpk h hn _ hlim hbuf hold =>
      ih _ _ hm hacc.tail hpk h hn hlim hbuf hold) (hl w hw) hc₁
      (fun x hx => hnarrow x (hsub x hx)) (by omega) (by omega) hh
  · intro n t₀ rest m t hm ih hacc hpk v cs h hnarrow base hlim hbuf hold
    rw [layout, resolve_tail t₀ rest hm] at h
    rw [PackLang.unpack, resolve_tail t₀ rest hm, mapLeaves, resolve_tail t₀ rest hm]
    exact ih hacc.tail hpk h hnarrow hlim hbuf hold

end Decode

/-! ## The flat path -/

section Flat

variable {L : PackLang} {rnd : Rat → Rat} {ctx : Context}

/-- The elements of the statements of a struct are those of its fields. -/
theorem writesFields_elem :
    ∀ (fs : List Field) {vs : List Value} {ws : List Write}, writesFields fs vs = some ws →
      AllElems (fun _ e _ => ∃ f ∈ fs, e = f.elem) ws := by
  have harr : ∀ (f : Field) (vs : List Value) (i : Nat),
      AllElems (fun _ e _ => e = f.elem) (writesArray f i vs) := by
    intro f vs
    induction vs with
    | nil => intro i off s k e v hm; exact absurd hm List.not_mem_nil
    | cons v vs ih =>
      intro i off s k e v hm
      rcases List.mem_cons.mp hm with heq | hm
      · cases heq
        rfl
      · exact ih (i + 1) off s k e v hm
  have hfield : ∀ {f : Field} {v : Value} {ws : List Write}, writesField f v = some ws →
      AllElems (fun _ e _ => e = f.elem) ws := by
    intro f v ws h
    unfold writesField at h
    -- an array, an optional that is absent or present, a plain field
    split at h
    · split at h
      next vs =>
        split at h
        · cases h
          exact harr f vs 0
        · cases h
      next => cases h
    · split at h
      · split at h
        · cases h
          intro off s k e v hm
          simp at hm
        · cases h
          intro off s k e v hm
          simp at hm
          exact hm.2.2.2.1
        · cases h
      · cases h
        intro off s k e v hm
        simp at hm
        exact hm.2.2.2.1
  -- the statements of a struct are those of its fields, one after the other
  intro fs
  induction fs with
  | nil =>
    intro vs ws h
    cases vs with
    | nil => cases h; intro off s k e v hm; exact absurd hm List.not_mem_nil
    | cons v vs => cases h
  | cons f fs ih =>
    intro vs ws h
    cases vs with
    | nil => cases h
    | cons v vs =>
      simp only [writesFields, Option.bind_eq_bind, Option.bind_eq_some_iff, Option.pure_def,
        Option.some.injEq] at h
      obtain ⟨w, hw, ws', hws', rfl⟩ := h
      intro off s k e v hm
      rcases List.mem_append.mp hm with hm | hm
      · exact ⟨f, List.mem_cons_self .., hfield hw off s k e v hm⟩
      · obtain ⟨g, hg, he⟩ := ih hws' off s k e v hm
        exact ⟨g, List.mem_cons_of_mem _ hg, he⟩

theorem foldlM_congr_mem {α β : Type} {F G : β → α → Option β} :
    ∀ (l : List α) (s : β), (∀ a ∈ l, ∀ s, F s a = G s a) → l.foldlM F s = l.foldlM G s := by
  intro l
  induction l with
  | nil => intro s _; rfl
  | cons a l ih =>
    intro s h
    rw [List.foldlM_cons, List.foldlM_cons, h a (List.mem_cons_self ..)]
    cases G s a with
    | none => rfl
    | some s' => exact ih s' fun b hb => h b (List.mem_cons_of_mem _ hb)

/-- A flat type is a struct none of whose fields is nested. -/
theorem isFlat_struct {rest : Scope} {whole : Scope} {name : String} {t : TypeDef}
    (ht : t.Laid rnd ctx rest) (h : PackLang.isFlat whole name t = true) :
    ∃ s, t = .struct s ∧ ∀ f ∈ s.fields, f.elem.isNested = false := by
  cases t with
  | struct s =>
    have hs : s.Laid rnd ctx rest := ht
    have hn : s.hasNested = false := by
      simp only [PackLang.isFlat, Bool.not_eq_true', Bool.or_eq_false_iff] at h
      exact h.2
    rw [hs.nested_eq] at hn
    exact ⟨s, rfl, fun f hf => by simpa using List.any_eq_false.mp hn f hf⟩
  | union u => cases h

/-- The statements of such a struct encode no nested type. -/
theorem writes_leaf {s : Struct} (hleaf : ∀ f ∈ s.fields, f.elem.isNested = false) {v : Value}
    {ws : List Write} (h : writes (.struct s) v = some ws) {off k : Nat} {sc : Bool} {e : Elem}
    {x : Value} (hw : .elem off sc k e x ∈ ws) : e.isNested = false := by
  cases v with
  | struct vs =>
    obtain ⟨f, hf, rfl⟩ := writesFields_elem s.fields h off sc k e x hw
    exact hleaf f hf
  | _ => cases h

/-- **The flat encoder is the helper at base 0.** -/
theorem encode_eq_pack (hL : L.Lawful) (whole : Scope) :
    ∀ (scope : Scope) (name : String) (t : TypeDef), scope.lookup name = some t →
      scope.Accepted rnd ctx → PackLang.isFlat whole name t = true →
      ∀ (buf : List UInt8) (v : Value),
        L.packBody (fun _ _ _ _ => none) L.literal t buf v = L.pack scope name buf 0 v := by
  refine scope_induction ?_ ?_
  · intro n t rest _ hacc hflat buf v
    obtain ⟨s, rfl, hleaf⟩ := isFlat_struct hacc.laid.1 hflat
    rw [PackLang.pack, resolve_head, PackLang.packBody, PackLang.packBody]
    cases hws : writes (.struct s) v with
    | none => rfl
    | some ws =>
      refine foldlM_congr_mem ws buf fun w hw buf => ?_
      cases w with
      | elem off sc k e x => simp [PackLang.packWrite, writes_leaf hleaf hws hw, hL.literal_eq]
      | _ => simp [PackLang.packWrite, hL.literal_eq]
  · intro n t₀ rest m t hm ih hacc hflat buf v
    rw [PackLang.pack, resolve_tail t₀ rest hm]
    exact ih hacc.tail hflat buf v

/-- Readers that agree on the flags and the elements that lie in the fields. -/
theorem Reader.fields_congr {scope : Scope} {isPacked : Bool} {rd rd' : Reader} :
    ∀ (fs : List Field) {off : Nat}, FieldsLaid rnd ctx scope isPacked off fs →
      (∀ f ∈ fs, ∀ o ≤ off + (fs.map Field.size).sum, rd.flag o = rd'.flag o ∧
        ∀ s k, rd.elem o s k f.elem = rd'.elem o s k f.elem) →
      rd.fields fs = rd'.fields fs := by
  intro fs
  induction fs with
  | nil => intro off _ _; rfl
  | cons f fs ih =>
    intro off hlaid h
    obtain ⟨hf, hrest⟩ := hlaid
    rw [List.map_cons, List.sum_cons, ← Nat.add_assoc] at h
    have hfields := ih hrest fun g hg => h g (List.mem_cons_of_mem _ hg)
    have hin : ∀ o ≤ off + f.size, rd.flag o = rd'.flag o ∧
        ∀ s k, rd.elem o s k f.elem = rd'.elem o s k f.elem :=
      fun o ho => h f (List.mem_cons_self ..) o (by omega)
    have hoff := hf.offset_eq
    have hvalue := hf.value_eq
    have hsize := hf.size_eq
    -- the elements from `i` on, all of them inside the field
    have harr : ∀ n i, i + n ≤ f.arrayLen → rd.array f n i = rd'.array f n i := by
      intro n
      induction n with
      | zero => intro i _; rfl
      | succ n ih =>
        intro i hi
        have hle := Nat.mul_le_mul_right f.elem.size (show i ≤ f.arrayLen by omega)
        rw [Nat.mul_comm f.arrayLen] at hle
        simp only [Reader.array, (hin (f.offset + i * f.elem.size) (by omega)).2,
          ih (i + 1) (by omega)]
    simp only [Reader.fields, Reader.field, hfields, harr f.arrayLen 0 (by omega),
      (hin f.offset (by omega)).1, (hin f.offset (by omega)).2,
      (hin f.valueOffset (by omega)).2]

/-- **The flat decoder is the helper at base 0.** -/
theorem decode_eq_unpack (hL : L.Lawful) (whole : Scope) :
    ∀ (scope : Scope) (name : String) (t : TypeDef), scope.lookup name = some t →
      scope.Accepted rnd ctx → PackLang.isFlat whole name t = true →
      ∀ (buf : List UInt8),
        (L.reader (fun _ _ _ => none) L.literal buf).type t = L.unpack scope name buf 0 := by
  refine scope_induction ?_ ?_
  · intro n t rest _ hacc hflat buf
    obtain ⟨s, rfl, hleaf⟩ := isFlat_struct hacc.laid.1 hflat
    have hs : s.Laid rnd ctx rest := hacc.laid.1
    rw [PackLang.unpack, resolve_head]
    have hfields : (L.reader (fun _ _ _ => none) L.literal buf).fields s.fields
        = (L.reader (L.unpack rest) (L.add 0) buf).fields s.fields := by
      refine Reader.fields_congr s.fields hs.fields fun f hf o _ => ⟨?_, fun sc k => ?_⟩
      · simp [PackLang.reader, hL.literal_eq]
      · simp [PackLang.reader, hleaf f hf, hL.literal_eq]
    show Option.bind _ _ = Option.bind _ _
    rw [hfields]
    rfl
  · intro n t₀ rest m t hm ih hacc hflat buf
    rw [PackLang.unpack, resolve_tail t₀ rest hm]
    exact ih hacc.tail hflat buf

end Flat

/-! ## Whole messages -/

/-- A zeroed buffer of the type's wire size with the bit string in it. -/
def wireBytes (t : TypeDef) (bits : List Bool) : List UInt8 :=
  orBits (List.replicate t.wireSize 0) 0 bits

section Whole

variable {L : PackLang} {rnd : Rat → Rat} {ctx : Context} {scope : Scope} {name : String}
  {t : TypeDef} {v : Value} {cs : List Chunk} {step : Steps}

/-- A packed type has as many bytes as its bits need. -/
theorem packed_wireSize (hacc : scope.Accepted rnd ctx) (ht : scope.lookup name = some t)
    (hpk : t.isPacked = true) : t.wireSize = (t.total + 7) / 8 := by
  obtain ⟨rest, hlaid⟩ := hacc.laid.lookup rnd ctx ht
  rw [hlaid.wire_eq, hpk]
  rfl

/-- **The encoder.** -/
theorem encode_eq (hL : L.Lawful) (hacc : scope.Accepted rnd ctx)
    (ht : scope.lookup name = some t) (hpk : t.isPacked = true)
    (h : layout scope name v = some cs) (hp : L.Packs step cs) (hlim : t.total < 4294967296) :
    L.encode scope name v = some (wireBytes t (image step cs)) := by
  have hwire := packed_wireSize hacc ht hpk
  have hpack : L.pack scope name (List.replicate t.wireSize 0) 0 v
      = some (orBits (List.replicate t.wireSize 0) 0 (image step cs)) :=
    pack_eq hL scope name t ht hacc hpk h hp (by omega) (by rw [List.length_replicate]; omega)
  unfold PackLang.encode
  rw [ht, Option.bind_eq_bind, Option.bind_some]
  split
  next hflat => rw [encode_eq_pack hL scope scope name t ht hacc hflat, hpack, wireBytes]
  next => rw [hpack, wireBytes]

/-- **The decoder on an encoded value.** -/
theorem decode_eq (hL : L.Lawful) (hacc : scope.Accepted rnd ctx)
    (ht : scope.lookup name = some t) (hpk : t.isPacked = true)
    (h : layout scope name v = some cs) (hn : ∀ c ∈ cs, c.Narrow) (hlim : t.total < 4294967296) :
    L.decode scope name (wireBytes t (image step cs))
      = mapLeaves (L.readBack step) scope name v := by
  have hwire := packed_wireSize hacc ht hpk
  have hsize := layout_size scope name t ht hacc h
  have hold : Holds (wireBytes t (image step cs)) 0 (image step cs) :=
    holds_orBits (by rw [image_length]; omega)
  have hunpack : L.unpack scope name (wireBytes t (image step cs)) 0
      = mapLeaves (L.readBack step) scope name v :=
    unpack_eq hL scope name t ht hacc hpk h hn (by omega)
      (by rw [wireBytes, orBits_length, List.length_replicate]; omega) hold
  unfold PackLang.decode
  rw [ht, Option.bind_eq_bind, Option.bind_some]
  split
  next hflat => rw [decode_eq_unpack hL scope scope name t ht hacc hflat, hunpack]
  next => exact hunpack

/-- The bytes of a bit string, read as bits: the string, and zeros to the byte boundary. -/
theorem bitsAt_wireBytes {bits : List Bool} (hle : bits.length ≤ 8 * t.wireSize) :
    bitsAt (wireBytes t bits) 0 (8 * t.wireSize)
      = bits ++ List.replicate (8 * t.wireSize - bits.length) false := by
  have hpad : wireBytes t bits
      = wireBytes t (bits ++ List.replicate (8 * t.wireSize - bits.length) false) := by
    rw [wireBytes, wireBytes, orBits_append, orBits_zeros]
  have hlen : (bits ++ List.replicate (8 * t.wireSize - bits.length) false).length
      = 8 * t.wireSize := by
    rw [List.length_append, List.length_replicate]
    omega
  have hold : Holds (wireBytes t bits) 0
      (bits ++ List.replicate (8 * t.wireSize - bits.length) false) := by
    rw [hpad]
    exact holds_orBits (by omega)
  have hat := bitsAt_of_holds hold
  rw [hlen] at hat
  exact hat

end Whole

/-! ## Values in other terms -/

section Terms

variable {g : LeafMap} {step step' : Steps}

/-- What holds of the replaced leaves holds of the leaves of the result. -/
theorem allLeaves_mapChunks {P : Bool → Elem → Value → Prop} :
    ∀ (cs : List Chunk) {ds : List Chunk}, mapChunks g cs = some ds →
      AllLeaves (fun s e v => ∀ w, g s e v = some w → P s e w) cs → AllLeaves P ds := by
  intro cs
  induction cs with
  | nil => intro ds h _; cases h; intro s e v hm; exact absurd hm List.not_mem_nil
  | cons c cs ih =>
    intro ds h hall s e w hm
    simp only [mapChunks, Option.bind_eq_bind, Option.bind_eq_some_iff, Option.pure_def,
      Option.some.injEq] at h
    obtain ⟨c', hc', ds', hds', rfl⟩ := h
    rcases List.mem_cons.mp hm with heq | hm
    · cases c with
      | leaf s' e' v =>
        simp only [mapChunk, Option.map_eq_some_iff] at hc'
        obtain ⟨x, hx, rfl⟩ := hc'
        cases heq
        exact hall s e v (List.mem_cons_self ..) w hx
      | _ => cases hc'; cases heq
    · exact ih hds' (fun s e v hl => hall s e v (List.mem_cons_of_mem _ hl)) s e w hm

/-- What is made of the parts one by one does not see the replacement if it sees none in
any leaf. -/
theorem flatMap_mapChunks {α : Type} {f f' : Chunk → List α}
    (hpart : ∀ c d, mapChunk g c = some d → (∀ s e v, c ≠ .leaf s e v) → f' d = f c) :
    ∀ (cs : List Chunk) {ds : List Chunk}, mapChunks g cs = some ds →
      AllLeaves (fun s e v => ∀ w, g s e v = some w → f' (.leaf s e w) = f (.leaf s e v)) cs →
      ds.flatMap f' = cs.flatMap f := by
  intro cs
  induction cs with
  | nil => intro ds h _; cases h; rfl
  | cons c cs ih =>
    intro ds h hall
    simp only [mapChunks, Option.bind_eq_bind, Option.bind_eq_some_iff, Option.pure_def,
      Option.some.injEq] at h
    obtain ⟨c', hc', ds', hds', rfl⟩ := h
    have hrest := ih hds' fun s e v hl => hall s e v (List.mem_cons_of_mem _ hl)
    rw [List.flatMap_cons, List.flatMap_cons, hrest]
    congr 1
    cases c with
    | leaf s e v =>
      simp only [mapChunk, Option.map_eq_some_iff] at hc'
      obtain ⟨w, hw, rfl⟩ := hc'
      exact hall s e v (List.mem_cons_self ..) w hw
    | _ => exact hpart _ _ hc' (by simp)

/-- Values with the same wire steps have the same bit string. -/
theorem image_mapChunks {cs ds : List Chunk} (h : mapChunks g cs = some ds)
    (hall : AllLeaves (fun s e v => ∀ w, g s e v = some w → step' s e w = step s e v) cs) :
    image step' ds = image step cs := by
  refine flatMap_mapChunks (fun c d hd hc => ?_) cs h fun s e v hl w hw => ?_
  · cases c with
    | leaf s e v => exact absurd rfl (hc s e v)
    | _ => cases hd; rfl
  · rw [Chunk.bits, Chunk.bits, hall s e v hl w hw]

theorem narrow_mapChunks :
    ∀ (cs : List Chunk) {ds : List Chunk}, mapChunks g cs = some ds → (∀ c ∈ cs, c.Narrow) →
      ∀ d ∈ ds, d.Narrow := by
  intro cs
  induction cs with
  | nil => intro ds h _; cases h; intro d hd; exact absurd hd List.not_mem_nil
  | cons c cs ih =>
    intro ds h hn d hd
    simp only [mapChunks, Option.bind_eq_bind, Option.bind_eq_some_iff, Option.pure_def,
      Option.some.injEq] at h
    obtain ⟨c', hc', ds', hds', rfl⟩ := h
    rcases List.mem_cons.mp hd with rfl | hd
    · have hc := hn c (List.mem_cons_self ..)
      cases c with
      | leaf s e v =>
        simp only [mapChunk, Option.map_eq_some_iff] at hc'
        obtain ⟨w, hw, rfl⟩ := hc'
        exact hc
      | _ => cases hc'; exact hc
    · exact ih hds' (fun x hx => hn x (List.mem_cons_of_mem _ hx)) d hd

/-- **The encoder on a value in its language's terms**: the bytes depend only on the wire
steps. -/
theorem encode_in_terms {L : PackLang} {rnd : Rat → Rat} {ctx : Context} {scope : Scope}
    {name : String} {t : TypeDef} {v : Value} {cs : List Chunk} (hL : L.Lawful)
    (hacc : scope.Accepted rnd ctx) (ht : scope.lookup name = some t) (hpk : t.isPacked = true)
    (h : layout scope name v = some cs) (hn : ∀ c ∈ cs, c.Narrow) (hlim : t.total < 4294967296)
    (hg : AllLeaves (fun s e v => ∃ w, g s e v = some w ∧ L.step s e w = some (step s e v)) cs) :
    ∃ w, mapLeaves g scope name v = some w ∧
      L.encode scope name w = some (wireBytes t (image step cs)) := by
  obtain ⟨w, hw⟩ := mapLeaves_isSome h fun s e v hl => by
    obtain ⟨x, hx, _⟩ := hg s e v hl
    exact ⟨x, hx⟩
  obtain ⟨ds, hds, hlay⟩ := layout_of_mapLeaves h hw
  have hleaf : AllLeaves (fun s e v => ∀ w, g s e v = some w →
      L.step s e w = some (step s e v)) cs := by
    intro s e v hl w hgw
    obtain ⟨x, hx, hstep⟩ := hg s e v hl
    rw [hx, Option.some.injEq] at hgw
    exact hgw ▸ hstep
  have hpacks : L.Packs (fun s e w => (L.step s e w).getD 0) ds := by
    refine ⟨narrow_mapChunks cs hds hn, allLeaves_mapChunks cs hds fun s e v hl w hgw => ?_⟩
    rw [hleaf s e v hl w hgw]
    rfl
  have himage : image (fun s e w => (L.step s e w).getD 0) ds = image step cs := by
    refine image_mapChunks hds fun s e v hl w hgw => ?_
    rw [hleaf s e v hl w hgw]
    rfl
  exact ⟨w, hw, by rw [encode_eq hL hacc ht hpk hlay hpacks hlim, himage]⟩

end Terms

end ProtoEmb.Codec

import ProtoEmb.Codec.Native

/-!
# Decoding an aligned type in place

The `*_decode` of an aligned type in `protocol.c.j2` reads at the offsets its encoder stores at: a
byte for a flag or a tag, and for a leaf as many bytes as it has. A nested type is read by
`*_decodeAt` at a base offset; a struct outside of any nesting keeps a running offset. On a buffer
that holds the bytes of a value, the decoder rebuilds the value from what the language makes of
the bytes of each leaf (`decodeInPlace_eq`).
-/

namespace ProtoEmb.Codec

open ProtoEmb.Lib ProtoEmb.Schema

/-- What the aligned decoders differ in, besides the offsets. -/
structure AlignDecoder extends AlignLang where
  /-- the leaf, from its bytes -/
  unleaf : Bool → Elem → List UInt8 → Option Value
  /-- the result for a tag without a variant -/
  unknownTag : Union → Nat → Option Value

namespace AlignDecoder

variable (D : AlignDecoder)

/-- The number of bytes that are read for a leaf. -/
def loadSize (width : Nat) (e : Elem) : Option Nat :=
  if e.isString then e.maxLength else if e.isBool || e.isEnum then some 1 else some width

/-- How the decoder of a type reads `buf`. -/
def reader (nested : String → List UInt8 → Nat → Option Value) (offset : Nat → Option Nat)
    (buf : List UInt8) : Reader where
  flag off := do
    let o ← offset off
    let b ← buf[o]?
    return b ≠ 0
  tag off _ := do
    let o ← offset off
    let b ← buf[o]?
    return b.toNat
  elem off scalar width e := do
    let o ← offset off
    if e.isNested then nested e.type buf o
    else do
      let n ← loadSize width e
      let bs ← load buf o n
      D.unleaf scalar e bs
  unknownTag := D.unknownTag

/-- `*_decodeAt`: read a value at a base offset. -/
def decodeAt : Scope → String → List UInt8 → Nat → Option Value :=
  resolve (fun _ _ => none) fun env t buf base => (D.reader env (D.add base) buf).type t

/-- `*_decode` of an aligned type, on a buffer of at least its size. -/
def decodeInPlace (scope : Scope) (name : String) (buf : List UInt8) : Option Value := do
  let t ← scope.lookup name
  if PackLang.isFlat scope name t then do
    let placed ← AlignLang.place (D.advance fun _ => 0) t
    (D.reader (fun _ _ _ => none) D.running buf).type placed
  else D.decodeAt scope name buf 0

/-- A leaf that is stored as `bs` and read again. -/
def readBack (bs : Bytes) : LeafMap := fun s e v => D.unleaf s e (bs s e v)

/-- The bytes of every leaf are as many as the decoder reads. -/
def Loads (bs : Bytes) (cs : List Chunk) : Prop :=
  AllLeaves (fun s e v => (bs s e v).length = e.size ∧ loadSize e.size e = some e.size) cs

end AlignDecoder

section Decode

variable {D : AlignDecoder} {rnd : Rat → Rat} {ctx : Context} {scope : Scope} {bs : Bytes}
  {bound : Nat}

/-- What stands in the buffer, statement by statement. -/
theorem holdsBytes_writes (hacc : scope.Accepted rnd ctx) {buf : List UInt8} {base : Nat} :
    ∀ (ws : List Write) {a b : Nat} {cs : List Chunk}, Contiguous a ws b →
      (∀ w ∈ ws, w.Laid rnd ctx scope false) → layoutWrites (layout scope) ws = some cs →
      AlignDecoder.Loads bs cs → HoldsBytes buf (base + a) (byteImage bs cs) →
      ∀ w ∈ ws, w.off + w.size ≤ b ∧
        ∃ c, layoutWrite (layout scope) w = some c ∧ (∀ x ∈ c, x ∈ cs) ∧
          HoldsBytes buf (base + w.off) (byteImage bs c) := by
  intro ws
  induction ws with
  | nil => intro a b cs _ _ _ _ _ w hw; exact absurd hw List.not_mem_nil
  | cons w₀ ws ihs =>
    intro a b cs hc hlaid h hload hold w hw
    simp only [layoutWrites, Option.bind_eq_bind, Option.bind_eq_some_iff, Option.pure_def,
      Option.some.injEq] at h
    obtain ⟨c, hc₁, cs', hcs', rfl⟩ := h
    obtain ⟨rfl, hrest⟩ := hc
    have hlaid' := fun x hx => hlaid x (List.mem_cons_of_mem _ hx)
    have hle := hrest.le
    have hsize : sizeOf c = w₀.size := layoutWrite_size
      (fun hm h => layout_size scope _ _ hm hacc h) (hlaid w₀ (List.mem_cons_self ..)) hc₁
    have hlen : (byteImage bs c).length = w₀.size := by
      rw [← hsize]
      exact byteImage_length fun s e v hl => (hload s e v (List.mem_append_left _ hl)).1
    rw [byteImage_append] at hold
    obtain ⟨hfirst, hnext⟩ := hold.append
    rw [hlen, Nat.add_assoc] at hnext
    rcases List.mem_cons.mp hw with rfl | hw
    · exact ⟨hle, c, hc₁, fun x hx => List.mem_append_left _ hx, hfirst⟩
    · obtain ⟨hend, c', hc', hsub, hh⟩ := ihs hrest hlaid' hcs'
        (fun s e v hl => hload s e v (List.mem_append_right _ hl)) hnext w hw
      exact ⟨hend, c', hc', fun x hx => List.mem_append_right _ (hsub x hx), hh⟩

theorem HoldsBytes.get {buf : List UInt8} {base : Nat} {b : UInt8}
    (h : HoldsBytes buf base [b]) : buf[base]? = some b := by
  obtain ⟨pre, post, rfl, rfl⟩ := h
  simp

/-- The reader finds what a statement stored. -/
theorem alignedReader_finds
    (hadd : ∀ base off, base + off < bound → D.add base off = some (base + off))
    {buf : List UInt8} {base : Nat}
    (ih : ∀ {m t v cs}, scope.lookup m = some t → t.isPacked = false →
      layout scope m v = some cs → (∀ c ∈ cs, c.TagFits) → AlignDecoder.Loads bs cs → ∀ {base},
      base + t.total < bound → HoldsBytes buf base (byteImage bs cs) →
      D.decodeAt scope m buf base = mapLeaves (D.readBack bs) scope m v)
    {w : Write} (hw : w.Laid rnd ctx scope false) {cs : List Chunk}
    (h : layoutWrite (layout scope) w = some cs) (htags : ∀ c ∈ cs, c.TagFits)
    (hload : AlignDecoder.Loads bs cs) (hlim : base + w.off + w.size < bound)
    (hold : HoldsBytes buf (base + w.off) (byteImage bs cs)) :
    (D.reader (D.decodeAt scope) (D.add base) buf).Finds
      (mapElem (D.readBack bs) (mapLeaves (D.readBack bs) scope)) w := by
  have hat : D.add base w.off = some (base + w.off) := hadd _ _ (by omega)
  cases w with
  -- a flag and a tag are one byte each
  | flag off b =>
    cases h
    simp only [Write.off] at hat hold
    have hget : buf[base + off]? = some (if b then 1 else 0) :=
      HoldsBytes.get (by simpa [Chunk.bytes] using hold)
    simp only [Reader.Finds, AlignDecoder.reader, hat, hget, Option.bind_eq_bind,
      Option.bind_some]
    cases b <;> rfl
  | tag off size index =>
    cases h
    have hsize : size = 1 := hw
    subst hsize
    have hfits : index < 256 := htags _ (List.mem_cons_self ..)
    simp only [Write.off] at hat hold
    have hget : buf[base + off]? = some (UInt8.ofNat index) :=
      HoldsBytes.get (by simpa [Chunk.bytes, leBytes] using hold)
    simp only [Reader.Finds, AlignDecoder.reader, hat, hget, Option.bind_eq_bind,
      Option.bind_some, Option.pure_def]
    rw [UInt8.toNat_ofNat', Nat.mod_eq_of_lt hfits]
  | skip off size => exact trivial
  | elem off s k e v =>
    obtain ⟨rfl, he, _⟩ := hw
    simp only [layoutWrite, layoutElem] at h
    simp only [Write.off, Write.size] at hat hlim hold
    simp only [Reader.Finds, AlignDecoder.reader, hat, Option.bind_eq_bind, Option.bind_some,
      mapElem]
    -- a nested value by the decoder of its type, a leaf from its own bytes
    split at h
    next hn =>
      obtain ⟨t, ht, hpk, hsize⟩ := he.nested hn
      rw [if_pos hn, if_pos hn]
      exact ih ht hpk h htags hload (hsize ▸ hlim) hold
    next hn =>
      cases h
      obtain ⟨hlen, hsize⟩ := hload s e v (List.mem_cons_self ..)
      have hloaded := (show HoldsBytes buf (base + off) (bs s e v) by
        simpa [Chunk.bytes] using hold).load hlen
      rw [if_neg hn, if_neg hn, hsize, Option.bind_some, hloaded]
      rfl

/-- **The decoder in place, at any base.** -/
theorem decodeAt_eq
    (hadd : ∀ base off, base + off < bound → D.add base off = some (base + off))
    {buf : List UInt8} :
    ∀ (scope : Scope) (name : String) (t : TypeDef), scope.lookup name = some t →
      scope.Accepted rnd ctx → t.isPacked = false →
      ∀ {v : Value} {cs : List Chunk}, layout scope name v = some cs →
      (∀ c ∈ cs, c.TagFits) → AlignDecoder.Loads bs cs → ∀ {base : Nat},
        base + t.total < bound → HoldsBytes buf base (byteImage bs cs) →
        D.decodeAt scope name buf base = mapLeaves (D.readBack bs) scope name v := by
  refine scope_induction ?_ ?_
  · intro n t rest ih hacc hpk v cs h htags hload base hlim hold
    obtain ⟨ws, hws, hcs⟩ := layout_head h
    obtain ⟨hc, hl⟩ := writes_contiguous hacc.laid.1 (hacc.valid _ (List.mem_cons_self ..)) hws
    rw [hpk] at hl
    rw [AlignDecoder.decodeAt, resolve_head, mapLeaves, resolve_head]
    refine Reader.type_eq hws fun w hw => ?_
    obtain ⟨hle, c, hc₁, hsub, hh⟩ := holdsBytes_writes hacc.tail ws hc hl hcs hload hold w hw
    exact alignedReader_finds hadd (fun hm hpk h ht hld _ hlim hold =>
      ih _ _ hm hacc.tail hpk h ht hld hlim hold) (hl w hw) hc₁
      (fun x hx => htags x (hsub x hx)) (fun s e v hx => hload s e v (hsub _ hx)) (by omega) hh
  · intro n t₀ rest m t hm ih hacc hpk v cs h htags hload base hlim hold
    rw [layout, resolve_tail t₀ rest hm] at h
    rw [AlignDecoder.decodeAt, resolve_tail t₀ rest hm, mapLeaves, resolve_tail t₀ rest hm]
    exact ih hacc.tail hpk h htags hload hlim hold

/-- **A flat decoder is the one in place at base 0**, as long as its running offset is the
literal one. -/
theorem decodeFlat_eq (hL : D.Advances) (hrun : ∀ off, off < bound → D.running off = D.add 0 off)
    (whole : Scope) :
    ∀ (scope : Scope) (name : String) (t : TypeDef), scope.lookup name = some t →
      scope.Accepted rnd ctx → TypeDef.StringsSized t → t.isPacked = false → t.total < bound →
      PackLang.isFlat whole name t = true → ∀ (buf : List UInt8),
        (do
          let placed ← AlignLang.place (D.advance fun _ => 0) t
          (D.reader (fun _ _ _ => none) D.running buf).type placed)
          = D.decodeAt scope name buf 0 := by
  refine scope_induction ?_ ?_
  · intro n t rest _ hacc hstr hpk hlim hflat buf
    obtain ⟨s, rfl, hleaf⟩ := isFlat_struct hacc.laid.1 hflat
    have hs : s.Laid rnd ctx rest := hacc.laid.1
    have htotal : s.total < bound := hlim
    rw [hs.total_eq] at htotal
    rw [place_flat hL hacc hstr hpk hleaf _, Option.bind_eq_bind, Option.bind_some,
      AlignDecoder.decodeAt, resolve_head]
    have hfields : (D.reader (fun _ _ _ => none) D.running buf).fields s.fields
        = (D.reader (D.decodeAt rest) (D.add 0) buf).fields s.fields := by
      refine Reader.fields_congr s.fields hs.fields fun f hf o ho => ?_
      have hoff := hrun o (by omega)
      refine ⟨?_, fun sc k => ?_⟩
      · simp only [AlignDecoder.reader, hoff]
      · simp [AlignDecoder.reader, hleaf f hf, hoff]
    show Option.bind _ _ = Option.bind _ _
    rw [hfields]
    rfl
  · intro n t₀ rest m t hm ih hacc hstr hpk hlim hflat buf
    rw [AlignDecoder.decodeAt, resolve_tail t₀ rest hm]
    exact ih hacc.tail hstr hpk hlim hflat buf

variable {name : String} {t : TypeDef} {v : Value} {cs : List Chunk}

/-- **The decoder on the bytes of a value.** -/
theorem decodeInPlace_eq (hL : D.Advances)
    (hadd : ∀ base off, base + off < bound → D.add base off = some (base + off))
    (hrun : ∀ off, off < bound → D.running off = D.add 0 off)
    (hacc : scope.Accepted rnd ctx) (hstr : StringsSized scope)
    (ht : scope.lookup name = some t) (hpk : t.isPacked = false)
    (h : layout scope name v = some cs) (htags : ∀ c ∈ cs, c.TagFits)
    (hload : AlignDecoder.Loads bs cs) (hlim : t.total < bound) :
    D.decodeInPlace scope name (byteImage bs cs) = mapLeaves (D.readBack bs) scope name v := by
  have hin : D.decodeAt scope name (byteImage bs cs) 0 = mapLeaves (D.readBack bs) scope name v :=
    decodeAt_eq hadd scope name t ht hacc hpk h htags hload (by omega) ⟨[], [], by simp, rfl⟩
  unfold AlignDecoder.decodeInPlace
  rw [ht, Option.bind_eq_bind, Option.bind_some]
  split
  next hflat =>
    rw [← hin, ← decodeFlat_eq hL hrun scope scope name t ht hacc (hstr _ (mem_of_lookup ht)) hpk
      hlim hflat]
    rfl
  next => exact hin

end Decode

end ProtoEmb.Codec

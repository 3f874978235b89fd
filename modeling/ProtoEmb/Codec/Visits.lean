import ProtoEmb.Codec.AlignedDecode
import ProtoEmb.Codec.Packed
import ProtoEmb.Codec.Parts

/-!
# A decode, part by part

On whatever bytes, the decoder of a type succeeds exactly if it reads every part it visits,
and turns every leaf among them into a value (`PackLang.decode_isSome_iff`,
`AlignDecoder.decodeAt_isSome_iff`). What the parts are and which are visited is a matter of
the schema and of the flags and tags in the buffer (`Codec.Parts`); the languages differ in
the addresses and in what is a value.
-/

namespace ProtoEmb.Codec

open ProtoEmb.Lib ProtoEmb.Schema

/-! ## One type -/

/-- A nested element has its type in the scope, in the same encoding. -/
def Known (scope : Scope) (isPacked : Bool) (e : Elem) : Prop :=
  e.isNested = true → ∃ t, scope.lookup e.type = some t ∧ t.isPacked = isPacked

theorem known_of_laid {rnd : Rat → Rat} {ctx : Context} {isPacked : Bool} {scope : Scope}
    {e : Elem} (h : e.Laid rnd ctx scope isPacked) : Known scope isPacked e := by
  intro hn
  obtain ⟨t, ht, hpk, _⟩ := h.nested hn
  exact ⟨t, ht, hpk⟩

/-- The elements of a type are known. -/
def KnownType (scope : Scope) (isPacked : Bool) : TypeDef → Prop
  | .struct s => ∀ f ∈ s.fields, Known scope isPacked f.elem
  | .union u => ∀ w ∈ u.variants, Known scope isPacked w.elem

theorem knownType_of_laid {rnd : Rat → Rat} {ctx : Context} {scope : Scope} {t : TypeDef}
    (h : t.Laid rnd ctx scope) (hv : t.Valid) : KnownType scope t.isPacked t := by
  cases t with
  | struct s =>
    intro f hf
    have hs : s.Laid rnd ctx scope := h
    obtain ⟨_, hl, _⟩ := fieldsLaid_mem s.fields hs.fields f hf
    exact known_of_laid hl.elem
  | union u =>
    intro w hw
    exact known_of_laid (Union.Laid.variant h hv hw scope).1

namespace Reader

/-- A reader at a base reads what is visited from there: what is seen decides flags and
tags, and an element is read if its parts are. -/
structure Follows {α : Type} (rd : Reader) (C : Cells α) (look : Nat → α) (Reads : Part → Prop)
    (venv : String → Nat → List Part) (scope : Scope) (isPacked : Bool) (base : Nat) :
    Prop where
  flag : ∀ off b, rd.flag off = some b ↔
    Reads (.flag (base + off)) ∧ C.flag (look (base + off)) = b
  tag : ∀ u : Union, u.isPacked = isPacked → ∀ tag, rd.tag 0 u.tagSize = some tag ↔
    Reads (.tag base u.tagSize) ∧ C.tag (Cells.read look base u.tagSize) = tag
  elem : ∀ off s k e, Known scope isPacked e → ((∃ v, rd.elem off s k e = some v) ↔
    ∀ p ∈ visitElem venv base off s k e, Reads p)

variable {α : Type} {rd : Reader} {C : Cells α} {look : Nat → α} {Reads : Part → Prop}
  {venv : String → Nat → List Part} {scope : Scope} {isPacked : Bool} {base : Nat}

theorem array_reads_iff (h : rd.Follows C look Reads venv scope isPacked base) {f : Field}
    (he : Known scope isPacked f.elem) :
    ∀ (n i : Nat), (∃ vs, rd.array f n i = some vs) ↔
      ∀ p ∈ visitArray venv base f n i, Reads p := by
  intro n
  induction n with
  | zero => intro i; simp [Reader.array, visitArray]
  | succ n ih =>
    intro i
    rw [visitArray, List.forall_mem_append, ← h.elem _ _ _ _ he, ← ih (i + 1)]
    simp only [Reader.array, Option.bind_eq_bind, Option.bind_eq_some_iff, Option.pure_def]
    constructor
    · intro h
      obtain ⟨_, v, hv, vs, hvs, _⟩ := h
      exact ⟨⟨v, hv⟩, vs, hvs⟩
    · intro h
      obtain ⟨⟨v, hv⟩, vs, hvs⟩ := h
      exact ⟨v :: vs, v, hv, vs, hvs, rfl⟩

theorem field_reads_iff (h : rd.Follows C look Reads venv scope isPacked base) {f : Field}
    (he : Known scope isPacked f.elem) :
    (∃ v, rd.field f = some v) ↔
      ∀ p ∈ visitField (fun p => C.flag (look p)) venv base f, Reads p := by
  unfold Reader.field visitField
  by_cases ha : f.isArray = true
  · rw [if_pos ha, if_pos ha, ← array_reads_iff h he]
    simp only [Option.bind_eq_bind, Option.bind_eq_some_iff, Option.pure_def]
    constructor
    · intro h
      obtain ⟨_, vs, hvs, _⟩ := h
      exact ⟨vs, hvs⟩
    · intro h
      obtain ⟨vs, hvs⟩ := h
      exact ⟨_, vs, hvs, rfl⟩
  rw [if_neg ha, if_neg ha]
  by_cases hopt : f.isOptional = true
  · rw [if_pos hopt, if_pos hopt, List.forall_mem_cons]
    simp only [Option.bind_eq_bind, Option.bind_eq_some_iff, h.flag]
    have helem := h.elem f.valueOffset false f.elem.size f.elem he
    -- what is behind a flag counts only if the flag is set
    by_cases hset : C.flag (look (base + f.offset)) = true
    · rw [if_pos hset, ← helem]
      constructor
      · intro h
        obtain ⟨v, b, ⟨hread, rfl⟩, hv⟩ := h
        rw [if_pos hset, Option.bind_eq_some_iff] at hv
        obtain ⟨x, hx, _⟩ := hv
        exact ⟨hread, x, hx⟩
      · intro h
        obtain ⟨hread, x, hx⟩ := h
        exact ⟨.present x, _, ⟨hread, hset⟩, by rw [if_pos rfl, hx]; rfl⟩
    · rw [if_neg hset]
      constructor
      · intro h
        obtain ⟨v, b, ⟨hread, _⟩, _⟩ := h
        exact ⟨hread, fun p hp => absurd hp List.not_mem_nil⟩
      · intro h
        exact ⟨.absent, _, ⟨h.1, rfl⟩, by rw [if_neg hset]; rfl⟩
  · rw [if_neg hopt, if_neg hopt]
    exact h.elem f.offset true f.size f.elem he

theorem fields_reads_iff (h : rd.Follows C look Reads venv scope isPacked base) :
    ∀ fs : List Field, (∀ f ∈ fs, Known scope isPacked f.elem) →
      ((∃ vs, rd.fields fs = some vs) ↔
        ∀ p ∈ fs.flatMap (visitField (fun p => C.flag (look p)) venv base), Reads p) := by
  intro fs
  induction fs with
  | nil => intro _; simp [Reader.fields]
  | cons f fs ih =>
    intro he
    rw [List.flatMap_cons, List.forall_mem_append,
      ← ih fun g hg => he g (List.mem_cons_of_mem _ hg),
      ← field_reads_iff h (he f (List.mem_cons_self ..))]
    simp only [Reader.fields, Option.bind_eq_bind, Option.bind_eq_some_iff, Option.pure_def]
    constructor
    · intro h
      obtain ⟨_, v, hv, vs, hvs, _⟩ := h
      exact ⟨⟨v, hv⟩, vs, hvs⟩
    · intro h
      obtain ⟨⟨v, hv⟩, vs, hvs⟩ := h
      exact ⟨v :: vs, v, hv, vs, hvs, rfl⟩

theorem union_reads_iff (h : rd.Follows C look Reads venv scope isPacked base) {u : Union}
    (hpk : u.isPacked = isPacked) (he : ∀ w ∈ u.variants, Known scope isPacked w.elem)
    (hunknown : ∀ tag, ∃ v, rd.unknownTag u tag = some v) :
    (∃ v, rd.type (.union u) = some v) ↔
      ∀ p ∈ visitType C look venv base (.union u), Reads p := by
  rw [visitType, List.forall_mem_cons]
  simp only [Reader.type, Option.bind_eq_bind, Option.bind_eq_some_iff, h.tag u hpk]
  constructor
  · intro hdec
    obtain ⟨v, tag, ⟨hread, rfl⟩, hv⟩ := hdec
    refine ⟨hread, ?_⟩
    rw [visitVariant]
    cases hw : u.variants[C.tag (Cells.read look base u.tagSize)]? with
    | none => exact fun p hp => absurd hp List.not_mem_nil
    | some w =>
      simp only [hw, Option.bind_eq_some_iff] at hv
      obtain ⟨x, hx, _⟩ := hv
      exact (h.elem _ _ _ _ (he w (List.mem_of_getElem? hw))).mp ⟨x, hx⟩
  · intro hdec
    obtain ⟨hread, hpayload⟩ := hdec
    rw [visitVariant] at hpayload
    cases hw : u.variants[C.tag (Cells.read look base u.tagSize)]? with
    | none =>
      obtain ⟨v, hv⟩ := hunknown (C.tag (Cells.read look base u.tagSize))
      exact ⟨v, _, ⟨hread, rfl⟩, by simp only [hw]; exact hv⟩
    | some w =>
      rw [hw] at hpayload
      obtain ⟨x, hx⟩ := (h.elem _ _ _ _ (he w (List.mem_of_getElem? hw))).mpr hpayload
      exact ⟨_, _, ⟨hread, rfl⟩, by simp only [hw, hx]; rfl⟩

/-- **The decoder of a type succeeds exactly if the parts it visits are read.** -/
theorem type_reads_iff (h : rd.Follows C look Reads venv scope isPacked base) {t : TypeDef}
    (hpk : t.isPacked = isPacked) (he : KnownType scope isPacked t)
    (hunknown : ∀ u, t = .union u → ∀ tag, ∃ v, rd.unknownTag u tag = some v) :
    (∃ v, rd.type t = some v) ↔ ∀ p ∈ visitType C look venv base t, Reads p := by
  cases t with
  | struct s =>
    rw [visitType, ← fields_reads_iff h s.fields he]
    simp only [Reader.type, Option.bind_eq_bind, Option.bind_eq_some_iff, Option.pure_def]
    constructor
    · intro h
      obtain ⟨_, vs, hvs, _⟩ := h
      exact ⟨vs, hvs⟩
    · intro h
      obtain ⟨vs, hvs⟩ := h
      exact ⟨_, vs, hvs, rfl⟩
  | union u => exact union_reads_iff h hpk he (hunknown u rfl)

end Reader

/-- Every union of the scope makes something of a tag it does not know. -/
def KnowsTags (unknownTag : Union → Nat → Option Value) (scope : Scope) : Prop :=
  ∀ n u, (n, TypeDef.union u) ∈ scope → ∀ tag, ∃ v, unknownTag u tag = some v

theorem KnowsTags.tail {unknownTag : Union → Nat → Option Value} {entry : String × TypeDef}
    {rest : Scope} (h : KnowsTags unknownTag (entry :: rest)) : KnowsTags unknownTag rest :=
  fun n u hu => h n u (List.mem_cons_of_mem _ hu)

/-! ## Packed types -/

/-- The cells of a packed type are bits. -/
def packedCells : Cells Bool := ⟨true, id, ofBits, (2 ^ ·)⟩

theorem packedCells_lawful : packedCells.Lawful where
  set_flag := rfl
  tag_lt l := ofBits_lt l
  exists_tag size j hj :=
    ⟨natBits size j, natBits_length size j, by
      show ofBits (natBits size j) = j
      rw [ofBits_natBits, Nat.mod_eq_of_lt (show j < 2 ^ size from hj)]⟩

namespace PackLang

variable (L : PackLang)

/-- The language's offset for a bit: what the sum of literals along a path comes to. -/
structure Addressed (addr : Nat → Option Nat) : Prop where
  zero : addr 0 = some 0
  add : ∀ {base o}, addr base = some o → ∀ off, L.add o off = addr (base + off)

/-- The language sees these bits, where `unpack_bits` is defined. -/
structure Sees (addr : Nat → Option Nat) (buf : List UInt8) (look : Nat → Bool) : Prop where
  unpack : ∀ {p o size u}, addr p = some o → L.unpackBits buf o size = some u →
    u = ofBits (Cells.read look p size)

/-- The part can be read, and for a leaf made a value. -/
def Reads (addr : Nat → Option Nat) (buf : List UInt8) : Part → Prop
  | .flag off => ∃ o u, addr off = some o ∧ L.unpackBits buf o 1 = some u
  | .tag off size => ∃ o u, addr off = some o ∧ L.unpackBits buf o size = some u
  | .nested off => ∃ o, addr off = some o
  | .leaf off s k e => ∃ o u v, addr off = some o ∧
    L.unpackBits buf o (leafWidth e k) = some u ∧ L.unstep s e u = some v

variable {L} {addr : Nat → Option Nat} {buf : List UInt8} {look : Nat → Bool}
  {env : String → List UInt8 → Nat → Option Value} {venv : String → Nat → List Part}
  {scope : Scope} {base o : Nat}

/-- The reader of a type follows the bits, if the decoders of the nested types do. -/
theorem reader_follows (hadd : L.Addressed addr) (hsees : L.Sees addr buf look)
    (henv : ∀ m t base o, scope.lookup m = some t → t.isPacked = true → addr base = some o →
      ((∃ v, env m buf o = some v) ↔ ∀ p ∈ venv m base, L.Reads addr buf p))
    (ho : addr base = some o) :
    (L.reader env (L.add o) buf).Follows packedCells look (L.Reads addr buf) venv scope true
      base where
  flag off b := by
    have hflag : (L.reader env (L.add o) buf).flag off
        = (addr (base + off)).bind fun o' =>
            (L.unpackBits buf o' 1).bind fun u => some (decide (u ≠ 0)) := by
      show (L.add o off).bind _ = _
      rw [hadd.add ho]
      rfl
    -- the flag that is read is the bit that is seen
    have hseen : ∀ {o' u}, addr (base + off) = some o' → L.unpackBits buf o' 1 = some u →
        decide (u ≠ 0) = look (base + off) := by
      intro o' u hat hu
      have hone : Cells.read look (base + off) 1 = [look (base + off)] := rfl
      rw [hsees.unpack hat hu, hone]
      cases look (base + off) <;> rfl
    rw [hflag]
    simp only [Option.bind_eq_some_iff, Option.some.injEq, Reads]
    constructor
    · intro h
      obtain ⟨o', hat, u, hu, hb⟩ := h
      exact ⟨⟨o', u, hat, hu⟩, (hseen hat hu).symm.trans hb⟩
    · intro h
      obtain ⟨⟨o', u, hat, hu⟩, hb⟩ := h
      exact ⟨o', hat, u, hu, (hseen hat hu).trans hb⟩
  tag u _ tag := by
    have htag : (L.reader env (L.add o) buf).tag 0 u.tagSize = L.unpackBits buf o u.tagSize := by
      show (L.add o 0).bind _ = _
      rw [hadd.add ho, Nat.add_zero, ho]
      rfl
    rw [htag]
    constructor
    · intro hu
      exact ⟨⟨o, tag, ho, hu⟩, (hsees.unpack ho hu).symm⟩
    · intro h
      obtain ⟨⟨o', u, ho', hu⟩, rfl⟩ := h
      rw [ho, Option.some.injEq] at ho'
      subst ho'
      rw [hu, hsees.unpack ho hu]
      rfl
  elem off s k e he := by
    unfold visitElem
    simp only [reader, hadd.add ho off, Option.bind_eq_bind]
    by_cases hn : e.isNested = true
    · rw [if_pos hn, List.forall_mem_cons]
      simp only [if_pos hn]
      cases hat : addr (base + off) with
      | none => simp [Reads, hat]
      | some o' =>
        obtain ⟨t, ht, hpk⟩ := he hn
        rw [Option.bind_some, henv e.type t (base + off) o' ht hpk hat]
        exact ⟨fun h => ⟨⟨o', hat⟩, h⟩, fun h => h.2⟩
    · rw [if_neg hn, List.forall_mem_singleton]
      simp only [if_neg hn, Reads]
      cases hat : addr (base + off) with
      | none => simp
      | some o' =>
        simp only [Option.bind_some, Option.bind_eq_some_iff, Option.some.injEq]
        constructor
        · intro h
          obtain ⟨v, u, hu, hv⟩ := h
          exact ⟨o', u, v, rfl, hu, hv⟩
        · intro h
          obtain ⟨_, u, v, rfl, hu, hv⟩ := h
          exact ⟨v, u, hu, hv⟩

theorem unpack_isSome_iff (hadd : L.Addressed addr) (hsees : L.Sees addr buf look)
    {rnd : Rat → Rat} {ctx : Context} :
    ∀ (scope : Scope) (name : String) (t : TypeDef), scope.lookup name = some t →
      scope.Accepted rnd ctx → t.isPacked = true → KnowsTags L.unknownTag scope →
      ∀ base o, addr base = some o →
      ((∃ v, L.unpack scope name buf o = some v) ↔
        ∀ p ∈ visit packedCells look scope name base, L.Reads addr buf p) := by
  refine scope_induction ?_ ?_
  · intro n t rest ih hacc hpk hknows base o ho
    rw [unpack, resolve_head, visit, resolve_head]
    have hknown := knownType_of_laid hacc.laid.1 (hacc.valid _ (List.mem_cons_self ..))
    rw [hpk] at hknown
    refine Reader.type_reads_iff (reader_follows hadd hsees ?_ ho) hpk hknown ?_
    · intro m t' b o' ht' hpk' ho'
      exact ih m t' ht' hacc.tail hpk' hknows.tail b o' ho'
    · intro u hu tag
      exact hknows n u (hu ▸ List.mem_cons_self ..) tag
  · intro n t₀ rest m t hm ih hacc hpk hknows base o ho
    rw [unpack, resolve_tail t₀ rest hm, visit, resolve_tail t₀ rest hm]
    exact ih hacc.tail hpk hknows.tail base o ho

/-- **A packed decode succeeds exactly if it reads every part that it visits.** -/
theorem decode_isSome_iff (hL : L.Lawful) (hadd : L.Addressed addr)
    (hsees : L.Sees addr buf look) {rnd : Rat → Rat} {ctx : Context} {scope : Scope}
    (hacc : scope.Accepted rnd ctx) (hknows : KnowsTags L.unknownTag scope) {name : String}
    {t : TypeDef} (ht : scope.lookup name = some t) (hpk : t.isPacked = true) :
    (∃ v, L.decode scope name buf = some v) ↔
      ∀ p ∈ visit packedCells look scope name 0, L.Reads addr buf p := by
  rw [← unpack_isSome_iff hadd hsees scope name t ht hacc hpk hknows 0 0 hadd.zero]
  unfold decode
  rw [ht, Option.bind_eq_bind, Option.bind_some]
  split
  next hflat => rw [decode_eq_unpack hL scope scope name t ht hacc hflat]
  next => rfl

end PackLang

/-! ## Aligned types -/

/-- The cells of an aligned type are bytes. -/
def alignedCells : Cells UInt8 :=
  ⟨1, (· ≠ 0), fun l => (l.headD 0).toNat, fun size => if size = 0 then 1 else 256⟩

theorem alignedCells_lawful : alignedCells.Lawful where
  set_flag := rfl
  tag_lt l := by
    cases l with
    | nil => exact Nat.one_pos
    | cons b l => exact b.toNat_lt
  exists_tag size j hj := by
    cases size with
    | zero =>
      have hj' : j < 1 := hj
      exact ⟨[], rfl, by show 0 = j; omega⟩
    | succ size =>
      have hj' : j < 256 := hj
      refine ⟨List.replicate (size + 1) (UInt8.ofNat j), List.length_replicate .., ?_⟩
      show (UInt8.ofNat j).toNat = j
      rw [UInt8.toNat_ofNat', Nat.mod_eq_of_lt hj']

namespace AlignDecoder

variable (D : AlignDecoder)

/-- The part can be read, and for a leaf made a value. -/
def Reads (buf : List UInt8) : Part → Prop
  | .flag off => off < buf.length
  | .tag off _ => off < buf.length
  | .nested _ => True
  | .leaf off s k e => ∃ n bs v, loadSize k e = some n ∧ load buf off n = some bs ∧
    D.unleaf s e bs = some v

variable {D} {buf : List UInt8} {env : String → List UInt8 → Nat → Option Value}
  {venv : String → Nat → List Part} {scope : Scope} {base : Nat}

/-- The byte at an offset, or 0 behind the end. -/
def lookByte (buf : List UInt8) (p : Nat) : UInt8 := buf.getD p 0

theorem getElem?_eq_some_iff {p : Nat} {b : UInt8} :
    buf[p]? = some b ↔ p < buf.length ∧ lookByte buf p = b := by
  unfold lookByte
  rw [List.getD_eq_getElem?_getD, List.getElem?_eq_some_iff]
  constructor
  · intro h
    obtain ⟨hp, rfl⟩ := h
    exact ⟨hp, by rw [List.getElem?_eq_getElem hp]; rfl⟩
  · intro h
    obtain ⟨hp, rfl⟩ := h
    exact ⟨hp, by rw [List.getElem?_eq_getElem hp]; rfl⟩

/-- The reader of a type follows the bytes, if the decoders of the nested types do. -/
theorem reader_follows (hadd : ∀ base off, D.add base off = some (base + off))
    (henv : ∀ m t base, scope.lookup m = some t → t.isPacked = false →
      ((∃ v, env m buf base = some v) ↔ ∀ p ∈ venv m base, D.Reads buf p)) :
    (D.reader env (D.add base) buf).Follows alignedCells (lookByte buf) (D.Reads buf) venv scope
      false base where
  -- a flag byte is there and says `b`
  flag off b := by
    have hflag : (D.reader env (D.add base) buf).flag off
        = (buf[base + off]?).bind fun x => some (decide (x ≠ 0)) := by
      show (D.add base off).bind _ = _
      rw [hadd]
      rfl
    rw [hflag]
    simp only [Option.bind_eq_some_iff, Option.some.injEq, getElem?_eq_some_iff]
    constructor
    · intro h
      obtain ⟨x, ⟨hlt, rfl⟩, hb⟩ := h
      exact ⟨hlt, hb⟩
    · intro h
      exact ⟨_, ⟨h.1, rfl⟩, h.2⟩
  -- the tag of an aligned union is its first byte
  tag u hpk tag := by
    have hsize : u.tagSize = 1 := by
      rw [Union.tagSize, hpk]
      rfl
    have htag : (D.reader env (D.add base) buf).tag 0 u.tagSize
        = (buf[base]?).bind fun x => some x.toNat := by
      show (D.add base 0).bind _ = _
      rw [hadd]
      rfl
    rw [htag, hsize]
    simp only [Option.bind_eq_some_iff, Option.some.injEq, getElem?_eq_some_iff]
    constructor
    · intro h
      obtain ⟨x, ⟨hlt, rfl⟩, hb⟩ := h
      exact ⟨hlt, hb⟩
    · intro h
      exact ⟨_, ⟨h.1, rfl⟩, h.2⟩
  -- a nested type is read by its own decoder, a leaf as its bytes
  elem off s k e he := by
    unfold visitElem
    simp only [reader, hadd, Option.bind_eq_bind, Option.bind_some]
    by_cases hn : e.isNested = true
    · obtain ⟨t, ht, hpk⟩ := he hn
      simp only [if_pos hn]
      rw [List.forall_mem_cons, henv e.type t (base + off) ht hpk]
      exact ⟨fun h => ⟨trivial, h⟩, fun h => h.2⟩
    · simp only [if_neg hn]
      rw [List.forall_mem_singleton]
      simp only [Reads, Option.bind_eq_some_iff]
      constructor
      · intro h
        obtain ⟨v, n, hn, bs, hbs, hv⟩ := h
        exact ⟨n, bs, v, hn, hbs, hv⟩
      · intro h
        obtain ⟨n, bs, v, hn, hbs, hv⟩ := h
        exact ⟨v, n, hn, bs, hbs, hv⟩

/-- **An aligned decode in place succeeds exactly if it reads every part that it visits.** -/
theorem decodeAt_isSome_iff (hadd : ∀ base off, D.add base off = some (base + off))
    {rnd : Rat → Rat} {ctx : Context} :
    ∀ (scope : Scope) (name : String) (t : TypeDef), scope.lookup name = some t →
      scope.Accepted rnd ctx → t.isPacked = false → KnowsTags D.unknownTag scope → ∀ base,
      ((∃ v, D.decodeAt scope name buf base = some v) ↔
        ∀ p ∈ visit alignedCells (lookByte buf) scope name base, D.Reads buf p) := by
  refine scope_induction ?_ ?_
  · intro n t rest ih hacc hpk hknows base
    rw [decodeAt, resolve_head, visit, resolve_head]
    have hknown := knownType_of_laid hacc.laid.1 (hacc.valid _ (List.mem_cons_self ..))
    rw [hpk] at hknown
    refine Reader.type_reads_iff (reader_follows hadd ?_) hpk hknown ?_
    · intro m t' b ht' hpk'
      exact ih m t' ht' hacc.tail hpk' hknows.tail b
    · intro u hu tag
      exact hknows n u (hu ▸ List.mem_cons_self ..) tag
  · intro n t₀ rest m t hm ih hacc hpk hknows base
    rw [decodeAt, resolve_tail t₀ rest hm, visit, resolve_tail t₀ rest hm]
    exact ih hacc.tail hpk hknows.tail base

end AlignDecoder

end ProtoEmb.Codec

import ProtoEmb.Codec.Agreement
import ProtoEmb.Codec.Visits

/-!
# What the C decoder reads

The `*_decode` of `protocol.c.j2` is given a buffer of `WIRE_SIZE` bytes and does not check what is
in it. It reads bytes of the buffer, in `unpack_bits`, and for a remap enum an entry of
`WIRE_TO_VALUE`, at an index it takes straight from the wire.

The bytes are always in the buffer (`bytes_inBounds`), as long as no width is negative: such a
width is a huge `uint32_t`, and `unpack_bits` leaves the buffer. An index can be anything that
fits the enum's bits, so the entries are in the table on every buffer exactly if every table is
full: the enum has as many variants as its bits can tell apart (`decode_inBounds_iff`).
-/

namespace ProtoEmb.Codec.C

open ProtoEmb.Lib ProtoEmb.Schema

/-! ## Accesses -/

/-- A byte of the buffer, or an entry of the `WIRE_TO_VALUE` table of an enum. -/
inductive Access where
  | byte (i : Nat)
  | entry (t : Enum) (i : Nat)

/-- The access is inside a buffer of `size` bytes, or inside the table. -/
def Access.InBounds (size : Nat) : Access → Prop
  | byte i => i < size
  | entry t i => i < t.count

/-- The bytes `unpack_bits(buf, off, bits)` reads. -/
def byteAccesses (off bits : Nat) : List Access :=
  (List.range bits).map fun i => .byte ((off + i) % 4294967296 / 8)

/-- The enum whose `WIRE_TO_VALUE` is used for a leaf. -/
def remapEnum (e : Elem) : Option Enum :=
  if e.isBool then none else if e.isEnum then e.enum.filter fun t => t.isRemap else none

/-- What is read for a part. The table is indexed by the result of `unpack_bits`. -/
def accesses (buf : List UInt8) : Part → List Access
  | .flag off => byteAccesses (off % 4294967296) 1
  | .tag off size => byteAccesses (off % 4294967296) size
  | .nested _ => []
  | .leaf off _ k e =>
    byteAccesses (off % 4294967296) (PackLang.leafWidth e k) ++
      match remapEnum e, unpackBits buf (off % 4294967296) (PackLang.leafWidth e k) with
      | some t, some u => [.entry t u]
      | _, _ => []

/-- The bit at an offset, which is a `uint32_t`. -/
def look (buf : List UInt8) (p : Nat) : Bool := bitAt buf (p % 4294967296)

/-- Everything that `*_decode` of a packed type reads. -/
def decodeAccesses (scope : Scope) (name : String) (buf : List UInt8) : List Access :=
  (visit packedCells (look buf) scope name 0).flatMap (accesses buf)

/-- The remap enums of a packed type, and of the types in it. -/
def remapEnums (scope : Scope) (name : String) : List Enum :=
  (parts packedCells scope name 0).filterMap fun p =>
    match p with
    | .leaf _ _ _ e => remapEnum e
    | _ => none

/-- The table has an entry for whatever `uint32_t` the bits of the enum can hold. -/
def FullTable (t : Enum) : Prop := 2 ^ min t.bits 32 ≤ t.count

instance (t : Enum) : Decidable (FullTable t) := inferInstanceAs (Decidable (_ ≤ _))

/-! ## `unpack_bits` on any bytes -/

theorem unpackBits_eq_some_iff {buf : List UInt8} {off bits u : Nat} :
    unpackBits buf off bits = some u ↔
      (∀ i < bits, (off + i) % 4294967296 / 8 < buf.length ∧
        (bitAt buf ((off + i) % 4294967296) = true → i < 32)) ∧
      ofBits ((List.range bits).map fun i => bitAt buf ((off + i) % 4294967296)) = u := by
  refine unpackLoop_eq_some_iff (fun v i w => ?_) bits u
  unfold unpackBit
  simp only
  by_cases hin : (off + i) % 4294967296 / 8 < buf.length
  · rw [if_pos hin]
    by_cases hb : bitAt buf ((off + i) % 4294967296) = true
    · by_cases h32 : 32 ≤ i
      · rw [if_pos hb, if_pos h32]
        constructor
        · intro h
          cases h
        · intro h
          exact absurd (h.1.2 hb) (by omega)
      · rw [if_pos hb, if_neg h32, if_pos hb, Option.some.injEq]
        exact ⟨fun h => ⟨⟨hin, fun _ => by omega⟩, h⟩, fun h => h.2⟩
    · rw [if_neg hb, if_neg hb, Option.some.injEq]
      exact ⟨fun h => ⟨⟨hin, fun h => absurd h hb⟩, h⟩, fun h => h.2⟩
  · rw [if_neg hin]
    constructor
    · intro h
      cases h
    · intro h
      exact absurd h.1.1 hin

/-- A string of bits with none set from `m` on is a number of `m` bits. -/
theorem ofBits_range_lt {m : Nat} {g : Nat → Bool} :
    ∀ bits, (∀ i < bits, g i = true → i < m) → ofBits ((List.range bits).map g) < 2 ^ m := by
  intro bits
  induction bits with
  | zero => intro _; exact Nat.two_pow_pos m
  | succ bits ih =>
    intro h
    have hlen : ((List.range bits).map g).length = bits := by
      rw [List.length_map, List.length_range]
    have hlt := ih fun i hi => h i (by omega)
    rw [List.range_succ, List.map_append, List.map_singleton, ofBits_append_bit, hlen]
    split
    next hb =>
      have := h bits (Nat.lt_succ_self bits) hb
      exact Nat.or_lt_two_pow hlt (Nat.pow_lt_pow_right (by decide) this)
    next => exact hlt

/-- The result is a `uint32_t` of that many bits. -/
theorem unpackBits_lt {buf : List UInt8} {off bits u : Nat}
    (h : unpackBits buf off bits = some u) : u < 2 ^ min bits 32 := by
  obtain ⟨hok, rfl⟩ := unpackBits_eq_some_iff.mp h
  apply ofBits_range_lt
  intro i hi hb
  have := (hok i hi).2 hb
  omega

/-- The decoder sees the bits of the buffer. -/
theorem sees (fl : FloatExprs) (buf : List UInt8) :
    (lang fl).Sees (fun p => some (p % 4294967296)) buf (look buf) where
  unpack {p o size u} ho hu := by
    cases ho
    obtain ⟨-, rfl⟩ := unpackBits_eq_some_iff.mp hu
    congr 1
    refine List.map_congr_left fun i _ => ?_
    show bitAt buf ((p % 4294967296 + i) % 4294967296) = bitAt buf ((p + i) % 4294967296)
    rw [Nat.mod_add_mod]

theorem addressed (fl : FloatExprs) : (lang fl).Addressed (fun p => some (p % 4294967296)) where
  zero := rfl
  add {base o} h off := by
    cases h
    show some ((base % 4294967296 + off % 4294967296) % 4294967296) = _
    rw [← Nat.add_mod]

/-! ## In bounds -/

section InBounds

variable {rnd : Rat → Rat} {schema : SchemaDecl} {data : Data} {name : String} {t : TypeDef}
  {ctx : Context} {scope : Scope} {buf : List UInt8} {a : Access}

theorem byteAccesses_inBounds {off bits size : Nat} (h : off + bits ≤ 8 * size) :
    ∀ a ∈ byteAccesses (off % 4294967296) bits, a.InBounds size := by
  intro a ha
  obtain ⟨i, hi, rfl⟩ := List.mem_map.mp ha
  have := List.mem_range.mp hi
  show (off % 4294967296 + i) % 4294967296 / 8 < size
  omega

/-- The element of a leaf part of an accepted type: its width, and its table. -/
theorem leaf_remapEnum {off k : Nat} {s : Bool} {e : Elem} (hctx : ctx.EnumsLaid)
    {lo hi : Nat} (hw : (Part.leaf off s k e).Within rnd ctx true lo hi) :
    PackLang.leafWidth e k = e.size ∧
      ∀ tab, remapEnum e = some tab → tab.Laid ∧ e.size = tab.bits := by
  obtain ⟨rfl, hin⟩ := hw.leaf _ _ _ _ rfl
  constructor
  · unfold PackLang.leafWidth
    split
    next hb => exact (hin.leaf.bool_size hb).symm
    next => rfl
  · intro tab h
    unfold remapEnum at h
    split at h
    · cases h
    next hb =>
      split at h
      next he =>
        obtain ⟨htab, -⟩ := Option.filter_eq_some_iff.mp h
        obtain ⟨t', ht', hlaid, hsize⟩ := hin.leaf.packedEnum_eq hctx he (by simpa using hb)
        rw [htab] at ht'
        cases ht'
        exact ⟨hlaid, hsize⟩
      next => cases h

/-- The enum whose table is used for a part. -/
def partEnum : Part → Option Enum
  | .leaf _ _ _ e => remapEnum e
  | _ => none

theorem mem_remapEnums {tab : Enum} :
    tab ∈ remapEnums scope name ↔ ∃ p ∈ parts packedCells scope name 0, partEnum p = some tab := by
  rw [remapEnums, List.mem_filterMap]
  refine exists_congr fun p => and_congr_right fun _ => ?_
  cases p <;> rfl

/-- An entry that is read for a part is one of the part's own table. -/
theorem entry_enum {p : Part} {tab : Enum} {i : Nat} (h : .entry tab i ∈ accesses buf p) :
    partEnum p = some tab := by
  have hbytes : ∀ off bits, .entry tab i ∉ byteAccesses off bits := by
    intro off bits hmem
    obtain ⟨j, -, hj⟩ := List.mem_map.mp hmem
    cases hj
  cases p with
  | flag off => exact absurd h (hbytes _ _)
  | tag off k => exact absurd h (hbytes _ _)
  | nested off => exact absurd h List.not_mem_nil
  | leaf off s k e =>
    rcases List.mem_append.mp h with h | h
    · exact absurd h (hbytes _ _)
    · split at h
      next tab' u htab _ =>
        cases List.mem_singleton.mp h
        exact htab
      next => exact absurd h List.not_mem_nil

/-- A part inside the buffer is read in bounds, but for an entry of a table that is not
full. -/
theorem accesses_inBounds (hctx : ctx.EnumsLaid) {p : Part} {total size : Nat}
    (hw : p.Within rnd ctx true 0 total) (hsize : total ≤ 8 * size) (ha : a ∈ accesses buf p)
    (hfull : ∀ tab i, a = .entry tab i → FullTable tab) : a.InBounds size := by
  have hle := hw.le_hi
  cases p with
  | flag off => exact byteAccesses_inBounds (le_trans hle hsize) a ha
  | tag off k => exact byteAccesses_inBounds (le_trans hle hsize) a ha
  | nested off => exact absurd ha List.not_mem_nil
  | leaf off s k e =>
    obtain ⟨hwidth, hlaid⟩ := leaf_remapEnum hctx hw
    obtain ⟨rfl, -⟩ := hw.leaf _ _ _ _ rfl
    rcases List.mem_append.mp ha with ha | ha
    · rw [hwidth] at ha
      exact byteAccesses_inBounds (le_trans hle hsize) a ha
    · split at ha
      next tab u htab hu =>
        cases List.mem_singleton.mp ha
        have hlt := unpackBits_lt hu
        obtain ⟨-, hbits⟩ := hlaid tab htab
        rw [hwidth, hbits] at hlt
        exact lt_of_lt_of_le hlt (hfull tab u rfl)
      next => exact absurd ha List.not_mem_nil

/-- On its own count in the bits, a short table is asked for the entry behind its last. -/
theorem entry_mem_accesses (hctx : ctx.EnumsLaid) {off k : Nat} {s : Bool} {e : Elem}
    {total : Nat} {tab : Enum} (hw : (Part.leaf off s k e).Within rnd ctx true 0 total)
    (htab : remapEnum e = some tab) (hnot : ¬ FullTable tab) (hbuf : total ≤ 8 * buf.length)
    (hread : Cells.read (look buf) off k = natBits k tab.count) :
    .entry tab tab.count ∈ accesses buf (.leaf off s k e) := by
  obtain ⟨hwidth, hrest⟩ := leaf_remapEnum hctx hw
  obtain ⟨-, hbits⟩ := hrest tab htab
  obtain ⟨rfl, -⟩ := hw.leaf _ _ _ _ rfl
  have hle : off + e.size ≤ total := hw.le_hi
  have hlt : tab.count < 2 ^ min tab.bits 32 := Nat.lt_of_not_le hnot
  have hlt32 : tab.count < 2 ^ 32 :=
    lt_of_lt_of_le hlt (Nat.pow_le_pow_right (by decide) (Nat.min_le_right ..))
  have hltbits : tab.count < 2 ^ e.size :=
    lt_of_lt_of_le hlt (hbits ▸ Nat.pow_le_pow_right (by decide) (Nat.min_le_left ..))
  -- the bits at the leaf are those of the count
  have hbit : (List.range e.size).map (fun i => bitAt buf ((off % 4294967296 + i) % 4294967296))
      = (List.range e.size).map tab.count.testBit := by
    rw [← natBits_eq_map, ← hread]
    refine List.map_congr_left fun i _ => ?_
    show _ = bitAt buf ((off + i) % 4294967296)
    rw [Nat.mod_add_mod]
  have hunpack : unpackBits buf (off % 4294967296) e.size = some tab.count := by
    rw [unpackBits_eq_some_iff]
    refine ⟨fun i hi => ⟨by omega, fun hset => ?_⟩, ?_⟩
    · have hi' := List.map_inj_left.mp hbit i (List.mem_range.mpr hi)
      rw [hi'] at hset
      by_contra h32
      have hpow : tab.count < 2 ^ i :=
        lt_of_lt_of_le hlt32 (Nat.pow_le_pow_right (by decide) (by omega))
      rw [Nat.testBit_lt_two_pow hpow] at hset
      cases hset
    · rw [hbit, ← natBits_eq_map, ofBits_natBits, Nat.mod_eq_of_lt hltbits]
  refine List.mem_append_right _ ?_
  rw [hwidth, htab, hunpack]
  exact List.mem_singleton_self _

/-- **The bytes are in the buffer**, whatever is in it and whatever the tables are. -/
theorem bytes_inBounds (hacc : data.Accepted rnd ctx) (ht : data.types.lookup name = some t)
    (hpk : t.isPacked = true) (buf : List UInt8) {i : Nat}
    (h : .byte i ∈ decodeAccesses data.types name buf) : i < t.wireSize := by
  have hwire := packed_wireSize hacc.types ht hpk
  obtain ⟨p, hp, hi⟩ := List.mem_flatMap.mp h
  have hpart := visit_subset packedCells_lawful _ _ _ hp
  have hw := parts_within data.types name t ht hacc.types hpk 0 p hpart
  exact accesses_inBounds (a := .byte i) hacc.enums hw (by omega) hi
    (fun tab j hj => by cases hj)

/-- The accesses are those of the decoder: where it is defined, they are in bounds. -/
theorem accesses_of_reads {fl : FloatExprs} (hctx : ctx.EnumsLaid) {p : Part} {total : Nat}
    (hw : p.Within rnd ctx true 0 total)
    (h : (lang fl).Reads (fun p => some (p % 4294967296)) buf p) (ha : a ∈ accesses buf p) :
    a.InBounds buf.length := by
  have hbytes : ∀ {off bits u}, unpackBits buf (off % 4294967296) bits = some u →
      ∀ a ∈ byteAccesses (off % 4294967296) bits, a.InBounds buf.length := by
    intro off bits u hu a ha
    obtain ⟨i, hi, rfl⟩ := List.mem_map.mp ha
    exact ((unpackBits_eq_some_iff.mp hu).1 i (List.mem_range.mp hi)).1
  cases p with
  | flag off =>
    obtain ⟨_, u, ho, hu⟩ := h
    cases ho
    exact hbytes hu a ha
  | tag off k =>
    obtain ⟨_, u, ho, hu⟩ := h
    cases ho
    exact hbytes hu a ha
  | nested off => exact absurd ha List.not_mem_nil
  | leaf off s k e =>
    obtain ⟨_, u, v, ho, hu, hv⟩ := h
    cases ho
    rcases List.mem_append.mp ha with ha | ha
    · exact hbytes hu a ha
    · split at ha
      next tab u' htab hu' =>
        cases List.mem_singleton.mp ha
        have hsame : u' = u := Option.some.inj (hu'.symm.trans hu)
        subst hsame
        obtain ⟨hlaid, -⟩ := (leaf_remapEnum hctx hw).2 tab htab
        -- the table has an entry at the index, or there is no value
        have hvalue : (wireToValue tab u').map Value.enum = some v := by
          unfold remapEnum at htab
          split at htab
          · cases htab
          next hb =>
            split at htab
            next he =>
              obtain ⟨htab, hr⟩ := Option.filter_eq_some_iff.mp htab
              have hunstep : (lang fl).unstep s e u' = (wireToValue tab u').map Value.enum := by
                show unstep fl s e u' = _
                simp only [unstep, if_neg hb, if_pos he, htab, if_pos hr]
              rw [← hunstep]
              exact hv
            next => cases htab
        obtain ⟨c, hc, -⟩ := Option.map_eq_some_iff.mp hvalue
        obtain ⟨w, hw', -⟩ := Option.map_eq_some_iff.mp hc
        show u' < tab.count
        rw [hlaid.count_eq]
        exact (List.getElem?_eq_some_iff.mp hw').1
      next => exact absurd ha List.not_mem_nil

/-- A decode that is defined, on a buffer of any size, has read nothing out of bounds. -/
theorem decode_accesses {fl : FloatExprs} (hacc : data.Accepted rnd ctx)
    (ht : data.types.lookup name = some t) (hpk : t.isPacked = true) {v : Value}
    (h : (lang fl).decode data.types name buf = some v) :
    ∀ a ∈ decodeAccesses data.types name buf, a.InBounds buf.length := by
  intro a ha
  obtain ⟨p, hp, ha⟩ := List.mem_flatMap.mp ha
  have hpart := visit_subset packedCells_lawful _ _ _ hp
  have hreads := (PackLang.decode_isSome_iff lang_lawful (addressed fl) (sees fl buf) hacc.types
    (fun _ _ _ tag => ⟨.union tag .absent, rfl⟩) ht hpk).mp ⟨v, h⟩ p hp
  exact accesses_of_reads hacc.enums
    (parts_within data.types name t ht hacc.types hpk 0 p hpart) hreads ha

/-- A call of `unpack_bits` with a negative width leaves any buffer of less than `2 ^ 28`
bytes. -/
theorem negative_outOfBounds {bits : Int} (hmin : -2147483648 ≤ bits) (h : bits < 0) {size : Nat}
    (hsize : size < 268435456) (off : Nat) :
    ∃ a ∈ byteAccesses (off % 4294967296) (widthArg bits), ¬ a.InBounds size := by
  have hbig := widthArg_negative hmin h
  -- the first bit behind the buffer, or the one at the offset if that is behind it already
  have hbit : ∃ i < widthArg bits, size ≤ (off % 4294967296 + i) % 4294967296 / 8 := by
    by_cases hoff : 8 * size ≤ off % 4294967296
    · exact ⟨0, by omega, by omega⟩
    · exact ⟨8 * size - off % 4294967296, by omega, by omega⟩
  obtain ⟨i, hi, hbehind⟩ := hbit
  refine ⟨_, List.mem_map_of_mem (List.mem_range.mpr hi), fun hin => ?_⟩
  have hlt : (off % 4294967296 + i) % 4294967296 / 8 < size := hin
  omega

/-- **The C decoder stays inside its tables exactly if they are full.** On a buffer of
`WIRE_SIZE` bytes, whatever is in it, the decoder of a packed type reads only bytes of the
buffer and entries of its tables if every remap enum of the type fills its table; and if
the type has at most `2 ^ 32` bits, so that no two of its offsets are the same `uint32_t`,
only if. The accesses are those of the decoder: where it has a result, they are in bounds. A
call with a negative width reads behind the buffer. -/
theorem decode_inBounds_iff (hproc : processSchema rnd schema = .ok data)
    (hval : validateSchema rnd data = []) (ht : data.types.lookup name = some t)
    (hpk : t.isPacked = true) :
    ((∀ tab ∈ remapEnums data.types name, FullTable tab) → ∀ buf : List UInt8,
        buf.length = t.wireSize →
          ∀ a ∈ decodeAccesses data.types name buf, a.InBounds t.wireSize) ∧
      (t.total ≤ 4294967296 → (∀ buf : List UInt8, buf.length = t.wireSize →
          ∀ a ∈ decodeAccesses data.types name buf, a.InBounds t.wireSize) →
        ∀ tab ∈ remapEnums data.types name, FullTable tab) ∧
      (∀ (fl : FloatExprs) (buf : List UInt8) (v : Value),
        (lang fl).decode data.types name buf = some v →
          ∀ a ∈ decodeAccesses data.types name buf, a.InBounds buf.length) ∧
      ∀ bits : Int, -2147483648 ≤ bits → bits < 0 → ∀ size < 268435456, ∀ off,
        ∃ a ∈ byteAccesses (off % 4294967296) (widthArg bits), ¬ a.InBounds size := by
  obtain ⟨ctx, hacc⟩ := accepted hproc hval
  have hwire := packed_wireSize hacc.types ht hpk
  have hwithin := parts_within (C := packedCells) data.types name t ht hacc.types hpk 0
  simp only [Nat.zero_add] at hwithin
  refine ⟨?_, ?_, fun fl buf v h => decode_accesses hacc ht hpk h,
    fun bits hmin h size hsize off => negative_outOfBounds hmin h hsize off⟩
  · intro hfull buf _ a ha
    obtain ⟨p, hp, ha⟩ := List.mem_flatMap.mp ha
    have hpart := visit_subset packedCells_lawful _ _ _ hp
    apply accesses_inBounds hacc.enums (hwithin p hpart) (by omega) ha
    intro tab i hentry
    rw [hentry] at ha
    exact hfull tab (mem_remapEnums.mpr ⟨p, hpart, entry_enum ha⟩)
  · intro h32 hsafe tab hmem
    by_contra hnot
    obtain ⟨p, hpart, htab⟩ := mem_remapEnums.mp hmem
    cases p with
    | leaf off s k e =>
      -- contents that have the leaf visited, with the count in its bits
      obtain ⟨r, hr, hvisit⟩ := exists_visit packedCells_lawful data.types name t ht hacc.types
        hpk 0 _ hpart (natBits k tab.count) (natBits_length ..)
      have hlook : ∀ i, i < t.total → look (fromBits t.wireSize r) i = r i := by
        intro i hi
        rw [look, Nat.mod_eq_of_lt (by omega), bitAt_fromBits r (by omega)]
      have hin := hvisit (look (fromBits t.wireSize r)) fun i _ hi => hlook i (by omega)
      have hw := hwithin _ hpart
      have hread : Cells.read (look (fromBits t.wireSize r)) off k = natBits k tab.count := by
        rw [← hr]
        refine Cells.read_congr fun i _ hi => hlook i ?_
        have hle : off + k ≤ t.total := hw.le_hi
        omega
      have hentry := entry_mem_accesses hacc.enums hw htab hnot
        (by rw [fromBits_length]; omega) hread
      have hbad := hsafe _ (fromBits_length ..) _ (List.mem_flatMap.mpr ⟨_, hin, hentry⟩)
      exact absurd hbad (Nat.lt_irrefl tab.count)
    | _ => cases htab

end InBounds

section Program

/-- Lines of a program: an instruction of three, and a feed rate of four. -/
def program : SchemaDecl where
  enums :=
    [("GCode", { remap := true, variants := [.valued "HOME" 28, .valued "MOVE" 1,
        .valued "STATUS" 122] }),
      ("Feed", { remap := true, variants := [.valued "OFF" 0, .valued "SLOW" 10,
        .valued "FAST" 50, .valued "MAX" 255] })]
  structs :=
    [("Line", { fields := [{ name := "code", type := "GCode" }] }),
      ("Spindle", { fields := [{ name := "feed", type := "Feed", count := some 3 }] })]

def programData : Data := processed program

theorem program_ok : processSchema id program = .ok programData := rfl

theorem program_valid : validateSchema id programData = [] := by decide +kernel

/-- Four instructions fit two bits, so every byte is safe to decode. -/
theorem decode_inBounds_spindle :
    (∃ t, programData.types.lookup "Spindle" = some t ∧ t.isPacked = true ∧ t.wireSize = 1) ∧
      ∀ buf : List UInt8, buf.length = 1 →
        ∀ a ∈ decodeAccesses programData.types "Spindle" buf, a.InBounds 1 :=
  ⟨⟨_, rfl, rfl, rfl⟩,
    (@decode_inBounds_iff id program programData "Spindle" _ program_ok program_valid rfl rfl).1
      (by decide +kernel)⟩

instance (size : Nat) : (a : Access) → Decidable (a.InBounds size)
  | .byte i => inferInstanceAs (Decidable (i < size))
  | .entry t i => inferInstanceAs (Decidable (i < t.count))

/-- The byte 3 asks for the fourth entry of a table of three. -/
theorem decode_outOfBounds_line :
    processSchema id program = .ok programData ∧ validateSchema id programData = [] ∧
      ∃ t, programData.types.lookup "Line" = some t ∧ t.isPacked = true ∧ t.wireSize = 1 ∧
        ∃ a ∈ decodeAccesses programData.types "Line" [3], ¬ a.InBounds t.wireSize :=
  ⟨program_ok, program_valid, _, rfl, rfl, rfl, by decide +kernel⟩

end Program

end ProtoEmb.Codec.C

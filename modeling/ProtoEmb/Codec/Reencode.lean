import ProtoEmb.Codec.AlignedAgreement
import ProtoEmb.Codec.Total
import ProtoEmb.Lib.Utf8

/-!
# Encoding again what was decoded

`T::decode(&v.encode()).unwrap().encode()` of an aligned type of `protocol.rs.j2` gives the bytes of
`v.encode()` exactly if every leaf of `v` is restored (`reencode_stable_iff`). The conformance
driver of Rust checks this of its vectors.

A number whose scaled value fits its bytes comes back, if its code compiles. A string need
not: `encode` cuts it by bytes, and `decode` reads up to the first zero and replaces what is
no character. So the bytes behind a zero are lost, and the remains of a character that was cut
turn into the first bytes of U+FFFD.
-/

namespace ProtoEmb.Codec

open ProtoEmb.Lib ProtoEmb.Schema

/-! ## What an encoder has evaluated -/

/-- Every expression of the encoder has a value. -/
structure AlignLang.Defined (L : AlignLang) (cs : List Chunk) : Prop where
  leaf : AllLeaves (fun s e v => ∃ x, L.leaf s e.size e v = some x) cs
  tag : ∀ size i, .tag size i ∈ cs → ∃ b, L.tagByte i = some b

section Defined

variable {L : AlignLang} {rnd : Rat → Rat} {ctx : Context} {scope : Scope}
  {nested : String → List UInt8 → Nat → Value → Option (List UInt8)} {offset : Nat → Option Nat}

theorem AlignLang.Defined.append {xs ys : List Chunk} (hx : L.Defined xs) (hy : L.Defined ys) :
    L.Defined (xs ++ ys) := by
  refine ⟨fun s e v hl => ?_, fun size i ht => ?_⟩
  · rcases List.mem_append.mp hl with h | h
    · exact hx.leaf s e v h
    · exact hy.leaf s e v h
  · rcases List.mem_append.mp ht with h | h
    · exact hx.tag size i h
    · exact hy.tag size i h

/-- The encoders of the nested types have evaluated what they store. -/
def DefinesNested (L : AlignLang) (scope : Scope)
    (nested : String → List UInt8 → Nat → Value → Option (List UInt8)) : Prop :=
  ∀ {m t v cs buf o buf'}, scope.lookup m = some t → t.isPacked = false →
    nested m buf o v = some buf' → layout scope m v = some cs → L.Defined cs

theorem storeWrite_defined (ih : DefinesNested L scope nested) {w : Write}
    (hw : w.Laid rnd ctx scope false) {buf buf' : List UInt8} {cs : List Chunk}
    (h : L.storeWrite nested offset buf w = some buf')
    (hc : layoutWrite (layout scope) w = some cs) : L.Defined cs := by
  cases w with
  | flag off b =>
    cases hc
    exact ⟨fun s e v hl => by simp at hl, fun size i ht => by simp at ht⟩
  | skip off size =>
    cases hc
    exact ⟨fun s e v hl => by simp at hl, fun size i ht => by simp at ht⟩
  | tag off size index =>
    cases hc
    simp only [AlignLang.storeWrite, Option.bind_eq_bind, Option.bind_eq_some_iff] at h
    obtain ⟨_, _, b, hb, _⟩ := h
    refine ⟨fun s e v hl => by simp at hl, fun size' i ht => ?_⟩
    cases List.mem_singleton.mp ht
    exact ⟨b, hb⟩
  | elem off s k e v =>
    obtain ⟨rfl, he, _⟩ := hw
    simp only [layoutWrite, layoutElem] at hc
    simp only [AlignLang.storeWrite, Option.bind_eq_bind, Option.bind_eq_some_iff] at h
    obtain ⟨o, _, h⟩ := h
    split at hc
    next hn =>
      obtain ⟨t, ht, hpk, _⟩ := he.nested hn
      rw [if_pos hn] at h
      exact ih ht hpk h hc
    next hn =>
      cases hc
      rw [if_neg hn, Option.bind_eq_some_iff] at h
      obtain ⟨x, hx, _⟩ := h
      refine ⟨fun s' e' v' hl => ?_, fun size i ht => by simp at ht⟩
      cases List.mem_singleton.mp hl
      exact ⟨x, hx⟩

theorem storeWrites_defined (ih : DefinesNested L scope nested) :
    ∀ (ws : List Write) {buf buf' : List UInt8} {cs : List Chunk},
      (∀ w ∈ ws, w.Laid rnd ctx scope false) →
        ws.foldlM (L.storeWrite nested offset) buf = some buf' →
      layoutWrites (layout scope) ws = some cs → L.Defined cs := by
  intro ws
  induction ws with
  | nil =>
    intro buf buf' cs _ _ hc
    cases hc
    exact ⟨fun s e v hl => absurd hl List.not_mem_nil, fun size i ht => absurd ht List.not_mem_nil⟩
  | cons w ws ihs =>
    intro buf buf' cs hlaid h hc
    simp only [layoutWrites, Option.bind_eq_bind, Option.bind_eq_some_iff, Option.pure_def,
      Option.some.injEq] at hc
    obtain ⟨c, hc₁, cs', hcs', rfl⟩ := hc
    rw [List.foldlM_cons, Option.bind_eq_bind, Option.bind_eq_some_iff] at h
    obtain ⟨mid, hw, hrest⟩ := h
    exact (storeWrite_defined ih (hlaid w (List.mem_cons_self ..)) hw hc₁).append
      (ihs (fun x hx => hlaid x (List.mem_cons_of_mem _ hx)) hrest hcs')

end Defined

namespace Rust

section Encoder

variable {rnd : Rat → Rat} {ctx : Context} {scope : Scope} {wire : String → Nat}

theorem placeFields_of_some (hwire : ∀ m c, scope.lookup m = some c → c.isPacked = false →
      wire m = c.total) :
    ∀ (fs : List Field) {off : Nat} {gs : List Field}, FieldsLaid rnd ctx scope false off fs →
      (∀ f ∈ fs, f.Valid) → AlignLang.placeFields (alignLang.advance wire) off fs = some gs →
      gs = fs := by
  intro fs
  induction fs with
  | nil => intro off gs _ _ h; cases h; rfl
  | cons f fs ih =>
    intro off gs hlaid hv h
    simp only [AlignLang.placeFields, Option.bind_eq_bind, Option.bind_eq_some_iff,
      Option.pure_def, Option.some.injEq] at h
    obtain ⟨n, hn, rest, hrest, rfl⟩ := h
    have hf := hlaid.1
    have hsize := advance_eq hwire hf (hv f (List.mem_cons_self ..)) hn
    subst hsize
    rw [ih hlaid.2 (fun g hg => hv g (List.mem_cons_of_mem _ hg)) hrest, ← hf.value_eq]
    cases f
    cases hf.offset_eq
    rfl

/-- Where the running offset compiles, it is the offset of `process_schema`. -/
theorem place_of_some (hwire : ∀ m c, scope.lookup m = some c → c.isPacked = false →
      wire m = c.total) {t t' : TypeDef} (ht : t.Laid rnd ctx scope) (hpk : t.isPacked = false)
    (hv : t.Valid) (h : AlignLang.place (alignLang.advance wire) t = some t') : t' = t := by
  cases t with
  | union u => cases h; rfl
  | struct s =>
    have hs : s.Laid rnd ctx scope := ht
    have hfields := hs.fields
    rw [show s.isPacked = false from hpk] at hfields
    simp only [AlignLang.place, Option.bind_eq_bind, Option.bind_eq_some_iff, Option.pure_def,
      Option.some.injEq] at h
    obtain ⟨fs, hfs, rfl⟩ := h
    rw [placeFields_of_some hwire s.fields hfields hv hfs]

/-- **An encoder that returns has evaluated every leaf.** -/
theorem encodeCopied_defined :
    ∀ (scope : Scope) (name : String) (t : TypeDef), scope.lookup name = some t →
      scope.Accepted rnd ctx → t.isPacked = false →
      ∀ {v : Value} {cs : List Chunk} {bytes : List UInt8}, layout scope name v = some cs →
        alignLang.encodeCopied scope name v = some bytes → alignLang.Defined cs := by
  refine scope_induction ?_ ?_
  · intro n t rest ih hacc hpk v cs bytes hlay h
    have hrest := hacc.tail
    have hv := hacc.valid _ (List.mem_cons_self ..)
    obtain ⟨ws, hws, hcs⟩ := layout_head hlay
    obtain ⟨_, hl⟩ := writes_contiguous hacc.laid.1 hv hws
    rw [hpk] at hl
    rw [AlignLang.encodeCopied, encoder_head] at h
    simp only [Option.bind_eq_bind, Option.bind_eq_some_iff] at h
    obtain ⟨placed, hplaced, ws', hws', hfold⟩ := h
    have hsame := place_of_some (fun m c hm hcpk => by
      rw [encoder_fst rest m c hm, aligned_wireSize hrest hm hcpk]) hacc.laid.1 hpk hv
      hplaced
    subst hsame
    rw [hws, Option.some.injEq] at hws'
    subst hws'
    refine storeWrites_defined (fun {m t x ds buf o buf'} hm hcpk hst hlay => ?_) ws hl hfold hcs
    obtain ⟨bs, hbs, _⟩ := Option.bind_eq_some_iff.mp hst
    exact ih m t hm hrest hcpk hlay hbs
  · intro n t₀ rest m t hm ih hacc hpk v cs bytes hlay h
    rw [layout, resolve_tail t₀ rest hm] at hlay
    rw [AlignLang.encodeCopied, AlignLang.encoder, resolve_tail t₀ rest hm] at h
    exact ih hacc.tail hpk hlay h

end Encoder

/-! ## Leaves -/

/-- The number that is stored for `n`. -/
def scaledValue (e : Elem) (n : Int) : Rat := if e.rawStorage then n else n * e.scale.toRat

/-- An `i32` or `u32` whose scaled value fits the native width. -/
structure ScaledFits (e : Elem) (n : Int) : Prop where
  not_bool : e.isBool = false
  not_enum : e.isEnum = false
  not_string : e.isString = false
  not_float : e.isFloat = false
  fits : Fits (!e.isSigned) n
  scaled : if e.isSigned then -2 ^ (8 * e.size - 1) ≤ scaledValue e n ∧
      scaledValue e n < 2 ^ (8 * e.size - 1)
    else 0 ≤ scaledValue e n ∧ scaledValue e n < 2 ^ (8 * e.size)

/-- What a leaf of an aligned type holds in Rust; a `String` is any text. -/
inductive Holds (e : Elem) : Value → Prop
  | bool (b : Bool) : e.isBool = true → e.isString = false → Holds e (.bool b)
  | enum (i : Int) (t : Enum) : e.isEnum = true → e.isBool = false → e.isString = false →
    e.enum = some t → 0 ≤ i → i < t.count → Holds e (.enum i)
  | int (n : Int) : ScaledFits e n → Holds e (.int n)
  | str (text : List Char) : e.isString = true → Holds e (.str (utf8 text))

/-- **When a leaf is restored.** An enum is at most a `u8`. A scale is a literal of the type. A
string has a `max_length`, and survives its cut. -/
def Restored (e : Elem) : Value → Prop
  | .enum _ => ∀ t ∈ e.enum, t.count ≤ 256
  | .int _ => (e.rawStorage || !e.hasScale) = true ∨ ∃ k ∈ scaleLit (!e.isSigned) e, k ≠ 0
  | .str bs => ∃ n ∈ e.maxLength, SurvivesCut n bs
  | _ => True

instance (e : Elem) : (v : Value) → Decidable (Restored e v)
  | .enum _ => inferInstanceAs (Decidable (∀ t ∈ e.enum, t.count ≤ 256))
  | .int _ => inferInstanceAs (Decidable (_ = true ∨ ∃ k ∈ scaleLit (!e.isSigned) e, k ≠ 0))
  | .str bs => inferInstanceAs (Decidable (∃ n ∈ e.maxLength, SurvivesCut n bs))
  | .bool _ | .num _ | .float _ | .absent | .present _ | .array _ | .struct _ | .union _ _ =>
    inferInstanceAs (Decidable True)

/-- The bytes that are stored for a leaf. -/
def storedBytes : Bytes := fun s e v => padTo e.size ((alignedLeaf s e.size e v).getD [])

/-- The leaf has bytes, something is read back from them, and that has the same bytes. -/
def Stable (s : Bool) (e : Elem) (v : Value) : Prop :=
  (∃ x, alignedLeaf s e.size e v = some x) ∧
    ∃ y, unleaf fromUtf8Lossy s e (storedBytes s e v) = some y ∧
      (∃ x, alignedLeaf s e.size e y = some x) ∧ storedBytes s e y = storedBytes s e v

section Leaf

variable {rnd : Rat → Rat} {ctx : Context} {s : Bool} {e : Elem} {v : Value} {x : List UInt8}

theorem number_cases (hl : e.Leaf rnd ctx false) (hs : e.isString = false) (hb : e.isBool = false)
    (he : e.isEnum = false) : e.size = 1 ∨ e.size = 2 ∨ e.size = 4 := by
  rw [number_size hl hs hb he]
  exact typeSize_cases e.type

/-- A leaf has at most its bytes; only a string has fewer. -/
theorem alignedLeaf_length (hl : InSchema rnd ctx false s e)
    (h : alignedLeaf s e.size e v = some x) :
    x.length ≤ e.size ∧ (e.isString = false → x.length = e.size) := by
  suffices hall : x.length ≤ e.size ∧ (e.isString = false → e.size ≤ x.length) from
    ⟨hall.1, fun hs => Nat.le_antisymm hall.1 (hall.2 hs)⟩
  unfold alignedLeaf at h
  by_cases hs : e.isString = true
  · rw [if_pos hs] at h
    refine ⟨?_, fun hno => by rw [hs] at hno; cases hno⟩
    -- a string is cut at the member, so it can be shorter
    split at h
    next bs n hmax =>
      cases h
      rw [string_size hl.leaf hs, hmax, Option.getD_some, List.length_take]
      omega
    next => cases h
  have hstr : e.isString = false := by simpa using hs
  rw [if_neg hs] at h
  by_cases hb : e.isBool = true
  · rw [if_pos hb] at h
    rw [byte_size hl.leaf hstr (Or.inl hb)]
    cases v with
    | bool b => cases h; exact ⟨le_rfl, fun _ => le_rfl⟩
    | _ => cases h
  rw [if_neg hb] at h
  by_cases he : e.isEnum = true
  · rw [if_pos he] at h
    rw [byte_size hl.leaf hstr (Or.inr he)]
    split at h
    next i t _ =>
      obtain ⟨_, _, rfl⟩ := Option.map_eq_some_iff.mp h
      exact ⟨le_rfl, fun _ => le_rfl⟩
    next => cases h
  rw [if_neg he] at h
  -- an integer is copied through a native one of its width
  have hnative : ∀ m, nativeBytes e.size m = some x → x.length = e.size := by
    intro m hm
    unfold nativeBytes at hm
    split at hm
    · cases hm
      exact leBytes_length _ _
    · cases hm
  suffices heq : x.length = e.size from ⟨heq.le, fun _ => heq.ge⟩
  -- an integer, or the four bytes of a float
  split at h
  next n _ =>
    split at h
    · split at h
      · exact hnative _ h
      · obtain ⟨m, _, hm⟩ := Option.bind_eq_some_iff.mp h
        exact hnative m hm
    · cases h
  next bits _ =>
    split at h
    next hw =>
      cases h
      simp only [Bool.and_eq_true, decide_eq_true_eq] at hw
      rw [leBytes_length, hw.2]
    next => cases h
  next => cases h

theorem storedBytes_length (hl : InSchema rnd ctx false s e)
    (h : ∃ x, alignedLeaf s e.size e v = some x) : (storedBytes s e v).length = e.size := by
  obtain ⟨x, hx⟩ := h
  rw [storedBytes, hx, Option.getD_some]
  exact padTo_length (alignedLeaf_length hl hx).1

/-- A leaf that is read back as it was is stable. -/
theorem stable_of_back (hl : InSchema rnd ctx false s e) (hs : e.isString = false)
    (hx : alignedLeaf s e.size e v = some x) (hback : unleaf fromUtf8Lossy s e x = some v) :
    Stable s e v := by
  have hstored : storedBytes s e v = x := by
    rw [storedBytes, hx, Option.getD_some, padTo_of_length ((alignedLeaf_length hl hx).2 hs)]
  exact ⟨⟨x, hx⟩, v, by rw [hstored, hback], ⟨x, hx⟩, rfl⟩

theorem bool_stable (hl : InSchema rnd ctx false s e) (hb : e.isBool = true)
    (hs : e.isString = false) (b : Bool) : Stable s e (.bool b) := by
  refine @stable_of_back rnd ctx s e (.bool b) [if b then 1 else 0] hl hs ?_ ?_
  · simp [alignedLeaf, hs, hb]
  · cases b <;> simp [unleaf, hs, hb]

theorem enum_stable_iff (hl : InSchema rnd ctx false s e) {i : Int} {t : Enum}
    (he : e.isEnum = true) (hb : e.isBool = false) (hs : e.isString = false)
    (ht : e.enum = some t) (h0 : 0 ≤ i) (hlt : i < t.count) :
    Stable s e (.enum i) ↔ t.count ≤ 256 := by
  have hleaf : alignedLeaf s e.size e (.enum i)
      = (toWire t i).map fun x => [UInt8.ofNat x] := by
    simp [alignedLeaf, hs, hb, he, ht]
  constructor
  · intro h
    obtain ⟨⟨x, hx⟩, _⟩ := h
    rw [hleaf, Option.map_eq_some_iff] at hx
    obtain ⟨u, hu, _⟩ := hx
    by_contra hbig
    rw [toWire, if_neg fun h => hbig h.1] at hu
    cases hu
  · intro hcount
    have hwire : toWire t i = some i.toNat := if_pos ⟨hcount, h0, hlt⟩
    have hbyte : (UInt8.ofNat i.toNat).toNat = i.toNat := toNat_ofNat (by omega)
    have hback : fromWire t i.toNat = some i := by
      rw [fromWire, if_pos hcount, Nat.mod_eq_of_lt (by omega), if_pos (by omega),
        Int.toNat_of_nonneg h0]
    refine @stable_of_back rnd ctx s e (.enum i) [UInt8.ofNat i.toNat] hl hs ?_ ?_
    · rw [hleaf, hwire]
      rfl
    · simp [unleaf, hs, hb, he, ht, hbyte, hback]

/-- A number in the native range is read from its bytes. -/
theorem nativeInt_leBytes {m : Int} (hz : e.size = 1 ∨ e.size = 2 ∨ e.size = 4)
    (hm : if e.isSigned then -2 ^ (8 * e.size - 1) ≤ m ∧ m < 2 ^ (8 * e.size - 1)
      else 0 ≤ m ∧ m < 2 ^ (8 * e.size)) :
    nativeInt e (leBytes e.size (toU32 m)) = m := by
  have hread : ((ofLeBytes (leBytes e.size (toU32 m)) : Nat) : Int) = m % 2 ^ (8 * e.size) := by
    rw [ofLeBytes_leBytes, show (256 : Nat) = 2 ^ 8 from rfl, ← Nat.pow_mul,
      toU32_mod_cast (by omega)]
  rw [nativeInt, hread, leBytes_length]
  split at hm
  next hsg =>
    rw [if_pos hsg]
    unfold wrapS
    rcases hz with hz | hz | hz <;> rw [hz] at hm ⊢ <;> norm_num at hm ⊢ <;> omega
  next hsg => rw [if_neg hsg, Int.emod_eq_of_lt hm.1 hm.2]

theorem int_stable_iff (hl : InSchema rnd ctx false s e) {n : Int} (h : ScaledFits e n) :
    Stable s e (.int n) ↔ Restored e (.int n) := by
  have hz := number_cases hl.leaf h.not_string h.not_bool h.not_enum
  have hnative : ∀ m, nativeBytes e.size m = some (leBytes e.size (toU32 m)) := fun m => if_pos hz
  have hstr : ¬ e.isString = true := by simp [h.not_string]
  have hbool : ¬ e.isBool = true := by simp [h.not_bool]
  have henum : ¬ e.isEnum = true := by simp [h.not_enum]
  have hfloat : ¬ e.isFloat = true := by simp [h.not_float]
  have hscaled := h.scaled
  have hleaf : alignedLeaf s e.size e (.int n) = if e.rawStorage || !e.hasScale then
      nativeBytes e.size n else (mulScale (!e.isSigned) e n).bind (nativeBytes e.size) := by
    unfold alignedLeaf
    rw [if_neg hstr, if_neg hbool, if_neg henum, h.not_float]
    exact if_pos h.fits
  have hunleaf : ∀ x, unleaf fromUtf8Lossy s e x
      = if e.rawStorage || !e.hasScale then some (.int (nativeInt e x))
        else (divScale (!e.isSigned) e (nativeInt e x)).map .int := by
    intro x
    unfold unleaf
    rw [if_neg hstr, if_neg hbool, if_neg henum]
    exact if_neg hfloat
  unfold Restored
  by_cases hplain : (e.rawStorage || !e.hasScale) = true
  · -- stored as it is
    have hvalue : scaledValue e n = n := by
      unfold scaledValue
      by_cases hraw : e.rawStorage = true
      · rw [if_pos hraw]
      · have hone : ¬ e.hasScale = true := by simpa [hraw] using hplain
        rw [hl.leaf.hasScale_iff, not_not] at hone
        rw [if_neg hraw, hone, mul_one]
    rw [hvalue] at hscaled
    have hback := nativeInt_leBytes (m := n) hz (by exact_mod_cast hscaled)
    refine ⟨fun _ => Or.inl hplain, fun _ => ?_⟩
    refine stable_of_back hl h.not_string (by rw [hleaf, if_pos hplain]; exact hnative n) ?_
    rw [hunleaf, if_pos hplain, hback]
  · have hscale : e.hasScale = true ∧ e.rawStorage = false := by
      simpa [and_comm] using hplain
    simp only [hplain, Bool.false_eq_true, false_or]
    rw [if_neg hplain, mulScale, if_pos hscale.1] at hleaf
    simp only [if_neg hplain, divScale, if_pos hscale.1] at hunleaf
    cases hk : scaleLit (!e.isSigned) e with
    | none =>
      -- the literal does not compile
      rw [hk] at hleaf
      simp only [Option.mem_def, reduceCtorEq, false_and, exists_false, iff_false]
      intro hst
      obtain ⟨⟨x, hx⟩, _⟩ := hst
      rw [hleaf] at hx
      cases hx
    | some k =>
      have hvalue : scaledValue e n = ((n * k : Int) : Rat) := by
        unfold scaleLit at hk
        split at hk
        next k' hk' =>
          rw [lit_eq_some_iff] at hk
          rw [scaledValue, if_neg (by simp [hscale.2]), hk', hk.2]
          push_cast
          rfl
        next => cases hk
      rw [hvalue] at hscaled
      have hrange : if e.isSigned then -2 ^ (8 * e.size - 1) ≤ n * k ∧
          n * k < 2 ^ (8 * e.size - 1) else 0 ≤ n * k ∧ n * k < 2 ^ (8 * e.size) := by
        exact_mod_cast hscaled
      have hback := nativeInt_leBytes hz hrange
      have hfit : Fits (!e.isSigned) (n * k) := by
        rw [← hback]
        exact nativeInt_fits (by rwa [leBytes_length])
      have hx : alignedLeaf s e.size e (.int n) = some (leBytes e.size (toU32 (n * k))) := by
        rw [hleaf, hk, ← hnative]
        simp only [Option.bind_eq_bind, Option.bind_some, wrapping_eq hfit, Option.pure_def]
      simp only [Option.mem_def, Option.some.injEq, exists_eq_left']
      constructor
      · intro hst hzero
        -- the decoder divides by zero
        obtain ⟨_, y, hy, _⟩ := hst
        rw [storedBytes, hx, Option.getD_some, padTo_of_length (leBytes_length _ _), hunleaf, hback,
          hk, hzero] at hy
        simp [div] at hy
      · intro hk0
        refine stable_of_back hl h.not_string hx ?_
        rw [hunleaf, hback, hk, Option.bind_eq_bind, Option.bind_some, div, if_neg hk0,
          Int.mul_tdiv_cancel n hk0, checked_eq h.fits, Option.map_some]

theorem str_stable_iff (hl : InSchema rnd ctx false s e) (hs : e.isString = true)
    (text : List Char) :
    Stable s e (.str (utf8 text)) ↔ ∃ n ∈ e.maxLength, SurvivesCut n (utf8 text) := by
  have hscalar := scalar_of_string hl hs
  subst hscalar
  have hunleaf : ∀ bs, unleaf fromUtf8Lossy true e bs = some (.str (fieldText bs)) :=
    fun bs => if_pos hs
  cases hmax : e.maxLength with
  | none =>
    -- the encoder does not compile
    have hleaf : alignedLeaf true e.size e (.str (utf8 text)) = none := by
      simp [alignedLeaf, hs, hmax]
    simp only [Option.mem_def, reduceCtorEq, false_and, exists_false, iff_false]
    intro h
    obtain ⟨⟨x, hx⟩, _⟩ := h
    rw [hleaf] at hx
    cases hx
  | some n =>
    have hsize : e.size = n := by rw [string_size hl.leaf hs, hmax, Option.getD_some]
    have hleaf : ∀ bs, alignedLeaf true e.size e (.str bs) = some (bs.take n) := by
      intro bs
      simp [alignedLeaf, hs, hmax]
    have hstored : ∀ bs, storedBytes true e (.str bs) = fieldBytes n bs := by
      intro bs
      rw [storedBytes, hleaf, Option.getD_some, hsize]
      rfl
    simp only [Option.mem_def, Option.some.injEq, exists_eq_left']
    rw [← fieldBytes_stable_iff]
    constructor
    · intro h
      obtain ⟨_, y, hy, _, hsame⟩ := h
      rw [hunleaf, Option.some.injEq] at hy
      rw [← hy, hstored, hstored] at hsame
      exact hsame
    · intro h
      refine ⟨⟨_, hleaf _⟩, _, hunleaf _, ⟨_, hleaf _⟩, ?_⟩
      rw [hstored, hstored]
      exact h

/-- **A leaf is stable exactly if it is restored.** -/
theorem stable_iff (hl : InSchema rnd ctx false s e) (h : Holds e v) :
    Stable s e v ↔ Restored e v := by
  cases h with
  | bool b hb hs => exact ⟨fun _ => trivial, fun _ => bool_stable hl hb hs b⟩
  | enum i t he hb hs ht h0 hlt =>
    rw [enum_stable_iff hl he hb hs ht h0 hlt]
    simp [Restored, ht]
  | int n hn => exact int_stable_iff hl hn
  | str text hs => exact str_stable_iff hl hs text

end Leaf

/-! ## Whole messages -/

/-- What is read back of a leaf. -/
def readBack : LeafMap := fun s e v => unleaf fromUtf8Lossy s e (storedBytes s e v)

section Whole

variable {rnd : Rat → Rat} {ctx : Context} {scope : Scope} {name : String} {t : TypeDef} {v : Value}
  {cs : List Chunk}

theorem tagByte_iff {i : Nat} : (∃ b, alignLang.tagByte i = some b) ↔ i < 256 := by
  show (∃ b, (if i < 256 then _ else none) = some b) ↔ _
  split
  next h => exact ⟨fun _ => h, fun _ => ⟨_, rfl⟩⟩
  next h => exact ⟨fun hb => by simp at hb, fun hlt => absurd hlt h⟩

theorem tagFits_of_defined (h : alignLang.Defined cs) : ∀ c ∈ cs, c.TagFits := by
  intro c hc
  cases c with
  | tag size i => exact tagByte_iff.mp (h.tag size i hc)
  | _ => trivial

theorem defined_stores (hschema : AllLeaves (fun s e _ => InSchema rnd ctx false s e) cs)
    (h : alignLang.Defined cs) : alignLang.Stores storedBytes cs := by
  refine ⟨fun s e v hl => ?_, fun size i ht => if_pos (tagByte_iff.mp (h.tag size i ht))⟩
  obtain ⟨x, hx⟩ := h.leaf s e v hl
  refine ⟨x, hx, (alignedLeaf_length (hschema s e v hl) hx).1, ?_⟩
  rw [storedBytes, show alignedLeaf s e.size e v = some x from hx, Option.getD_some]

/-- **The encoder** returns if all of it is defined, and then the bytes of the leaves. -/
theorem encodeCopied_iff (hacc : scope.Accepted rnd ctx) (ht : scope.lookup name = some t)
    (hpk : t.isPacked = false) (hlay : layout scope name v = some cs) {bytes : List UInt8} :
    alignLang.encodeCopied scope name v = some bytes ↔
      alignLang.Defined cs ∧ byteImage storedBytes cs = bytes := by
  have hschema := layout_inSchema scope name t ht hacc hpk hlay
  have hbytes : alignLang.Defined cs →
      alignLang.encodeCopied scope name v = some (byteImage storedBytes cs) := fun h =>
    encodeCopied_eq alignLang_advances alignLang_advancesNested alignLang_sizesStrings
      (fun _ => rfl) scope name t ht hacc hpk hlay (defined_stores hschema h)
  constructor
  · intro h
    have hdef := encodeCopied_defined scope name t ht hacc hpk hlay h
    rw [hbytes hdef, Option.some.injEq] at h
    exact ⟨hdef, h⟩
  · intro h
    rw [hbytes h.1, h.2]

/-- **The decoder** on these bytes. -/
theorem decode_stored (hacc : scope.Accepted rnd ctx) (ht : scope.lookup name = some t)
    (hpk : t.isPacked = false) (hlay : layout scope name v = some cs)
    (hdef : alignLang.Defined cs) :
    (alignedDecoder fromUtf8Lossy scope name).decode (byteImage storedBytes cs)
      = (mapLeaves readBack scope name v).map some := by
  have hschema := layout_inSchema scope name t ht hacc hpk hlay
  have hlen : (byteImage storedBytes cs).length = t.total := by
    rw [(defined_stores hschema hdef).length_eq, layout_size scope name t ht hacc hlay]
  have hload : AlignDecoder.Loads storedBytes cs := by
    intro s e x hl
    have hleaf := hschema s e x hl
    refine ⟨storedBytes_length hleaf (hdef.leaf s e x hl), ?_⟩
    by_cases hs : e.isString = true
    · obtain ⟨b, hb⟩ := hdef.leaf s e x hl
      obtain ⟨n, hn⟩ := Option.isSome_iff_exists.mp (alignLang_sizesStrings hb hs)
      rw [AlignDecoder.loadSize, if_pos hs, string_size hleaf.leaf hs, hn]
      rfl
    · exact loadSize_eq hleaf.leaf (by simpa using hs)
  have hin := (@alignedDecoder_inPlace fromUtf8Lossy rnd ctx (byteImage storedBytes cs) scope name t
    ht hacc hpk).2 0 (by omega)
  rw [List.drop_zero] at hin
  rw [hin]
  congr 1
  exact @decodeAt_eq (alignDecoder fromUtf8Lossy) rnd ctx storedBytes (t.total + 1)
    (fun _ _ _ => rfl) (byteImage storedBytes cs) scope name t ht hacc hpk v cs hlay
    (tagFits_of_defined hdef) hload 0 (by omega) ⟨[], [], by simp, rfl⟩

/-- **Encoding again gives the same bytes exactly if every leaf is stable.** -/
theorem reencodeCopied_iff (hacc : scope.Accepted rnd ctx) (ht : scope.lookup name = some t)
    (hpk : t.isPacked = false) (hlay : layout scope name v = some cs) :
    (∃ bytes w, alignLang.encodeCopied scope name v = some bytes ∧
      (alignedDecoder fromUtf8Lossy scope name).decode bytes = some (some w) ∧
      alignLang.encodeCopied scope name w = some bytes) ↔
      AllLeaves Stable cs ∧ ∀ c ∈ cs, c.TagFits := by
  have hschema := layout_inSchema scope name t ht hacc hpk hlay
  constructor
  · intro h
    obtain ⟨bytes, w, henc, hdec, hagain⟩ := h
    obtain ⟨hdef, rfl⟩ := (encodeCopied_iff hacc ht hpk hlay).mp henc
    rw [decode_stored hacc ht hpk hlay hdef, Option.map_eq_some_iff] at hdec
    obtain ⟨w, hw, heq⟩ := hdec
    cases heq
    obtain ⟨ds, hds, hlayw⟩ := layout_of_mapLeaves hlay hw
    obtain ⟨hdefw, hsame⟩ := (encodeCopied_iff hacc ht hpk hlayw).mp hagain
    have hback := mapChunks_some_iff.mp ⟨ds, hds⟩
    have hmem := leaf_mem_mapChunks cs hds
    -- the second image, in terms of the first value
    have himage : byteImage storedBytes ds
        = byteImage (fun s e v => storedBytes s e ((readBack s e v).getD v)) cs :=
      byteImage_mapChunks hds fun s e v hl y hy => by rw [hy, Option.getD_some]
    rw [himage, byteImage_eq_iff cs] at hsame
    · refine ⟨fun s e v hl => ?_, tagFits_of_defined hdef⟩
      obtain ⟨y, hy⟩ := hback s e v hl
      have heq : storedBytes s e ((readBack s e v).getD v) = storedBytes s e v := hsame s e v hl
      rw [hy, Option.getD_some] at heq
      exact ⟨hdef.leaf s e v hl, y, hy, hdefw.leaf s e y (hmem s e v hl y hy), heq⟩
    · intro s e v hl
      obtain ⟨y, hy⟩ := hback s e v hl
      rw [hy, Option.getD_some]
      exact storedBytes_length (hschema s e v hl) (hdefw.leaf s e y (hmem s e v hl y hy))
    · exact fun s e v hl => storedBytes_length (hschema s e v hl) (hdef.leaf s e v hl)
  · intro h
    obtain ⟨hleaves, htags⟩ := h
    have hdef : alignLang.Defined cs :=
      ⟨fun s e v hl => (hleaves s e v hl).1, fun size i htag => tagByte_iff.mpr (htags _ htag)⟩
    obtain ⟨w, hw⟩ := mapLeaves_isSome (g := readBack) hlay fun s e v hl => by
      obtain ⟨_, y, hy, _⟩ := hleaves s e v hl
      exact ⟨y, hy⟩
    obtain ⟨ds, hds, hlayw⟩ := layout_of_mapLeaves hlay hw
    refine ⟨byteImage storedBytes cs, w, (encodeCopied_iff hacc ht hpk hlay).mpr ⟨hdef, rfl⟩, ?_,
      (encodeCopied_iff hacc ht hpk hlayw).mpr ⟨⟨?_, fun size i htag =>
        hdef.tag size i (tag_mem_mapChunks cs hds size i htag)⟩, ?_⟩⟩
    · rw [decode_stored hacc ht hpk hlay hdef, hw, Option.map_some]
    · refine allLeaves_mapChunks cs hds fun s e v hl y hy => ?_
      obtain ⟨_, y', hy', hleaf, _⟩ := hleaves s e v hl
      cases hy.symm.trans hy'
      exact hleaf
    · refine byteImage_mapChunks hds fun s e v hl y hy => ?_
      obtain ⟨_, y', hy', _, hsame⟩ := hleaves s e v hl
      cases hy.symm.trans hy'
      exact hsame

/-- **`T::decode(&v.encode()).unwrap().encode()` gives the bytes of `v.encode()`** exactly if
every leaf is restored and every tag is a `u8`. -/
theorem reencode_stable_iff {fl : FloatExprs} {schema : SchemaDecl} {data : Data}
    (hproc : processSchema rnd schema = .ok data) (hval : validateSchema rnd data = [])
    (ht : data.types.lookup name = some t) (hpk : t.isPacked = false)
    (hlay : layout data.types name v = some cs) (hholds : AllLeaves (fun _ e v => Holds e v) cs) :
    (∃ bytes w, encodeOf fl data.types name v = some bytes ∧
      decodeOf fl fromUtf8Lossy data.types name bytes = some (some w) ∧
      encodeOf fl data.types name w = some bytes) ↔
      AllLeaves (fun _ e v => Restored e v) cs ∧ ∀ c ∈ cs, c.TagFits := by
  obtain ⟨ctx, hacc⟩ := accepted hproc hval
  have hschema := layout_inSchema data.types name t ht hacc.types hpk hlay
  have hstable : AllLeaves Stable cs ↔ AllLeaves (fun _ e v => Restored e v) cs := by
    have hiff := fun s e v hl => stable_iff (hschema s e v hl) (hholds s e v hl)
    exact ⟨fun h s e v hl => (hiff s e v hl).mp (h s e v hl),
      fun h s e v hl => (hiff s e v hl).mpr (h s e v hl)⟩
  have hno : ¬ t.isPacked = true := by simp [hpk]
  simp only [encodeOf, decodeOf, ht, Option.bind_eq_bind, Option.bind_some, if_neg hno]
  rw [reencodeCopied_iff hacc.types ht hpk hlay, hstable]

end Whole

section Examples

/-- A room of that name, with its fans on `AUTO` and `LOW`. -/
def named (text : List Char) : Value :=
  .struct [.str (utf8 text), .array [.struct [.enum 3, .int 30], .struct [.enum 1, .int 5]],
    .absent]

/-- `né` has three bytes, and four are kept. -/
theorem reencode_stable_room :
    ∃ bytes w, encodeOf noFloats climateData.types "Room" (named ['n', 'é']) = some bytes ∧
      decodeOf noFloats fromUtf8Lossy climateData.types "Room" bytes = some (some w) ∧
      encodeOf noFloats climateData.types "Room" w = some bytes := by
  refine (@reencode_stable_iff id "Room" _ (named ['n', 'é'])
    [.leaf true _ _, .leaf true _ _, .leaf true _ _, .leaf true _ _, .leaf true _ _, .flag false,
      .pad _] noFloats climate climateData climate_ok climate_valid rfl rfl rfl ?_).mpr
    ⟨by decide +kernel, by decide +kernel⟩
  rw [allLeaves_iff]
  simp only [List.forall_mem_cons, Chunk.OnLeaf, List.not_mem_nil, false_implies, implies_true,
    and_true]
  refine ⟨.str ['n', 'é'] rfl, .enum 3 _ rfl rfl rfl rfl (by decide) (by decide), .int 30 ?_,
    .enum 1 _ rfl rfl rfl rfl (by decide) (by decide), .int 5 ?_⟩
  · exact ⟨rfl, rfl, rfl, rfl, by decide, by decide +kernel⟩
  · exact ⟨rfl, rfl, rfl, rfl, by decide, by decide +kernel⟩

/-- `caf` and the first byte of `é` are kept. They are read as `caf` and U+FFFD, of which the
first byte is another. -/
theorem reencode_differs :
    processSchema id climate = .ok climateData ∧ validateSchema id climateData = [] ∧
      ∃ w, encodeOf noFloats climateData.types "Room" (named ['c', 'a', 'f', 'é'])
          = some [99, 97, 102, 195, 3, 44, 1, 1, 50, 0, 0, 0, 0, 0] ∧
        decodeOf noFloats fromUtf8Lossy climateData.types "Room"
          [99, 97, 102, 195, 3, 44, 1, 1, 50, 0, 0, 0, 0, 0] = some (some w) ∧
        encodeOf noFloats climateData.types "Room" w
          = some [99, 97, 102, 239, 3, 44, 1, 1, 50, 0, 0, 0, 0, 0] :=
  ⟨climate_ok, climate_valid, _, by decide +kernel, rfl, by decide +kernel⟩

end Examples

end Rust

end ProtoEmb.Codec

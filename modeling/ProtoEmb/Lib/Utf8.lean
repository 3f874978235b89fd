import ProtoEmb.Lib.ByteBuffer
import Mathlib.Algebra.Ring.Nat
import Mathlib.Data.List.TakeWhile

/-!
# Lossy UTF-8, and text in a fixed number of bytes

`fromUtf8Lossy` turns any bytes into well-formed text: each character is kept, and each
maximal part of an ill-formed sequence becomes one U+FFFD. Which bytes may follow the first
one of a character is a count and the range of the next byte (`Owed`); the rest are
continuation bytes.

A serializer that keeps `n` bytes of a text, pads them with zeros and reads back up to the
first zero may cut a character in two and does not see what stands behind a zero. Whether
storing the text it reads back gives the same bytes is decided by what it kept
(`fieldBytes_stable_iff`).
-/

namespace ProtoEmb.Lib

/-! ## Characters -/

/-- What may follow the first byte of a character: the number of bytes, and the range of the
next one. -/
structure Owed where
  count : Nat
  low : Nat
  high : Nat

/-- The shortest-form rule, the surrogates and the last code point narrow the second byte. -/
def Owed.of (first : UInt8) : Option Owed :=
  let n := first.toNat
  if n ≤ 0x7F then some ⟨0, 0x80, 0xBF⟩
  else if n < 0xC2 then none
  else if n ≤ 0xDF then some ⟨1, 0x80, 0xBF⟩
  else if n ≤ 0xEF then
    some ⟨2, if n = 0xE0 then 0xA0 else 0x80, if n = 0xED then 0x9F else 0xBF⟩
  else if n ≤ 0xF4 then
    some ⟨3, if n = 0xF0 then 0x90 else 0x80, if n = 0xF4 then 0x8F else 0xBF⟩
  else none

/-- How many bytes continue a character that is owed `count` of them. -/
def continued (count low high : Nat) : List UInt8 → Nat
  | [] => 0
  | b :: bs =>
    if 0 < count ∧ low ≤ b.toNat ∧ b.toNat ≤ high then continued (count - 1) 0x80 0xBF bs + 1
    else 0

/-- How many of the bytes behind `first` go with it, and whether they make a character. -/
def front (first : UInt8) (bs : List UInt8) : Nat × Bool :=
  match Owed.of first with
  | none => (0, false)
  | some o =>
    let n := continued o.count o.low o.high bs
    (n, n = o.count)

/-- U+FFFD. -/
def replacement : List UInt8 := [0xEF, 0xBF, 0xBD]

def chunksFrom : Nat → List UInt8 → List (List UInt8 × Bool)
  | fuel + 1, b :: bs =>
    (b :: bs.take (front b bs).1, (front b bs).2) :: chunksFrom fuel (bs.drop (front b bs).1)
  | _, _ => []

/-- The characters of a text, and in between the maximal parts of what is none. -/
def chunks (bs : List UInt8) : List (List UInt8 × Bool) := chunksFrom bs.length bs

/-- `String::from_utf8_lossy`, as the bytes of the string. -/
def fromUtf8Lossy (bs : List UInt8) : List UInt8 :=
  (chunks bs).flatMap fun c => if c.2 then c.1 else replacement

/-- `Utf8Error::valid_up_to`: the length of the longest well-formed beginning. -/
def validUpTo (bs : List UInt8) : Nat :=
  (((chunks bs).takeWhile fun c => c.2).map fun c => c.1.length).sum

/-- The bytes of a text. -/
def utf8 (cs : List Char) : List UInt8 := cs.flatMap String.utf8EncodeChar

@[simp] theorem utf8_nil : utf8 [] = [] := rfl

@[simp] theorem utf8_cons (c : Char) (cs : List Char) :
    utf8 (c :: cs) = String.utf8EncodeChar c ++ utf8 cs := List.flatMap_cons

/-! ## Chunk by chunk -/

theorem chunksFrom_fuel :
    ∀ (fuel fuel' : Nat) (bs : List UInt8), bs.length ≤ fuel → bs.length ≤ fuel' →
      chunksFrom fuel bs = chunksFrom fuel' bs := by
  intro fuel
  induction fuel with
  | zero =>
    intro fuel' bs h _
    obtain rfl : bs = [] := List.length_eq_zero_iff.mp (by omega)
    cases fuel' <;> rfl
  | succ fuel ih =>
    intro fuel' bs h h'
    cases bs with
    | nil => cases fuel' <;> rfl
    | cons b bs =>
      cases fuel' with
      | zero => cases h'
      | succ fuel' =>
        simp only [List.length_cons] at h h'
        have hlen : (bs.drop (front b bs).1).length ≤ bs.length := by
          rw [List.length_drop]
          omega
        rw [chunksFrom, chunksFrom, ih fuel' _ (by omega) (by omega)]

theorem chunks_cons (b : UInt8) (bs : List UInt8) :
    chunks (b :: bs)
      = (b :: bs.take (front b bs).1, (front b bs).2) :: chunks (bs.drop (front b bs).1) := by
  rw [chunks, List.length_cons, chunksFrom, chunks,
    chunksFrom_fuel bs.length _ _ (by rw [List.length_drop]; omega) (Nat.le_refl _)]

/-! ## The bytes of a character -/

/-- Continuation bytes, the first of them in a narrower range. -/
def Continues : Nat → Nat → List UInt8 → Prop
  | _, _, [] => True
  | low, high, b :: bs => (low ≤ b.toNat ∧ b.toNat ≤ high) ∧ Continues 0x80 0xBF bs

theorem continued_append :
    ∀ (t : List UInt8) {low high : Nat}, Continues low high t → ∀ rest,
      continued t.length low high (t ++ rest) = t.length := by
  intro t
  induction t with
  | nil =>
    intro low high _ rest
    cases rest with
    | nil => rfl
    | cons b rest => exact if_neg fun h => absurd h.1 (Nat.lt_irrefl 0)
  | cons b t ih =>
    intro low high h rest
    rw [List.cons_append, continued, List.length_cons, if_pos ⟨Nat.succ_pos _, h.1⟩,
      Nat.add_sub_cancel, ih h.2 rest]

/-- A character that is cut short. -/
theorem continued_take :
    ∀ (t : List UInt8) {low high : Nat}, Continues low high t → ∀ k ≤ t.length,
      continued t.length low high (t.take k) = k := by
  intro t
  induction t with
  | nil =>
    intro low high _ k hk
    obtain rfl : k = 0 := by simpa using hk
    rfl
  | cons b t ih =>
    intro low high h k hk
    cases k with
    | zero => rfl
    | succ k =>
      rw [List.take_succ_cons, continued, List.length_cons, if_pos ⟨Nat.succ_pos _, h.1⟩,
        Nat.add_sub_cancel, ih h.2 k (by simpa using hk)]

theorem toNat_ofNat {n : Nat} (h : n < 256) : (UInt8.ofNat n).toNat = n := by
  rw [UInt8.toNat_ofNat', Nat.mod_eq_of_lt h]

/-- **The first byte of a character announces the others.** -/
theorem utf8EncodeChar_owed (c : Char) :
    ∃ b t low high, String.utf8EncodeChar c = b :: t ∧ Owed.of b = some ⟨t.length, low, high⟩ ∧
      Continues low high t := by
  have hvalid : c.val.toNat < 0xD800 ∨ (0xDFFF < c.val.toNat ∧ c.val.toNat < 0x110000) := c.valid
  have hcont : ∀ n, 0x80 ≤ (UInt8.ofNat (n % 64 + 0x80)).toNat ∧
      (UInt8.ofNat (n % 64 + 0x80)).toNat ≤ 0xBF := fun n => by
    rw [toNat_ofNat (by omega)]
    omega
  unfold String.utf8EncodeChar
  generalize c.val.toNat = v at hvalid
  simp only
  split
  next h1 =>
    refine ⟨_, _, 0x80, 0xBF, rfl, ?_, trivial⟩
    have hb := @toNat_ofNat v (by omega)
    simp only [Owed.of, hb, if_pos h1, List.length_nil]
  next h1 =>
    split
    next h2 =>
      refine ⟨_, _, 0x80, 0xBF, rfl, ?_, hcont v, trivial⟩
      have hb := @toNat_ofNat (v / 64 % 32 + 0xC0) (by omega)
      simp only [Owed.of, hb, List.length_cons, List.length_nil]
      rw [if_neg (by omega), if_neg (by omega), if_pos (by omega)]
    next h2 =>
      split
      next h3 =>
        have hb := @toNat_ofNat (v / 4096 % 16 + 0xE0) (by omega)
        have hs := @toNat_ofNat (v / 64 % 64 + 0x80) (by omega)
        -- there is no shorter form, and it is no surrogate
        refine ⟨_, _, if v / 4096 % 16 + 0xE0 = 0xE0 then 0xA0 else 0x80,
          if v / 4096 % 16 + 0xE0 = 0xED then 0x9F else 0xBF, rfl, ?_, ⟨?_, ?_⟩, hcont v, trivial⟩
        · simp only [Owed.of, hb, List.length_cons, List.length_nil]
          rw [if_neg (by omega), if_neg (by omega), if_neg (by omega), if_pos (by omega)]
        · rw [hs]
          split <;> omega
        · rw [hs]
          split <;> omega
      next h3 =>
        have hb := @toNat_ofNat (v / 262144 % 8 + 0xF0) (by omega)
        have hs := @toNat_ofNat (v / 4096 % 64 + 0x80) (by omega)
        -- there is no shorter form, and it is not beyond the last code point
        refine ⟨_, _, if v / 262144 % 8 + 0xF0 = 0xF0 then 0x90 else 0x80,
          if v / 262144 % 8 + 0xF0 = 0xF4 then 0x8F else 0xBF, rfl, ?_, ⟨?_, ?_⟩, hcont (v / 64),
          hcont v, trivial⟩
        · simp only [Owed.of, hb, List.length_cons, List.length_nil]
          rw [if_neg (by omega), if_neg (by omega), if_neg (by omega), if_neg (by omega),
            if_pos (by omega)]
        · rw [hs]
          split <;> omega
        · rw [hs]
          split <;> omega

theorem chunks_char (c : Char) (rest : List UInt8) :
    chunks (String.utf8EncodeChar c ++ rest)
      = (String.utf8EncodeChar c, true) :: chunks rest := by
  obtain ⟨b, t, low, high, henc, howed, ht⟩ := utf8EncodeChar_owed c
  have hfront : front b (t ++ rest) = (t.length, true) := by
    simp [front, howed, continued_append t ht rest]
  rw [henc, List.cons_append, chunks_cons, hfront, List.take_left' rfl, List.drop_left' rfl]

/-- What is left of a character that is cut is a part of its own. -/
theorem chunks_cut (c : Char) {k : Nat} (h0 : 0 < k) (hk : k < (String.utf8EncodeChar c).length) :
    chunks ((String.utf8EncodeChar c).take k) = [((String.utf8EncodeChar c).take k, false)] := by
  obtain ⟨b, t, low, high, henc, howed, ht⟩ := utf8EncodeChar_owed c
  rw [henc] at hk ⊢
  obtain ⟨k, rfl⟩ : ∃ j, k = j + 1 := ⟨k - 1, by omega⟩
  rw [List.length_cons] at hk
  have hfront : front b (t.take k) = (k, false) := by
    simp only [front, howed, continued_take t ht k (by omega), Prod.mk.injEq, true_and,
      decide_eq_false_iff_not]
    omega
  have hlen : (t.take k).length ≤ k := by
    rw [List.length_take]
    omega
  rw [List.take_succ_cons, chunks_cons, hfront, List.take_of_length_le hlen,
    List.drop_of_length_le hlen]
  rfl

/-- Only U+0000 has a zero byte. -/
theorem utf8EncodeChar_ne_zero {c : Char} (hc : c ≠ '\x00') :
    ∀ b ∈ String.utf8EncodeChar c, b ≠ 0 := by
  have hv : c.val.toNat ≠ 0 := by
    intro h
    apply hc
    apply Char.ext
    exact UInt32.toNat_inj.mp h
  have hbyte : ∀ n, n < 256 → n ≠ 0 → UInt8.ofNat n ≠ 0 := by
    intro n hn h0 h
    apply h0
    rw [← toNat_ofNat hn, h]
    rfl
  have hvalid : c.val.toNat < 0xD800 ∨ (0xDFFF < c.val.toNat ∧ c.val.toNat < 0x110000) := c.valid
  unfold String.utf8EncodeChar
  generalize c.val.toNat = v at hv hvalid
  simp only
  intro b hb
  split at hb
  next h1 =>
    rw [List.mem_singleton.mp hb]
    exact hbyte v (by omega) hv
  next h1 =>
    split at hb
    next =>
      simp only [List.mem_cons, List.not_mem_nil, or_false] at hb
      rcases hb with rfl | rfl <;> exact hbyte _ (by omega) (by omega)
    next =>
      split at hb
      next =>
        simp only [List.mem_cons, List.not_mem_nil, or_false] at hb
        rcases hb with rfl | rfl | rfl <;> exact hbyte _ (by omega) (by omega)
      next =>
        simp only [List.mem_cons, List.not_mem_nil, or_false] at hb
        rcases hb with rfl | rfl | rfl | rfl <;> exact hbyte _ (by omega) (by omega)

/-! ## Well-formed text -/

/-- A text is what it is read as. -/
theorem fromUtf8Lossy_utf8 (cs : List Char) : fromUtf8Lossy (utf8 cs) = utf8 cs := by
  induction cs with
  | nil => rfl
  | cons c cs ih =>
    rw [utf8_cons, fromUtf8Lossy, chunks_char, List.flatMap_cons]
    exact congrArg _ ih

/-- The bytes before the first zero are those of the characters before the first U+0000. -/
theorem takeWhile_utf8 (cs : List Char) :
    (utf8 cs).takeWhile (fun b => b ≠ 0) = utf8 (cs.takeWhile fun c => c ≠ '\x00') := by
  induction cs with
  | nil => rfl
  | cons c cs ih =>
    by_cases hc : c = '\x00'
    · subst hc
      rfl
    · rw [utf8_cons, List.takeWhile_append_of_pos fun b hb => by
        simpa using utf8EncodeChar_ne_zero hc b hb, ih,
        List.takeWhile_cons_of_pos (by simpa using hc),
        utf8_cons]

/-! ## Text in a fixed number of bytes -/

/-- A text in `n` bytes: cut, or padded with zeros. -/
def fieldBytes (n : Nat) (bs : List UInt8) : List UInt8 := padTo n (bs.take n)

/-- The bytes that are kept of a text, up to the first zero. -/
def kept (n : Nat) (bs : List UInt8) : List UInt8 := (bs.take n).takeWhile fun b => b ≠ 0

/-- The text that is read back. -/
def fieldText (bs : List UInt8) : List UInt8 := fromUtf8Lossy (bs.takeWhile fun b => b ≠ 0)

/-- The padding is not read. -/
theorem takeWhile_padTo (n : Nat) (bs : List UInt8) :
    (padTo n bs).takeWhile (fun b => b ≠ 0) = bs.takeWhile fun b => b ≠ 0 := by
  unfold padTo
  generalize n - bs.length = k
  induction bs with
  | nil => cases k <;> rfl
  | cons b bs ih => rw [List.cons_append, List.takeWhile_cons, List.takeWhile_cons, ih]

/-- What is kept is whole characters, or the cut went through the last one. -/
theorem kept_cases :
    ∀ (cs : List Char) (n : Nat),
      (fromUtf8Lossy (kept n (utf8 cs)) = kept n (utf8 cs) ∧
        validUpTo (kept n (utf8 cs)) = (kept n (utf8 cs)).length) ∨
      ∃ p t, kept n (utf8 cs) = p ++ t ∧ kept n (utf8 cs) = (utf8 cs).take n ∧
        (p ++ t).length = n ∧ validUpTo (kept n (utf8 cs)) = p.length ∧ 0 < t.length ∧
        t.length ≤ 3 ∧ fromUtf8Lossy (kept n (utf8 cs)) = p ++ replacement := by
  intro cs
  induction cs with
  | nil =>
    intro n
    left
    simp [kept, fromUtf8Lossy, validUpTo, chunks, chunksFrom]
  | cons c cs ih =>
    intro n
    by_cases hc : c = '\x00'
    · -- nothing behind a zero is kept
      left
      have hnil : kept n (utf8 (c :: cs)) = [] := by
        subst hc
        cases n <;> rfl
      rw [hnil]
      exact ⟨rfl, rfl⟩
    have hnz := utf8EncodeChar_ne_zero hc
    rw [utf8_cons]
    by_cases hle : (String.utf8EncodeChar c).length ≤ n
    · -- the whole character
      have hsplit : kept n (String.utf8EncodeChar c ++ utf8 cs)
          = String.utf8EncodeChar c ++ kept (n - (String.utf8EncodeChar c).length) (utf8 cs) := by
        unfold kept
        rw [List.take_append, List.take_of_length_le hle,
          List.takeWhile_append_of_pos fun b hb => by simpa using hnz b hb]
      have hlossy : ∀ y, fromUtf8Lossy (String.utf8EncodeChar c ++ y)
          = String.utf8EncodeChar c ++ fromUtf8Lossy y := fun y => by
        simp [fromUtf8Lossy, chunks_char]
      have hvalid : ∀ y, validUpTo (String.utf8EncodeChar c ++ y)
          = (String.utf8EncodeChar c).length + validUpTo y := fun y => by
        simp [validUpTo, chunks_char]
      rw [hsplit, hlossy, hvalid]
      rcases ih (n - (String.utf8EncodeChar c).length) with
        ⟨h1, h2⟩ | ⟨p, t, h1, h2, h3, h4, h5, h6, h7⟩
      · left
        rw [h1, h2, List.length_append]
        exact ⟨rfl, rfl⟩
      · right
        refine ⟨String.utf8EncodeChar c ++ p, t, by rw [h1, List.append_assoc], ?_, ?_, ?_, h5, h6,
          by rw [h7, List.append_assoc]⟩
        · rw [h2, List.take_append, List.take_of_length_le hle]
        · rw [List.append_assoc, List.length_append, h3]
          omega
        · rw [h4, List.length_append]
    · -- the cut goes through it
      have hlt : n < (String.utf8EncodeChar c).length := by omega
      have htake : (String.utf8EncodeChar c ++ utf8 cs).take n
          = (String.utf8EncodeChar c).take n := List.take_append_of_le_length (by omega)
      have hkept : kept n (String.utf8EncodeChar c ++ utf8 cs)
          = (String.utf8EncodeChar c).take n := by
        unfold kept
        rw [htake, List.takeWhile_eq_self_iff]
        exact fun b hb => by simpa using hnz b (List.mem_of_mem_take hb)
      rw [hkept]
      cases n with
      | zero =>
        left
        exact ⟨rfl, rfl⟩
      | succ n =>
        right
        have hfour := c.utf8Size_le_four
        rw [← String.length_utf8EncodeChar] at hfour
        have hchunks := chunks_cut c (Nat.succ_pos n) hlt
        have hlen : ((String.utf8EncodeChar c).take (n + 1)).length = n + 1 := by
          rw [List.length_take]
          omega
        refine ⟨[], _, rfl, htake.symm, hlen, ?_, by omega, by omega, ?_⟩
        · simp [validUpTo, hchunks]
        · simp [fromUtf8Lossy, hchunks]

/-- What is cut off does not show in a second encoding: behind a zero there are only zeros, and
what is left of a character is the beginning of U+FFFD. -/
def SurvivesCut (n : Nat) (bs : List UInt8) : Prop :=
  (∀ b ∈ (bs.take n).drop (kept n bs).length, b = 0) ∧
    (kept n bs).drop (validUpTo (kept n bs)) <+: replacement

instance (n : Nat) (bs : List UInt8) : Decidable (SurvivesCut n bs) :=
  inferInstanceAs (Decidable (_ ∧ _))

/-- The padding replaces zeros only. -/
theorem padTo_eq_iff {n : Nat} {x y : List UInt8} (hpre : y <+: x) (hlen : x.length ≤ n) :
    padTo n y = padTo n x ↔ ∀ b ∈ x.drop y.length, b = 0 := by
  obtain ⟨r, rfl⟩ := hpre
  rw [List.length_append] at hlen
  have hpad : padTo n y = y ++ (zeros r.length ++ zeros (n - (y ++ r).length)) := by
    rw [padTo, ← zeros_add, List.length_append,
      show n - y.length = r.length + (n - (y.length + r.length)) by omega]
  rw [hpad, padTo, List.append_assoc, List.append_cancel_left_eq, List.append_cancel_right_eq,
    List.drop_left' rfl]
  constructor
  · intro h b hb
    rw [← h] at hb
    exact List.eq_of_mem_replicate hb
  · intro h
    exact (List.eq_replicate_of_mem h).symm

/-- **Storing the text that is read back gives the same bytes** exactly if the cut does not
show. -/
theorem fieldBytes_stable_iff (cs : List Char) (n : Nat) :
    fieldBytes n (fieldText (fieldBytes n (utf8 cs))) = fieldBytes n (utf8 cs) ↔
      SurvivesCut n (utf8 cs) := by
  have hread : fieldText (fieldBytes n (utf8 cs)) = fromUtf8Lossy (kept n (utf8 cs)) := by
    rw [fieldText, fieldBytes, takeWhile_padTo]
    rfl
  have hpre : kept n (utf8 cs) <+: (utf8 cs).take n := List.takeWhile_prefix _
  have hlen : ((utf8 cs).take n).length ≤ n := by
    rw [List.length_take]
    omega
  rw [hread, SurvivesCut, fieldBytes, fieldBytes]
  rcases kept_cases cs n with ⟨hlossy, hvalid⟩ | ⟨p, t, hsplit, hall, hn, hvalid, h0, h3, hlossy⟩
  · -- whole characters: what counts stands behind the first zero
    have hle := hpre.length_le
    rw [hlossy, hvalid, List.drop_length, List.take_of_length_le (by omega)]
    rw [padTo_eq_iff hpre hlen]
    exact ⟨fun h => ⟨h, List.nil_prefix⟩, fun h => h.1⟩
  · -- a character that is cut: there is nothing behind it
    rw [← hall, hvalid, hlossy, hsplit, List.drop_length, List.drop_left' rfl]
    rw [List.length_append] at hn
    have hcut : (p ++ replacement).take n = p ++ replacement.take t.length := by
      rw [List.take_append, List.take_of_length_le (by omega), ← hn, Nat.add_sub_cancel_left]
    have hrep : (p ++ replacement.take t.length).length = n := by
      rw [List.length_append, List.length_take, show replacement.length = 3 from rfl]
      omega
    have hpt : (p ++ t).length = n := by rw [List.length_append, hn]
    rw [hcut, padTo_of_length hrep, padTo_of_length hpt, List.append_cancel_left_eq,
      List.prefix_iff_eq_take]
    exact ⟨fun h => ⟨fun b hb => absurd hb List.not_mem_nil, h.symm⟩, fun h => h.2.symm⟩

end ProtoEmb.Lib

import Mathlib.Data.Nat.Bitwise
import Mathlib.Data.List.Basic
import Mathlib.Tactic.Common

/-!
# Bit strings in a byte buffer, least significant bit first

A bit-packing serializer ORs one bit after another into a zeroed byte buffer, and
its reader picks them out again. Bit `p` of a buffer is bit `p % 8` of byte `p / 8`.

* `orBits buf base bits` writes a bit string at an arbitrary bit offset. Writing one
  string after another is writing their concatenation (`orBits_append`), so a
  serializer is described by the bit string it writes.
* `Holds buf base bits` says that the string can be read at that offset. It splits
  along concatenation (`holds_append`), and a zeroed buffer holds what was written
  into it (`holds_orBits`).
* `natBits k n` and `ofBits` convert between a number and its bit string.
-/

namespace ProtoEmb.Lib

/-! ## Numbers as bit strings -/

/-- The `k` low bits of `n`, least significant first. -/
def natBits : Nat → Nat → List Bool
  | 0, _ => []
  | k + 1, n => n.testBit 0 :: natBits k (n / 2)

/-- The number a bit string stands for. -/
def ofBits : List Bool → Nat
  | [] => 0
  | b :: bs => b.toNat + 2 * ofBits bs

@[simp] theorem natBits_length (k n : Nat) : (natBits k n).length = k := by
  induction k generalizing n with
  | zero => rfl
  | succ k ih => rw [natBits, List.length_cons, ih]

theorem natBits_eq_map (k n : Nat) : natBits k n = (List.range k).map n.testBit := by
  induction k generalizing n with
  | zero => rfl
  | succ k ih =>
    rw [natBits, ih, List.range_succ_eq_map, List.map_cons, List.map_map]
    congr 1
    apply List.map_congr_left
    intro i _
    exact (Nat.testBit_add_one n i).symm

/-- Reading back `k` bits loses exactly what does not fit them. -/
theorem ofBits_natBits (k n : Nat) : ofBits (natBits k n) = n % 2 ^ k := by
  induction k generalizing n with
  | zero => simp [natBits, ofBits, Nat.mod_one]
  | succ k ih =>
    rw [natBits, ofBits, ih, Nat.pow_succ, Nat.mul_comm (2 ^ k) 2, Nat.mod_mul]
    have hbit : (n.testBit 0).toNat = n % 2 := by
      rw [Nat.testBit_zero]
      rcases Nat.mod_two_eq_zero_or_one n with h | h <;> simp [h]
    rw [hbit]

/-- A string of `k` bits is a number below `2 ^ k`. -/
theorem ofBits_lt (bs : List Bool) : ofBits bs < 2 ^ bs.length := by
  induction bs with
  | nil => simp [ofBits]
  | cons b bs ih =>
    have hb : b.toNat ≤ 1 := by cases b <;> decide
    rw [ofBits, List.length_cons, Nat.pow_succ]
    omega

theorem natBits_zero (k : Nat) : natBits k 0 = List.replicate k false := by
  induction k with
  | zero => rfl
  | succ k ih => rw [natBits, Nat.zero_div, ih, List.replicate_succ, Nat.zero_testBit]

/-! ## Writing -/

/-- OR a one into bit `p`; a position outside the buffer writes nothing. -/
def setBit (buf : List UInt8) (p : Nat) : List UInt8 :=
  buf.set (p / 8) (buf.getD (p / 8) 0 ||| UInt8.ofNat (2 ^ (p % 8)))

/-- OR the bit string into the buffer at bit offset `base`. -/
def orBits (buf : List UInt8) (base : Nat) : List Bool → List UInt8
  | [] => buf
  | b :: bs => orBits (if b then setBit buf base else buf) (base + 1) bs

@[simp] theorem setBit_length (buf : List UInt8) (p : Nat) : (setBit buf p).length = buf.length :=
  List.length_set

@[simp] theorem orBits_length (buf : List UInt8) (base : Nat) (bs : List Bool) :
    (orBits buf base bs).length = buf.length := by
  induction bs generalizing buf base with
  | nil => rfl
  | cons b bs ih =>
    rw [orBits, ih]
    split
    · exact setBit_length buf base
    · rfl

/-- Writing one string after another writes their concatenation. -/
theorem orBits_append (buf : List UInt8) (base : Nat) (xs ys : List Bool) :
    orBits buf base (xs ++ ys) = orBits (orBits buf base xs) (base + xs.length) ys := by
  induction xs generalizing buf base with
  | nil => rfl
  | cons b xs ih =>
    rw [List.cons_append, orBits, ih, orBits, List.length_cons,
      show base + 1 + xs.length = base + (xs.length + 1) by omega]

/-- Zeros leave the buffer as it is. -/
theorem orBits_zeros (buf : List UInt8) (base k : Nat) :
    orBits buf base (List.replicate k false) = buf := by
  induction k generalizing base with
  | zero => rfl
  | succ k ih =>
    rw [List.replicate_succ, orBits, if_neg Bool.false_ne_true, ih]

/-! ## Reading -/

/-- Bit `p` of the buffer, `false` outside it. -/
def bitAt (buf : List UInt8) (p : Nat) : Bool := (buf.getD (p / 8) 0).toNat.testBit (p % 8)

/-- Setting a bit changes that bit. -/
theorem bitAt_setBit {buf : List UInt8} {p : Nat} (hp : p < 8 * buf.length) (q : Nat) :
    bitAt (setBit buf p) q = (bitAt buf q || p == q) := by
  have hlt : p / 8 < buf.length := by omega
  unfold bitAt setBit
  by_cases hbyte : q / 8 = p / 8
  · have hpow : (UInt8.ofNat (2 ^ (p % 8))).toNat = 2 ^ (p % 8) := by
      rw [UInt8.toNat_ofNat']
      exact Nat.mod_eq_of_lt (Nat.pow_lt_pow_right (by decide) (Nat.mod_lt p (by decide)))
    have hget : (buf.set (p / 8) (buf.getD (p / 8) 0 ||| UInt8.ofNat (2 ^ (p % 8)))).getD (q / 8) 0
        = buf.getD (p / 8) 0 ||| UInt8.ofNat (2 ^ (p % 8)) := by
      rw [hbyte, List.getD_eq_getElem?_getD, List.getElem?_set_self hlt, Option.getD_some]
    rw [hget, UInt8.toNat_or, hpow, Nat.testBit_or, Nat.testBit_two_pow, hbyte]
    congr 1
    have hiff : p % 8 = q % 8 ↔ p = q := by omega
    by_cases hpq : p = q
    · rw [beq_iff_eq.mpr hpq, decide_eq_true (hiff.mpr hpq)]
    · rw [beq_eq_false_iff_ne.mpr hpq, decide_eq_false (fun h => hpq (hiff.mp h))]
  · have hne : p / 8 ≠ q / 8 := fun h => hbyte h.symm
    have hpq : p ≠ q := fun h => hbyte (by rw [h])
    rw [List.getD_eq_getElem?_getD, List.getElem?_set_ne hne, ← List.getD_eq_getElem?_getD,
      beq_eq_false_iff_ne.mpr hpq, Bool.or_false]

/-- The bit string stands in the buffer at bit offset `base`. -/
def Holds (buf : List UInt8) (base : Nat) (bs : List Bool) : Prop :=
  ∀ i, (h : i < bs.length) → bitAt buf (base + i) = bs[i]

theorem holds_nil (buf : List UInt8) (base : Nat) : Holds buf base [] :=
  fun _ h => absurd h (Nat.not_lt_zero _)

/-- A string is held bit by bit. -/
theorem holds_cons {buf : List UInt8} {base : Nat} {b : Bool} {bs : List Bool} :
    Holds buf base (b :: bs) ↔ bitAt buf base = b ∧ Holds buf (base + 1) bs := by
  constructor
  · intro h
    refine ⟨h 0 (Nat.zero_lt_succ _), fun i hi => ?_⟩
    have := h (i + 1) (Nat.succ_lt_succ hi)
    rw [show base + 1 + i = base + (i + 1) by omega]
    exact this
  · intro h i hi
    cases i with
    | zero => exact h.1
    | succ i =>
      have := h.2 i (Nat.lt_of_succ_lt_succ hi)
      rw [show base + (i + 1) = base + 1 + i by omega]
      exact this

/-- Two strings in a row are held one behind the other. -/
theorem holds_append {buf : List UInt8} {base : Nat} {xs ys : List Bool} :
    Holds buf base (xs ++ ys) ↔ Holds buf base xs ∧ Holds buf (base + xs.length) ys := by
  induction xs generalizing base with
  | nil => exact ⟨fun h => ⟨holds_nil _ _, h⟩, fun h => h.2⟩
  | cons b xs ih =>
    rw [List.cons_append, holds_cons, ih, holds_cons, List.length_cons,
      show base + 1 + xs.length = base + (xs.length + 1) by omega]
    exact and_assoc.symm

/-- What a write does to every bit of the buffer. -/
theorem bitAt_orBits {buf : List UInt8} {base : Nat} {bs : List Bool}
    (h : base + bs.length ≤ 8 * buf.length) (q : Nat) :
    bitAt (orBits buf base bs) q
      = (bitAt buf q || (decide (base ≤ q) && bs.getD (q - base) false)) := by
  induction bs generalizing buf base with
  | nil => simp [orBits]
  | cons b bs ih =>
    rw [List.length_cons] at h
    have hin : base < 8 * buf.length := by omega
    have hnext : base + 1 + bs.length ≤ 8 * (if b then setBit buf base else buf).length := by
      split
      · rw [setBit_length]
        omega
      · omega
    rw [orBits, ih hnext]
    have hhead :
        bitAt (if b then setBit buf base else buf) q = (bitAt buf q || (b && base == q)) := by
      cases b with
      | false => simp
      | true => rw [if_pos rfl, bitAt_setBit hin, Bool.true_and]
    rw [hhead, Bool.or_assoc]
    congr 1
    rcases Nat.lt_trichotomy q base with hlt | heq | hgt
    · have hne : (base == q) = false := beq_eq_false_iff_ne.mpr (by omega)
      rw [hne, decide_eq_false (by omega), decide_eq_false (by omega)]
      simp
    · subst heq
      simp
    · have hne : (base == q) = false := beq_eq_false_iff_ne.mpr (by omega)
      rw [hne, decide_eq_true (by omega), decide_eq_true (by omega),
        show q - base = q - (base + 1) + 1 by omega]
      simp

theorem bitAt_zeros (n p : Nat) : bitAt (List.replicate n 0) p = false := by
  have hget : (List.replicate n (0 : UInt8)).getD (p / 8) 0 = 0 := by
    rw [List.getD_eq_getElem?_getD, List.getElem?_replicate]
    split <;> rfl
  rw [bitAt, hget]
  simp

/-- A range that was clear holds what is written into it. -/
theorem holds_orBits_clear {buf : List UInt8} {base : Nat} {bs : List Bool}
    (h : base + bs.length ≤ 8 * buf.length)
    (hclear : ∀ i < bs.length, bitAt buf (base + i) = false) :
    Holds (orBits buf base bs) base bs := by
  intro i hi
  rw [bitAt_orBits h, hclear i hi, Bool.false_or, decide_eq_true (by omega),
    Bool.true_and, show base + i - base = i by omega, List.getD_eq_getElem?_getD,
    List.getElem?_eq_getElem hi, Option.getD_some]

/-- A zeroed buffer holds what is written into it. -/
theorem holds_orBits {n base : Nat} {bs : List Bool} (h : base + bs.length ≤ 8 * n) :
    Holds (orBits (List.replicate n 0) base bs) base bs :=
  holds_orBits_clear (by simpa using h) fun _ _ => bitAt_zeros ..

/-- The `k` bits from bit offset `base`. -/
def bitsAt (buf : List UInt8) (base k : Nat) : List Bool :=
  (List.range k).map fun i => bitAt buf (base + i)

@[simp] theorem bitsAt_length (buf : List UInt8) (base k : Nat) :
    (bitsAt buf base k).length = k := by
  rw [bitsAt, List.length_map, List.length_range]

theorem bitsAt_succ (buf : List UInt8) (base k : Nat) :
    bitsAt buf base (k + 1) = bitAt buf base :: bitsAt buf (base + 1) k := by
  rw [bitsAt, List.range_succ_eq_map, List.map_cons, List.map_map]
  congr 1
  apply List.map_congr_left
  intro i _
  show bitAt buf (base + (i + 1)) = bitAt buf (base + 1 + i)
  rw [show base + (i + 1) = base + 1 + i by omega]

/-- Reading where a string stands gives the string. -/
theorem bitsAt_of_holds {buf : List UInt8} {base : Nat} {bs : List Bool}
    (h : Holds buf base bs) : bitsAt buf base bs.length = bs := by
  induction bs generalizing base with
  | nil => rfl
  | cons b bs ih =>
    obtain ⟨hb, hbs⟩ := holds_cons.mp h
    rw [List.length_cons, bitsAt_succ, hb, ih hbs]

/-! ## Bit loops -/

/-- One bit more of a number, at the top. -/
theorem natBits_succ (k n : Nat) : natBits (k + 1) n = natBits k n ++ [n.testBit k] := by
  rw [natBits_eq_map, natBits_eq_map, List.range_succ, List.map_append, List.map_singleton]

/-- A reader that ors one bit after the other builds the number. -/
theorem ofBits_append_bit (bs : List Bool) (b : Bool) :
    ofBits (bs ++ [b]) = if b then ofBits bs ||| 2 ^ bs.length else ofBits bs := by
  have hsum : ∀ bs : List Bool, ofBits (bs ++ [b]) = ofBits bs + b.toNat * 2 ^ bs.length := by
    intro bs
    induction bs with
    | nil => simp [ofBits]
    | cons c bs ih =>
      rw [List.cons_append, ofBits, ih, ofBits, List.length_cons, Nat.pow_succ, Nat.mul_add,
        ← Nat.add_assoc]
      congr 1
      rw [← Nat.mul_assoc, Nat.mul_comm 2, Nat.mul_assoc, Nat.mul_comm 2]
  rw [hsum]
  cases b with
  | false => simp
  | true =>
    rw [if_pos rfl, Bool.toNat_true, Nat.one_mul, Nat.lor_comm, Nat.add_comm]
    have hor := Nat.two_pow_add_eq_or_of_lt (ofBits_lt bs) 1
    rw [Nat.mul_one] at hor
    exact hor

/-- A loop that sets the bits of a number one after the other writes its bit string. -/
theorem packLoop_eq {f : List UInt8 → Nat → Option (List UInt8)} {off x : Nat} {buf : List UInt8} :
    ∀ (k : Nat), (∀ (buf' : List UInt8) (i : Nat), i < k → buf'.length = buf.length →
        f buf' i = some (if x.testBit i then setBit buf' (off + i) else buf')) →
      (List.range k).foldlM f buf = some (orBits buf off (natBits k x)) := by
  intro k
  induction k with
  | zero => intro _; rfl
  | succ k ih =>
    intro hf
    have hbit := hf (orBits buf off (natBits k x)) k (Nat.lt_succ_self k) (orBits_length ..)
    rw [List.range_succ, List.foldlM_append, ih fun buf' i hi => hf buf' i (by omega),
      natBits_succ, orBits_append, natBits_length]
    simp only [Option.bind_eq_bind, Option.bind_some, List.foldlM_cons, List.foldlM_nil, hbit,
      orBits]
    rfl

/-- A loop that collects bits one after the other reads a bit string. -/
theorem unpackLoop_eq {f : Nat → Nat → Option Nat} {off : Nat} {buf : List UInt8} :
    ∀ (k : Nat), (∀ (v i : Nat), i < k →
        f v i = some (if bitAt buf (off + i) then v ||| 2 ^ i else v)) →
      (List.range k).foldlM f 0 = some (ofBits (bitsAt buf off k)) := by
  intro k
  induction k with
  | zero => intro _; rfl
  | succ k ih =>
    intro hf
    have hsucc : bitsAt buf off (k + 1) = bitsAt buf off k ++ [bitAt buf (off + k)] := by
      rw [bitsAt, List.range_succ, List.map_append, List.map_singleton, bitsAt]
    rw [List.range_succ, List.foldlM_append, ih fun v i hi => hf v i (by omega), hsucc,
      ofBits_append_bit, bitsAt_length]
    simp only [Option.bind_eq_bind, Option.bind_some, List.foldlM_cons, List.foldlM_nil,
      hf _ k (Nat.lt_succ_self k)]
    rfl

/-- A loop that collects bits as long as it may: when it comes to an end, and with what. -/
theorem unpackLoop_eq_some_iff {f : Nat → Nat → Option Nat} {ok : Nat → Prop} {g : Nat → Bool}
    (hf : ∀ v i w, f v i = some w ↔ ok i ∧ (if g i then v ||| 2 ^ i else v) = w) :
    ∀ k u, (List.range k).foldlM f 0 = some u ↔
      (∀ i < k, ok i) ∧ ofBits ((List.range k).map g) = u := by
  intro k
  induction k with
  | zero =>
    intro u
    simp [ofBits]
  | succ k ih =>
    intro u
    have hlen : ((List.range k).map g).length = k := by
      rw [List.length_map, List.length_range]
    rw [List.range_succ, List.foldlM_append, List.map_append, List.map_singleton,
      ofBits_append_bit, hlen]
    simp only [Option.bind_eq_bind, Option.bind_eq_some_iff, ih, List.foldlM_cons,
      List.foldlM_nil, Option.pure_def, hf, Option.some.injEq]
    constructor
    · intro h
      obtain ⟨v, ⟨hok, rfl⟩, w, ⟨hk, rfl⟩, rfl⟩ := h
      refine ⟨fun i hi => ?_, rfl⟩
      rcases Nat.lt_succ_iff_lt_or_eq.mp hi with hi | rfl
      · exact hok i hi
      · exact hk
    · intro h
      obtain ⟨hok, rfl⟩ := h
      exact ⟨_, ⟨fun i hi => hok i (by omega), rfl⟩, _, ⟨hok k (Nat.lt_succ_self k), rfl⟩, rfl⟩

/-! ## A buffer with given bits -/

/-- A buffer of `n` bytes with these bits. -/
def fromBits (n : Nat) (r : Nat → Bool) : List UInt8 :=
  orBits (List.replicate n 0) 0 ((List.range (8 * n)).map r)

@[simp] theorem fromBits_length (n : Nat) (r : Nat → Bool) : (fromBits n r).length = n := by
  rw [fromBits, orBits_length, List.length_replicate]

/-- A buffer made of bits has these bits. -/
theorem bitAt_fromBits {n p : Nat} (r : Nat → Bool) (hp : p < 8 * n) :
    bitAt (fromBits n r) p = r p := by
  have hlen :
      0 + ((List.range (8 * n)).map r).length ≤ 8 * (List.replicate n (0 : UInt8)).length := by
    simp
  rw [fromBits, bitAt_orBits hlen, bitAt_zeros]
  simp [hp]

end ProtoEmb.Lib

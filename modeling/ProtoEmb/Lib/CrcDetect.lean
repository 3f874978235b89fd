import Mathlib.Algebra.Ring.Nat
import Mathlib.Data.List.Basic
import ProtoEmb.Lib.Crc

/-!
# What a reflected CRC-8 detects

The register of `Lib.Crc` as a machine over single bits (`clock`, `remainder`),
and the algebra behind error detection:

- one clock is linear in exclusive or, and so is a run (`remainder_xor`): the
  CRC of altered bytes is the CRC of the bytes altered by the CRC of the error;
- a polynomial with its top bit set makes the clock injective (`clock_small`), so
  bytes followed by their CRC, and only those, leave the register at zero
  (`crcBytes_snoc_eq_zero`), and an error confined to eight bits cannot
  (`burst_remainder_ne_zero`);
- a polynomial of odd weight keeps count of the set bits modulo two
  (`parity_remainder`), so an error of odd weight cannot either.
-/

namespace ProtoEmb.Lib

/-- The bit a right shift drops. -/
def lowBit (x : UInt8) : Bool := x &&& 0x01 != 0

/-- The low `n` bits, least significant first. -/
def bitsOf : Nat → UInt8 → List Bool
  | 0, _ => []
  | n + 1, x => lowBit x :: bitsOf n (x >>> 1)

/-- The bits of a byte string, least significant first in each byte. -/
def bitString (data : List UInt8) : List Bool := data.flatMap (bitsOf 8)

/-- Clock one bit into the register. -/
def clock (poly r : UInt8) (b : Bool) : UInt8 :=
  if (lowBit r ^^ b) = true then r >>> 1 ^^^ poly else r >>> 1

/-- The register after a string of bits. -/
def remainder (poly r : UInt8) (bits : List Bool) : UInt8 := bits.foldl (clock poly) r

/-! ## Bits of a byte -/

theorem lowBit_eq (x : UInt8) : lowBit x = decide (x.toNat % 2 = 1) := by
  have hand : (x &&& 0x01).toNat = x.toNat % 2 := by
    rw [UInt8.toNat_and]
    exact Nat.and_one_is_mod _
  rw [lowBit, bne, Bool.eq_iff_iff]
  simp only [Bool.not_eq_true', beq_eq_false_iff_ne, ne_eq, ← UInt8.toNat_inj, hand,
    decide_eq_true_iff]
  show ¬ x.toNat % 2 = 0 ↔ _
  omega

theorem toNat_shiftRight_one (x : UInt8) : (x >>> 1).toNat = x.toNat / 2 := by
  rw [UInt8.toNat_shiftRight]
  exact Nat.shiftRight_eq_div_pow _ 1

/-- The low bit is linear. -/
theorem lowBit_xor (x y : UInt8) : lowBit (x ^^^ y) = (lowBit x ^^ lowBit y) := by
  have hbit : ∀ z : UInt8, lowBit z = z.toNat.testBit 0 := by
    intro z
    rw [lowBit_eq, Nat.testBit_zero]
  rw [hbit, hbit, hbit, UInt8.toNat_xor, Nat.testBit_xor]

/-- So are the bits of a byte. -/
theorem bitsOf_xor (n : Nat) (x y : UInt8) :
    bitsOf n (x ^^^ y) = List.zipWith (· ^^ ·) (bitsOf n x) (bitsOf n y) := by
  induction n generalizing x y with
  | zero => rfl
  | succ n ih => simp only [bitsOf, List.zipWith_cons_cons, lowBit_xor, UInt8.shiftRight_xor, ih]

theorem bitsOf_length (n : Nat) (x : UInt8) : (bitsOf n x).length = n := by
  induction n generalizing x with
  | zero => rfl
  | succ n ih => simp only [bitsOf, List.length_cons, ih]

/-- Bits beyond the value are clear. -/
theorem bitsOf_succ_of_lt {n : Nat} {x : UInt8} (h : x.toNat < 2 ^ n) :
    bitsOf (n + 1) x = bitsOf n x ++ [false] := by
  induction n generalizing x with
  | zero =>
    have h0 : x.toNat = 0 := by simpa using h
    simp [bitsOf, lowBit_eq, h0]
  | succ n ih =>
    have hhalf : (x >>> 1).toNat < 2 ^ n := by
      rw [toNat_shiftRight_one]
      rw [Nat.pow_succ] at h
      omega
    rw [bitsOf, ih hhalf]
    rfl

theorem bitsOf_zero (n : Nat) : bitsOf n 0 = List.replicate n false := by
  induction n with
  | zero => rfl
  | succ n ih =>
    have hshift : (0 : UInt8) >>> 1 = 0 := by decide
    rw [bitsOf, hshift, ih, List.replicate_succ]
    rfl

/-- So are those of a string of bytes. -/
theorem bitString_xor {a b : List UInt8} (h : a.length = b.length) :
    bitString (List.zipWith (· ^^^ ·) a b) = List.zipWith (· ^^ ·) (bitString a) (bitString b) := by
  induction a generalizing b with
  | nil => rfl
  | cons x a ih =>
    rcases b with _ | ⟨y, b⟩
    · exact absurd h (by simp)
    · have hrest := ih (Nat.succ.inj h)
      simp only [bitString] at hrest
      simp only [bitString, List.zipWith_cons_cons, List.flatMap_cons, bitsOf_xor, hrest]
      rw [List.zipWith_append (by rw [bitsOf_length, bitsOf_length])]

theorem bitString_length (a : List UInt8) : (bitString a).length = 8 * a.length := by
  induction a with
  | nil => rfl
  | cons x a ih =>
    rw [bitString, List.flatMap_cons, List.length_append, bitsOf_length, ← bitString, ih,
      List.length_cons]
    omega

/-! ## The register bit by bit -/

/-- The register of `Lib.Crc` on a byte is the machine over its bits. -/
theorem crcBits_eq (poly : UInt8) (n : Nat) (r x : UInt8) :
    crcBits poly n r x = remainder poly r (bitsOf n x) := by
  induction n generalizing r x with
  | zero => rfl
  | succ n ih =>
    have hmix : ((r ^^^ x) &&& 0x01 != 0) = (lowBit r ^^ lowBit x) := lowBit_xor r x
    rw [crcBits, bitsOf, remainder, List.foldl_cons, ← remainder, clock]
    simp only [hmix]
    exact ih _ _

/-- On a string of bytes it is the machine over all of their bits. -/
theorem crcBytes_foldl (poly : UInt8) (data : List UInt8) (r : UInt8) :
    data.foldl (crcByte poly) r = remainder poly r (bitString data) := by
  induction data generalizing r with
  | nil => rfl
  | cons x data ih =>
    rw [List.foldl_cons, ih, crcByte, crcBits_eq]
    simp only [remainder, bitString, List.flatMap_cons, List.foldl_append]

/-- The CRC of a string is what the machine leaves of it. -/
theorem crcBytes_eq (poly : UInt8) (data : List UInt8) :
    crcBytes poly data = remainder poly 0 (bitString data) :=
  crcBytes_foldl poly data 0

/-- One clock is linear. -/
theorem clock_xor (poly r s : UInt8) (a b : Bool) :
    clock poly (r ^^^ s) (a ^^ b) = clock poly r a ^^^ clock poly s b := by
  have hmix : (lowBit (r ^^^ s) ^^ (a ^^ b)) = ((lowBit r ^^ a) ^^ (lowBit s ^^ b)) := by
    rw [lowBit_xor]
    cases lowBit r <;> cases lowBit s <;> cases a <;> cases b <;> rfl
  have hcancel : ∀ x y : UInt8, x ^^^ y = (x ^^^ poly) ^^^ (y ^^^ poly) := by
    intro x y
    rw [UInt8.xor_assoc x poly, ← UInt8.xor_assoc poly y, UInt8.xor_comm poly y,
      UInt8.xor_assoc y poly, UInt8.xor_self, UInt8.xor_zero]
  rw [clock, clock, clock, hmix, UInt8.shiftRight_xor]
  cases lowBit r ^^ a <;> cases lowBit s ^^ b
  · rfl
  · simp [UInt8.xor_assoc]
  · simp [UInt8.xor_assoc, UInt8.xor_comm poly]
  · simpa using hcancel _ _

/-- **Linearity of a run.** -/
theorem remainder_xor (poly : UInt8) {as bs : List Bool} (h : as.length = bs.length)
    (r s : UInt8) :
    remainder poly (r ^^^ s) (List.zipWith (· ^^ ·) as bs)
      = remainder poly r as ^^^ remainder poly s bs := by
  induction as generalizing bs r s with
  | nil =>
    rcases bs with _ | ⟨b, bs⟩
    · rfl
    · exact absurd h (by simp)
  | cons a as ih =>
    rcases bs with _ | ⟨b, bs⟩
    · exact absurd h (by simp)
    · simp only [remainder, List.zipWith_cons_cons, List.foldl_cons, clock_xor]
      exact ih (Nat.succ.inj h) _ _

/-- The CRC of altered bytes. -/
theorem crcBytes_xor (poly : UInt8) {a e : List UInt8} (h : a.length = e.length) :
    crcBytes poly (List.zipWith (· ^^^ ·) a e) = crcBytes poly a ^^^ crcBytes poly e := by
  rw [crcBytes_eq, crcBytes_eq, crcBytes_eq, bitString_xor h,
    ← remainder_xor poly (by rw [bitString_length, bitString_length, h])]
  rfl

section Top

variable {poly : UInt8} (htop : 128 ≤ poly.toNat)

include htop

/-- A clock that leaves the top bit clear did not fold the polynomial in. -/
theorem clock_small {r : UInt8} {b : Bool} (h : (clock poly r b).toNat < 128) :
    b = lowBit r ∧ clock poly r b = r >>> 1 := by
  have hhalf : (r >>> 1).toNat < 128 := by
    have := r.toNat_lt
    rw [toNat_shiftRight_one]
    omega
  by_cases hmix : (lowBit r ^^ b) = true
  · exfalso
    have hpoly : poly.toNat.testBit 7 = true := by
      have := poly.toNat_lt
      rw [Nat.testBit_eq_decide_div_mod_eq, decide_eq_true_iff]
      omega
    have hset : (r >>> 1 ^^^ poly).toNat.testBit 7 = true := by
      rw [UInt8.toNat_xor, Nat.testBit_xor, hpoly, Nat.testBit_lt_two_pow (by simpa using hhalf)]
      rfl
    rw [clock, if_pos hmix] at h
    have := Nat.ge_two_pow_of_testBit hset
    omega
  · refine ⟨?_, by rw [clock, if_neg hmix]⟩
    cases hl : lowBit r <;> cases b <;> simp_all

/-- A register that ends at zero after a few bits held exactly those bits. -/
theorem bits_of_remainder_zero {bits : List Bool} (hlen : bits.length ≤ 8) {r : UInt8}
    (h : remainder poly r bits = 0) : bits = bitsOf bits.length r ∧ r.toNat < 2 ^ bits.length := by
  induction bits generalizing r with
  | nil =>
    have hr : r = 0 := h
    rw [hr]
    exact ⟨rfl, by decide⟩
  | cons b bits ih =>
    rw [List.length_cons] at hlen
    obtain ⟨hbits, hlt⟩ := ih (Nat.le_of_succ_le hlen) h
    have hsmall : (clock poly r b).toNat < 128 :=
      Nat.lt_of_lt_of_le hlt (Nat.pow_le_pow_right (by decide) (Nat.le_of_succ_le_succ hlen))
    obtain ⟨hb, hclock⟩ := clock_small htop hsmall
    rw [hclock] at hbits hlt
    rw [toNat_shiftRight_one] at hlt
    refine ⟨?_, ?_⟩
    · rw [List.length_cons, bitsOf, ← hbits, hb]
    · rw [List.length_cons, Nat.pow_succ]
      omega

/-- Clear bits never clear the register. -/
theorem remainder_clear {r : UInt8} (n : Nat)
    (h : remainder poly r (List.replicate n false) = 0) : r = 0 := by
  induction n generalizing r with
  | zero => exact h
  | succ n ih =>
    have hclock : clock poly r false = 0 := ih h
    obtain ⟨hlow, hshift⟩ := clock_small htop (b := false) (r := r) (by rw [hclock]; decide)
    rw [hclock] at hshift
    have hhalf : r.toNat / 2 = 0 := by
      rw [← toNat_shiftRight_one, ← hshift]
      rfl
    have heven : ¬ r.toNat % 2 = 1 := by
      intro hodd
      rw [lowBit_eq, hodd] at hlow
      exact absurd hlow (by decide)
    apply UInt8.toNat_inj.mp
    show r.toNat = 0
    omega

/-- Bytes followed by a check byte leave the register at zero exactly when that
byte is their CRC. -/
theorem crcBytes_snoc_eq_zero (data : List UInt8) (c : UInt8) :
    crcBytes poly (data ++ [c]) = 0 ↔ c = crcBytes poly data := by
  have hself : ∀ x : UInt8, remainder poly x (bitsOf 8 x) = 0 := by
    intro x
    have hrun : ∀ (n : Nat) (y : UInt8),
        (remainder poly y (bitsOf n y)).toNat = y.toNat / 2 ^ n := by
      intro n
      induction n with
      | zero => intro y; exact (Nat.div_one _).symm
      | succ n ih =>
        intro y
        have hclock : clock poly y (lowBit y) = y >>> 1 := by
          rw [clock, Bool.xor_self, if_neg (by decide)]
        rw [bitsOf, remainder, List.foldl_cons, hclock, ← remainder, ih, toNat_shiftRight_one,
          Nat.div_div_eq_div_mul, Nat.pow_succ, Nat.mul_comm 2]
    apply UInt8.toNat_inj.mp
    rw [hrun]
    exact Nat.div_eq_of_lt x.toNat_lt
  have hsplit : remainder poly (crcBytes poly data) (bitsOf 8 c)
      = remainder poly (crcBytes poly data ^^^ c) (List.replicate 8 false) := by
    have hlen : (List.replicate 8 false).length = (bitsOf 8 c).length := by
      rw [List.length_replicate, bitsOf_length]
    have hlin := remainder_xor poly hlen (crcBytes poly data ^^^ c) c
    have hbits : List.zipWith (· ^^ ·) (List.replicate 8 false) (bitsOf 8 c) = bitsOf 8 c := by
      rw [← bitsOf_zero, ← bitsOf_xor, UInt8.zero_xor]
    rw [hbits, hself c, UInt8.xor_assoc, UInt8.xor_self, UInt8.xor_zero, UInt8.xor_zero] at hlin
    exact hlin
  have hsnoc : crcBytes poly (data ++ [c]) = remainder poly (crcBytes poly data) (bitsOf 8 c) := by
    rw [crcBytes, List.foldl_append, ← crcBytes, List.foldl_cons, List.foldl_nil, crcByte,
      crcBits_eq]
  rw [hsnoc, hsplit]
  constructor
  · intro h
    exact (UInt8.xor_eq_zero_iff.mp (remainder_clear htop 8 h)).symm
  · intro h
    rw [h, UInt8.xor_self, ← bitsOf_zero]
    exact hself 0

/-- The set bits all lie within `n` consecutive positions. -/
def Burst (n : Nat) (bits : List Bool) : Prop :=
  ∃ (i j : Nat) (w : List Bool), w.length ≤ n ∧
    bits = List.replicate i false ++ w ++ List.replicate j false

omit htop in
/-- Zero bits leave a register of zero alone. -/
theorem remainder_zero_clear (n : Nat) : remainder poly 0 (List.replicate n false) = 0 := by
  induction n with
  | zero => rfl
  | succ n ih => exact ih

/-- **Bursts.** A non-zero error within eight bits does not divide out. -/
theorem burst_remainder_ne_zero {bits : List Bool} (hburst : Burst 8 bits) (hne : true ∈ bits) :
    remainder poly 0 bits ≠ 0 := by
  obtain ⟨i, j, w, hw, rfl⟩ := hburst
  intro h
  simp only [remainder, List.foldl_append] at h
  rw [← remainder, ← remainder, ← remainder, remainder_zero_clear] at h
  have hzero := (bits_of_remainder_zero htop hw (remainder_clear htop j h)).1
  rw [bitsOf_zero] at hzero
  have hfalse : ∀ b ∈ List.replicate i false ++ w ++ List.replicate j false, b = false := by
    intro b hb
    rw [hzero, List.replicate_append_replicate, List.replicate_append_replicate] at hb
    exact List.eq_of_mem_replicate hb
  exact absurd (hfalse true hne) (by decide)

end Top

/-! ## Parity -/

/-- Whether an odd number of bits is set. -/
def parity (bits : List Bool) : Bool := bits.foldr (· ^^ ·) false

/-- The parity of two strings in a row. -/
theorem parity_append (a b : List Bool) : parity (a ++ b) = (parity a ^^ parity b) := by
  induction a with
  | nil => simp [parity]
  | cons x a ih =>
    have hstep : ∀ (y : Bool) (l : List Bool), parity (y :: l) = (y ^^ parity l) := fun _ _ => rfl
    rw [List.cons_append, hstep, hstep, ih, Bool.xor_assoc]

/-- The parity is linear. -/
theorem parity_xor {a b : List Bool} (h : a.length = b.length) :
    parity (List.zipWith (· ^^ ·) a b) = (parity a ^^ parity b) := by
  induction a generalizing b with
  | nil =>
    rcases b with _ | ⟨y, b⟩
    · rfl
    · exact absurd h (by simp)
  | cons x a ih =>
    rcases b with _ | ⟨y, b⟩
    · exact absurd h (by simp)
    · have hrest := ih (Nat.succ.inj h)
      simp only [parity] at hrest
      simp only [parity, List.zipWith_cons_cons, List.foldr_cons, hrest]
      cases x <;> cases y <;> simp

theorem parity_eq (bits : List Bool) : parity bits = decide (bits.count true % 2 = 1) := by
  induction bits with
  | nil => rfl
  | cons b bits ih =>
    have hstep : parity (b :: bits) = (b ^^ parity bits) := rfl
    rw [hstep, ih]
    cases b with
    | false => simp
    | true =>
      rw [List.count_cons_self, Bool.true_xor, ← decide_not, decide_eq_decide]
      omega

/-- A polynomial of odd weight makes the register keep the parity of its input. -/
theorem parity_clock {poly : UInt8} (hodd : parity (bitsOf 8 poly) = true) (r : UInt8) (b : Bool) :
    parity (bitsOf 8 (clock poly r b)) = (parity (bitsOf 8 r) ^^ b) := by
  have hshift : parity (bitsOf 8 (r >>> 1)) = (parity (bitsOf 8 r) ^^ lowBit r) := by
    have hhalf : (r >>> 1).toNat < 2 ^ 7 := by
      have := r.toNat_lt
      rw [toNat_shiftRight_one]
      omega
    have hcons : parity (bitsOf 8 r) = (lowBit r ^^ parity (bitsOf 7 (r >>> 1))) := rfl
    rw [bitsOf_succ_of_lt hhalf, parity_append, hcons]
    cases lowBit r <;> cases parity (bitsOf 7 (r >>> 1)) <;> rfl
  by_cases hmix : (lowBit r ^^ b) = true
  · rw [clock, if_pos hmix, bitsOf_xor, parity_xor (by rw [bitsOf_length, bitsOf_length]), hodd,
      hshift, ← hmix]
    cases lowBit r <;> cases b <;> cases parity (bitsOf 8 r) <;> rfl
  · have hb : b = lowBit r := by
      cases hl : lowBit r <;> cases b <;> simp_all
    rw [clock, if_neg hmix, hshift, hb]

/-- Each set bit folded in turns the parity of the register, if the polynomial has odd weight. -/
theorem parity_remainder {poly : UInt8} (hodd : parity (bitsOf 8 poly) = true) (bits : List Bool)
    (r : UInt8) :
    parity (bitsOf 8 (remainder poly r bits)) = (parity (bitsOf 8 r) ^^ parity bits) := by
  induction bits generalizing r with
  | nil => simp [remainder, parity]
  | cons b bits ih =>
    have hcons : parity (b :: bits) = (b ^^ parity bits) := rfl
    rw [remainder, List.foldl_cons, ← remainder, ih, parity_clock hodd, hcons, Bool.xor_assoc]

/-- **Odd errors.** An error of odd weight does not divide out. -/
theorem odd_remainder_ne_zero {poly : UInt8} (hodd : parity (bitsOf 8 poly) = true)
    {bits : List Bool} (h : bits.count true % 2 = 1) : remainder poly 0 bits ≠ 0 := by
  intro hz
  have hpar := parity_remainder hodd bits 0
  rw [hz, parity_eq bits, h, bitsOf_zero] at hpar
  exact absurd hpar (by decide)

end ProtoEmb.Lib

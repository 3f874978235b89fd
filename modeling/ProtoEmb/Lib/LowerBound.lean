import Mathlib.Algebra.Ring.Nat
import Mathlib.Data.List.Sort
import Mathlib.Tactic.Common

/-!
# Binary search for the lower bound

The loop that halves `[lo, hi)` until it is empty, over a sorted table. It stops at the
first key that is not smaller than the one searched for (`lowerBound_spec`), and every
key it looks at is inside the table: a read outside would end the search with `none`.
-/

namespace ProtoEmb.Lib

/-- The search over `[lo, hi)`. The interval halves with every round, so `fuel` rounds are
enough for fewer than `2 ^ fuel` keys. -/
def lowerBound (keys : List Nat) (x : Nat) : Nat → Nat → Nat → Option Nat
  | 0, lo, hi => if lo < hi then none else some lo
  | fuel + 1, lo, hi =>
    if lo < hi then
      let mid := lo + (hi - lo) / 2
      match keys[mid]? with
      | some key =>
        if key < x then lowerBound keys x fuel (mid + 1) hi else lowerBound keys x fuel lo mid
      | none => none
    else some lo

/-- `r` separates the smaller keys from the others. -/
structure IsLowerBound (keys : List Nat) (x r : Nat) : Prop where
  le_length : r ≤ keys.length
  below : ∀ i, (h : i < keys.length) → i < r → keys[i] < x
  above : ∀ i, (h : i < keys.length) → r ≤ i → x ≤ keys[i]

/-- **The search finds the lower bound.** The invariant: the keys before `lo` are smaller
than `x`, those from `hi` on are not. -/
theorem lowerBound_spec {keys : List Nat} {x : Nat} (hsorted : keys.Pairwise (· ≤ ·)) :
    ∀ {fuel lo hi : Nat}, hi - lo < 2 ^ fuel → lo ≤ hi → hi ≤ keys.length →
      (∀ i, (h : i < keys.length) → i < lo → keys[i] < x) →
      (∀ i, (h : i < keys.length) → hi ≤ i → x ≤ keys[i]) →
      ∃ r, lowerBound keys x fuel lo hi = some r ∧ IsLowerBound keys x r := by
  have hmono : ∀ {i j : Nat} (hi : i < keys.length) (hj : j < keys.length), i ≤ j →
      keys[i] ≤ keys[j] := by
    intro i j hi hj hij
    rcases Nat.lt_or_eq_of_le hij with hlt | rfl
    · exact List.pairwise_iff_getElem.mp hsorted i j hi hj hlt
    · exact le_refl _
  intro fuel
  induction fuel with
  | zero =>
    intro lo hi hfuel hle hlen hbelow habove
    have heq : lo = hi := by omega
    subst heq
    refine ⟨lo, ?_, hlen, hbelow, habove⟩
    rw [lowerBound, if_neg (Nat.lt_irrefl lo)]
  | succ fuel ih =>
    intro lo hi hfuel hle hlen hbelow habove
    rw [Nat.pow_succ] at hfuel
    by_cases hlt : lo < hi
    · have hmid : lo + (hi - lo) / 2 < keys.length := by omega
      simp only [lowerBound, if_pos hlt, List.getElem?_eq_getElem hmid]
      by_cases hkey : keys[lo + (hi - lo) / 2] < x
      · rw [if_pos hkey]
        refine ih (by omega) (by omega) hlen (fun i h hi' => ?_) habove
        exact Nat.lt_of_le_of_lt (hmono h hmid (by omega)) hkey
      · rw [if_neg hkey]
        refine ih (by omega) (by omega) (by omega) hbelow fun i h hi' => ?_
        exact le_trans (Nat.le_of_not_lt hkey) (hmono hmid h hi')
    · have heq : lo = hi := by omega
      subst heq
      refine ⟨lo, ?_, hlen, hbelow, habove⟩
      rw [lowerBound, if_neg hlt]

/-- If the key occurs, the lower bound is a place where it does. -/
theorem IsLowerBound.get_eq {keys : List Nat} {x r j : Nat} (hr : IsLowerBound keys x r)
    (hsorted : keys.Pairwise (· ≤ ·)) (hj : j < keys.length) (hx : keys[j] = x) :
    ∃ h : r < keys.length, keys[r] = x := by
  have hrj : r ≤ j := by
    by_contra hlt
    have := hr.below j hj (by omega)
    omega
  have hlen : r < keys.length := by omega
  refine ⟨hlen, ?_⟩
  have hge := hr.above r hlen (le_refl r)
  rcases Nat.lt_or_eq_of_le hrj with hlt | rfl
  · have := List.pairwise_iff_getElem.mp hsorted r j hlen hj hlt
    omega
  · exact hx

end ProtoEmb.Lib

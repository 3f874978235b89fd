import Mathlib.Data.List.Basic
import Mathlib.Tactic.Common

/-!
# The end of a log in a ring

A ring of `cap` slots keeps the last `cap` entries of a log that only grows: entry `i`
of the log stands in slot `i % cap` until entry `i + cap` overwrites it. `RingHolds` is
that relation; a store into the next slot appends to the log (`RingHolds.push`), and
reading consecutive slots gives back a suffix of it (`RingHolds.read`).
-/

namespace ProtoEmb.Lib

variable {α : Type}

/-- The last `cap` entries of the log stand in the slots. -/
structure RingHolds (cap : Nat) (slots log : List α) : Prop where
  cap_pos : 0 < cap
  length_eq : slots.length = cap
  get : ∀ i, log.length ≤ i + cap → i < log.length → slots[i % cap]? = log[i]?

/-- Two entries share a slot only if they are a whole turn apart. -/
theorem mod_ne_of_lt {cap i j : Nat} (hlt : i < j) (hnear : j < i + cap) : i % cap ≠ j % cap := by
  intro heq
  have hdvd : cap ∣ j - i := Nat.dvd_of_mod_eq_zero (Nat.sub_mod_eq_zero_of_mod_eq heq.symm)
  have hle := Nat.le_of_dvd (by omega) hdvd
  omega

/-- **A store into the next slot appends to the log.** -/
theorem RingHolds.push {cap : Nat} {slots log : List α} (h : RingHolds cap slots log) (x : α) :
    RingHolds cap (slots.set (log.length % cap) x) (log ++ [x]) where
  cap_pos := h.cap_pos
  length_eq := by rw [List.length_set, h.length_eq]
  get i hlo hhi := by
    rw [List.length_append, List.length_singleton] at hlo hhi
    by_cases hlast : i = log.length
    · subst hlast
      have hslot : log.length % cap < slots.length := by
        rw [h.length_eq]
        exact Nat.mod_lt _ h.cap_pos
      rw [List.getElem?_set_self hslot, List.getElem?_append_right (Nat.le_refl _), Nat.sub_self]
      rfl
    · -- the slot of an older entry is not the one that is overwritten
      have hold := h.get i (by omega) (by omega)
      rw [List.getElem?_set_ne (mod_ne_of_lt (by omega) (by omega)).symm, hold,
        List.getElem?_append_left (by omega)]

/-- Reading `n` entries one by one up to the end of the log. -/
theorem mapM_range_eq_drop (log : List α) :
    ∀ (n start : Nat) (f : Nat → Option α), start + n = log.length →
      (∀ i < n, f i = log[start + i]?) → (List.range n).mapM f = some (log.drop start) := by
  intro n
  induction n with
  | zero =>
    intro start f h _
    rw [List.drop_of_length_le (by omega)]
    rfl
  | succ n ih =>
    intro start f h hf
    have hlt : start < log.length := by omega
    have hrest := ih (start + 1) (fun i => f (i + 1)) (by omega) fun i hi => by
      rw [hf (i + 1) (by omega), show start + (i + 1) = start + 1 + i by omega]
    have hfirst : f 0 = some log[start] := by
      rw [hf 0 (by omega), Nat.add_zero, List.getElem?_eq_getElem hlt]
    rw [List.range_succ_eq_map, List.mapM_cons, hfirst, List.mapM_map]
    show (do
      let ys ← List.mapM (fun i => f (i + 1)) (List.range n)
      pure (log[start] :: ys)) = _
    rw [hrest, List.drop_eq_getElem_cons hlt]
    rfl

/-- **Consecutive slots are a suffix of the log.** -/
theorem RingHolds.read {cap : Nat} {slots log : List α} (h : RingHolds cap slots log)
    {start n : Nat} {idx : Nat → Option Nat} (hend : start + n = log.length) (hn : n ≤ cap)
    (hidx : ∀ i < n, idx i = some ((start + i) % cap)) :
    (List.range n).mapM (fun i => (idx i).bind fun j => slots[j]?) = some (log.drop start) :=
  mapM_range_eq_drop log n start _ hend fun i hi => by
    rw [hidx i hi, Option.bind_some, h.get (start + i) (by omega) (by omega)]

end ProtoEmb.Lib

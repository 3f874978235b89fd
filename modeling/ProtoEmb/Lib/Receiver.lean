import Mathlib.Tactic.Common

/-!
# Receivers

A receiver reads a stream and gives items for it, by a step function `σ → ι → σ × List α`. An
input carries one element of the stream or, as a clock tick does, none.

Two rules are about any stream whatever. If each step keeps part of what is pending or
completes an item with it, the items are carved out of the stream (`carved_of_step`): disjoint
stretches, in order. If each element brings a receiver that is not idle closer to it, enough
elements make it pass through idle (`reaches_idle`).
-/

namespace ProtoEmb.Lib

variable {σ ι α β : Type}

/-- The stream splits into gaps and images, one image for each item, in their order. -/
inductive Carved (Image : α → List β → Prop) : List α → List β → Prop where
  | done (gap : List β) : Carved Image [] gap
  | item {a : α} {items : List α} {image rest : List β} (gap : List β) (himg : Image a image)
      (htail : Carved Image items rest) : Carved Image (a :: items) (gap ++ image ++ rest)

namespace Carved

variable {Image : α → List β → Prop} {items : List α} {stream : List β}

/-- What is in front only widens the first gap. -/
theorem prepend (gap : List β) (h : Carved Image items stream) :
    Carved Image items (gap ++ stream) := by
  cases h with
  | done gap' => exact .done _
  | item gap' himg htail =>
    rw [← List.append_assoc, ← List.append_assoc]
    exact .item (gap ++ gap') himg htail

end Carved

namespace Receiver

/-- A run, with the items of all its steps. -/
def run (step : σ → ι → σ × List α) (s : σ) : List ι → σ × List α
  | [] => (s, [])
  | i :: inputs =>
    let r := step s i
    let t := run step r.1 inputs
    (t.1, r.2 ++ t.2)

variable {step : σ → ι → σ × List α} {elem : ι → Option β}

theorem run_append (s : σ) (xs ys : List ι) :
    run step s (xs ++ ys) = ((run step (run step s xs).1 ys).1,
      (run step s xs).2 ++ (run step (run step s xs).1 ys).2) := by
  induction xs generalizing s with
  | nil => rfl
  | cons i xs ih =>
    rw [List.cons_append, run, ih, run]
    simp only [List.append_assoc]

/-- What one step may do with the elements that are pending: go on with some of the last of
them, or give the item that they are the image of. -/
def StepCarves (Image : α → List β → Prop) (Pending : σ → List β → Prop) (seg : List β)
    (r : σ × List α) : Prop :=
  (r.2 = [] ∧ ∃ seg', seg' <:+ seg ∧ Pending r.1 seg') ∨
    ∃ a, r.2 = [a] ∧ Image a seg ∧ Pending r.1 []

/-- **The items are carved out of the stream.** The induction is on the inputs; what is
pending stands in front of what is to come. -/
theorem carved_of_step {Image : α → List β → Prop} {Pending : σ → List β → Prop}
    (hstep : ∀ s seg i, Pending s seg →
      StepCarves Image Pending (seg ++ (elem i).toList) (step s i)) :
    ∀ (inputs : List ι) {s : σ} {seg : List β}, Pending s seg →
      Carved Image (run step s inputs).2 (seg ++ inputs.filterMap elem) := by
  intro inputs
  induction inputs with
  | nil => intro s seg _; exact .done _
  | cons i inputs ih =>
    intro s seg h
    have hbytes : seg ++ (i :: inputs).filterMap elem
        = seg ++ (elem i).toList ++ inputs.filterMap elem := by
      rw [List.filterMap_cons, List.append_assoc]
      cases elem i <;> rfl
    rw [hbytes, run]
    rcases hstep s seg i h with ⟨hnone, seg', ⟨gap, hgap⟩, h'⟩ | ⟨a, hone, himg, h'⟩
    · simp only [hnone, List.nil_append]
      rw [← hgap, List.append_assoc]
      exact (ih h').prepend gap
    · simp only [hone]
      exact .item [] himg (ih h')

/-- **Enough elements pass through idle.** Idle is where `left` is zero, and otherwise every
element makes it smaller. -/
theorem reaches_idle {I : σ → Prop} {left : σ → Nat} (hinv : ∀ s i, I s → I (step s i).1)
    (hstep : ∀ s i, I s → left s ≠ 0 → left (step s i).1 + (elem i).toList.length ≤ left s) :
    ∀ (inputs : List ι) {s : σ}, I s → left s ≤ (inputs.filterMap elem).length →
      ∃ pre post, inputs = pre ++ post ∧ left (run step s pre).1 = 0 := by
  intro inputs
  induction inputs with
  | nil =>
    intro s _ hle
    exact ⟨[], [], rfl, Nat.eq_zero_of_le_zero hle⟩
  | cons i inputs ih =>
    intro s h hle
    by_cases hidle : left s = 0
    · exact ⟨[], i :: inputs, rfl, hidle⟩
    · have hless := hstep s i h hidle
      have hlen : ((i :: inputs).filterMap elem).length
          = (elem i).toList.length + (inputs.filterMap elem).length := by
        rw [List.filterMap_cons]
        cases elem i with
        | none => simp
        | some b => simp [Nat.add_comm]
      obtain ⟨pre, post, rfl, hpre⟩ := ih (hinv s i h) (by omega)
      exact ⟨i :: pre, post, rfl, hpre⟩

/-- What every step keeps, every run keeps. -/
theorem run_keeps {I : σ → Prop} (hinv : ∀ s i, I s → I (step s i).1) :
    ∀ (inputs : List ι) {s : σ}, I s → I (run step s inputs).1 := by
  intro inputs
  induction inputs with
  | nil => intro s h; exact h
  | cons i inputs ih => intro s h; exact ih (hinv s i h)

end Receiver

end ProtoEmb.Lib

import Mathlib.Data.Set.Basic
import Mathlib.Data.List.Basic

/-!
# Definitions over one another

A table of named definitions, the last one first, in which a definition refers only to names
that are defined after it in the list (`Tied`). The meaning of a name is what its definition
means over the meanings of the names it refers to, and a table gives it by recursion
(`meaning`), as long as what a definition means is `Local`: it asks for no other names.

In a tied table the recursion is the equation one has in mind (`Tied.meaning_eq`), and to show
something of every defined name it is enough to show it from the names referred to
(`Tied.induction`). So the order of the table does not matter, nor what else it defines: two
tables that agree on names closed under reference give these the same meanings
(`Agree.meaning_eq`).
-/

namespace ProtoEmb.Lib.Definitions

variable {κ δ β : Type} [DecidableEq κ]

/-- The meaning of a name, over the definitions after it. -/
def meaning (undefined : β) (body : (κ → β) → δ → β) : List (κ × δ) → κ → β
  | [], _ => undefined
  | (n, d) :: rest, name =>
    if name = n then body (meaning undefined body rest) d else meaning undefined body rest name

/-- Every name has one definition, and that refers to names after it. -/
def Tied (refs : δ → List κ) : List (κ × δ) → Prop
  | [] => True
  | (n, d) :: rest =>
    rest.lookup n = none ∧ (∀ m ∈ refs d, (rest.lookup m).isSome = true) ∧ Tied refs rest

/-- What a definition means depends on the meanings of the names it refers to alone. -/
def Local (refs : δ → List κ) (body : (κ → β) → δ → β) : Prop :=
  ∀ d env env', (∀ m ∈ refs d, env' m = env m) → body env' d = body env d

/-- The tables agree on the names in `S`, and these refer to names in `S` only. -/
structure Agree (refs : δ → List κ) (S : Set κ) (ds es : List (κ × δ)) : Prop where
  same : ∀ n ∈ S, es.lookup n = ds.lookup n
  closed : ∀ n ∈ S, ∀ d, ds.lookup n = some d → ∀ m ∈ refs d, m ∈ S

variable {refs : δ → List κ} {undefined : β} {body : (κ → β) → δ → β} {ds es : List (κ × δ)}
  {S : Set κ}

theorem lookup_tail {n m : κ} (d : δ) (rest : List (κ × δ)) (h : m ≠ n) :
    ((n, d) :: rest).lookup m = rest.lookup m := by
  rw [List.lookup_cons, beq_eq_false_iff_ne.mpr h]

/-- A defined name is not the one that is being defined. -/
theorem ne_of_isSome {n m : κ} {rest : List (κ × δ)} (hfresh : rest.lookup n = none)
    (hm : (rest.lookup m).isSome = true) : m ≠ n := by
  rintro rfl
  rw [hfresh] at hm
  cases hm

/-- **Induction over the references.** -/
theorem Tied.induction {P : κ → Prop} (h : Tied refs ds)
    (step : ∀ n d, ds.lookup n = some d → (∀ m ∈ refs d, (ds.lookup m).isSome = true ∧ P m) →
      P n) : ∀ n, (ds.lookup n).isSome = true → P n := by
  induction ds with
  | nil => intro n hn; cases hn
  | cons entry rest ih =>
    obtain ⟨n₀, d₀⟩ := entry
    obtain ⟨hfresh, hrefs, hrest⟩ := h
    have hkeep : ∀ m, (rest.lookup m).isSome = true →
        ((n₀, d₀) :: rest).lookup m = rest.lookup m := fun m hm =>
      lookup_tail d₀ rest (ne_of_isSome hfresh hm)
    -- the step for the names of the rest, which keep their definitions
    have hall : ∀ n, (rest.lookup n).isSome = true → P n := by
      refine ih hrest fun n d hd hm => ?_
      have hn := hkeep n (by rw [hd]; rfl)
      refine step n d (hn.trans hd) fun m hmem => ?_
      obtain ⟨hsome, hP⟩ := hm m hmem
      exact ⟨by rw [hkeep m hsome]; exact hsome, hP⟩
    intro n hn
    by_cases heq : n = n₀
    · subst heq
      refine step n d₀ (List.lookup_cons_self) fun m hm => ?_
      exact ⟨by rw [hkeep m (hrefs m hm)]; exact hrefs m hm, hall m (hrefs m hm)⟩
    · rw [lookup_tail d₀ rest heq] at hn
      exact hall n hn

/-- **The meaning of a name is that of its definition**, over the meanings in the same table. -/
theorem Tied.meaning_eq (h : Tied refs ds) (hbody : Local refs body) {n : κ} {d : δ}
    (hd : ds.lookup n = some d) :
    meaning undefined body ds n = body (meaning undefined body ds) d := by
  induction ds with
  | nil => cases hd
  | cons entry rest ih =>
    obtain ⟨n₀, d₀⟩ := entry
    obtain ⟨hfresh, hrefs, hrest⟩ := h
    have hkeep : ∀ m, (rest.lookup m).isSome = true →
        meaning undefined body ((n₀, d₀) :: rest) m = meaning undefined body rest m :=
          fun m hm => by
      rw [meaning, if_neg (ne_of_isSome hfresh hm)]
    by_cases heq : n = n₀
    · subst heq
      rw [List.lookup_cons_self] at hd
      cases hd
      rw [meaning, if_pos rfl]
      exact hbody _ _ _ fun m hm => (hkeep m (hrefs m hm)).symm
    · rw [lookup_tail d₀ rest heq] at hd
      rw [hkeep n (by rw [hd]; rfl), ih hrest hd]
      refine hbody _ _ _ fun m hm => (hkeep m ?_).symm
      -- what the definition of a name in the rest refers to is in the rest
      refine Tied.induction (P := fun n => ∀ d, rest.lookup n = some d →
        ∀ m ∈ refs d, (rest.lookup m).isSome = true) hrest (fun n d hd hrefs d' hd' m hm => ?_)
        n (by rw [hd]; rfl) d hd m hm
      cases hd.symm.trans hd'
      exact (hrefs m hm).1

theorem meaning_undefined {n : κ} (h : ds.lookup n = none) :
    meaning undefined body ds n = undefined := by
  induction ds with
  | nil => rfl
  | cons entry rest ih =>
    obtain ⟨n₀, d₀⟩ := entry
    have hne : n ≠ n₀ := by
      rintro rfl
      rw [List.lookup_cons_self] at h
      cases h
    rw [lookup_tail d₀ rest hne] at h
    rw [meaning, if_neg hne, ih h]

/-- **Names closed under reference mean the same in every table that defines them so**, whatever
else it defines, and in whatever order. -/
theorem Agree.meaning_eq (h : Agree refs S ds es) (hds : Tied refs ds) (hes : Tied refs es)
    (hbody : Local refs body) :
    ∀ n ∈ S, meaning undefined body es n = meaning undefined body ds n := by
  intro n hn
  cases hd : ds.lookup n with
  | none => rw [meaning_undefined hd, meaning_undefined ((h.same n hn).trans hd)]
  | some d =>
    refine hds.induction (P := fun n => n ∈ S →
      meaning undefined body es n = meaning undefined body ds n) (fun n d hd ih hn => ?_) n
      (by rw [hd]; rfl) hn
    rw [hds.meaning_eq hbody hd, hes.meaning_eq hbody ((h.same n hn).trans hd)]
    exact hbody _ _ _ fun m hm => (ih m hm).2 (h.closed n hn d hd m hm)

end ProtoEmb.Lib.Definitions

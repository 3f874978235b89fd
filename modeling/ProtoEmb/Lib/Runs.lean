import Mathlib.Tactic.Common

/-!
# Machines that may refuse a move

A machine is a step function `σ → μ → Option σ`. A run is a sequence of moves each of which is
possible. Two rules carry what is known of one move to whole runs: `run_invariant`, and
`run_simulation`, where each move is matched by moves of a second machine.

A third one, `Rounds.settle`, is about rounds of any kind: if each either makes a measure smaller
or brings it down to zero and is over with that, a state is settled after more rounds than the
measure counts.
-/

namespace ProtoEmb.Lib.Machine

variable {σ τ μ ν : Type}

/-- The state after some moves, if each of them is possible. -/
def run (step : σ → μ → Option σ) (s : σ) : List μ → Option σ
  | [] => some s
  | m :: moves => (step s m).bind fun s => run step s moves

variable {step : σ → μ → Option σ} {s s' : σ} {m : μ} {moves : List μ}

@[simp] theorem run_nil : run step s [] = some s := rfl

theorem run_cons : run step s (m :: moves) = (step s m).bind fun s => run step s moves := rfl

theorem run_append (xs ys : List μ) :
    run step s (xs ++ ys) = (run step s xs).bind fun s => run step s ys := by
  induction xs generalizing s with
  | nil => rfl
  | cons m xs ih =>
    rw [List.cons_append, run_cons, run_cons, Option.bind_assoc]
    congr 1
    funext s
    exact ih

/-- What certain moves keep, every run of such moves keeps. -/
theorem run_invariant_of {I : σ → Prop} {Q : μ → Prop}
    (hstep : ∀ {s m s'}, Q m → I s → step s m = some s' → I s') :
    ∀ {moves : List μ} {s s' : σ}, (∀ m ∈ moves, Q m) → I s →
      run step s moves = some s' → I s' := by
  intro moves
  induction moves with
  | nil =>
    intro s s' _ h hrun
    cases hrun
    exact h
  | cons m moves ih =>
    intro s s' hq h hrun
    rw [run_cons, Option.bind_eq_some_iff] at hrun
    obtain ⟨s₁, hm, hrest⟩ := hrun
    obtain ⟨hqm, hqs⟩ := List.forall_mem_cons.mp hq
    exact ih hqs (hstep hqm h hm) hrest

/-- What every move keeps, every run keeps. -/
theorem run_invariant {I : σ → Prop} (hstep : ∀ {s m s'}, I s → step s m = some s' → I s')
    (h : I s) (hrun : run step s moves = some s') : I s' :=
  run_invariant_of (Q := fun _ => True) (fun _ => hstep) (fun _ _ => trivial) h hrun

/-- Every move is matched by moves of the other machine: so is every run. -/
theorem run_simulation {step' : τ → ν → Option τ} {R : σ → τ → Prop}
    (hstep : ∀ {s m s' t}, R s t → step s m = some s' →
      ∃ moves t', run step' t moves = some t' ∧ R s' t') :
    ∀ {moves : List μ} {s s' : σ} {t : τ}, R s t → run step s moves = some s' →
      ∃ moves' t', run step' t moves' = some t' ∧ R s' t' := by
  intro moves
  induction moves with
  | nil =>
    intro s s' t h hrun
    cases hrun
    exact ⟨[], t, rfl, h⟩
  | cons m moves ih =>
    intro s s' t h hrun
    rw [run_cons, Option.bind_eq_some_iff] at hrun
    obtain ⟨s₁, hm, hrest⟩ := hrun
    obtain ⟨first, t₁, hfirst, h₁⟩ := hstep h hm
    obtain ⟨rest, t', hrest', h'⟩ := ih h₁ hrest
    exact ⟨first ++ rest, t', by rw [run_append, hfirst]; exact hrest', h'⟩

end ProtoEmb.Lib.Machine

namespace ProtoEmb.Lib

variable {σ : Type} {R : σ → σ → Prop} {s s' : σ} {n : Nat}

/-- So many rounds, one after the other. -/
inductive Rounds (R : σ → σ → Prop) : Nat → σ → σ → Prop where
  | refl (s : σ) : Rounds R 0 s s
  | round {s s₁ s' : σ} {n : Nat} (head : R s s₁) (tail : Rounds R n s₁ s') : Rounds R (n + 1) s s'

/-- If a round is always possible, any number of them is. -/
theorem Rounds.exists {I : σ → Prop} (hstep : ∀ {s s'}, I s → R s s' → I s')
    (hnext : ∀ {s}, I s → ∃ s', R s s') (n : Nat) (h : I s) : ∃ s', Rounds R n s s' := by
  induction n generalizing s with
  | zero => exact ⟨s, .refl s⟩
  | succ n ih =>
    obtain ⟨s₁, hround⟩ := hnext h
    obtain ⟨s', hrest⟩ := ih (hstep h hround)
    exact ⟨s', .round hround hrest⟩

/-- **More rounds than the measure counts settle a state.** A settled state stays so: there is
nothing left that a round could make smaller. -/
theorem Rounds.settle {I Settled : σ → Prop} {μ : σ → Nat}
    (hstep : ∀ {s s'}, I s → R s s' → I s' ∧ (μ s' < μ s ∨ μ s' = 0 ∧ Settled s'))
    (hrun : Rounds R n s s') (h : I s) (hn : μ s < n) : I s' ∧ Settled s' := by
  have hstays : ∀ {n : Nat} {s s' : σ}, Rounds R n s s' → I s → μ s = 0 → Settled s →
      I s' ∧ Settled s' := by
    intro n s s' hrun
    induction hrun with
    | refl s => exact fun h _ hs => ⟨h, hs⟩
    | round head _ ih =>
      intro h hzero _
      obtain ⟨h₁, hless | ⟨hzero₁, hs₁⟩⟩ := hstep h head
      · omega
      · exact ih h₁ hzero₁ hs₁
  induction hrun with
  | refl s => omega
  | round head tail ih =>
    obtain ⟨h₁, hless | ⟨hzero₁, hs₁⟩⟩ := hstep h head
    · exact ih h₁ (by omega)
    · exact hstays tail h₁ hzero₁ hs₁

end ProtoEmb.Lib

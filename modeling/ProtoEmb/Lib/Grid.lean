import Mathlib.Data.List.Pairwise
import Mathlib.Tactic.Common

/-!
# A grid of due points

Something is to be done every `interval`, but the clock is only looked at when someone
polls. A poll at or after the due point does it once and moves the due point: one interval
on if that is still to come, else one interval past the poll. So the due points are a grid
as long as the polls come often enough (`polled_at_grid`), and after a stall the missed
points are not made up for: between two due points there is always at least one interval
(`reads_apart`), and that bounds what any window of time can see (`window_le`).
-/

namespace ProtoEmb.Lib.Grid

/-- What a poll does. -/
structure Poll where
  now : Nat
  /-- The due point before it, if there was one. -/
  before : Option Nat
  read : Bool
  /-- The due point after it. -/
  due : Nat
  deriving DecidableEq, Repr

/-- Without a due point the first poll is the first read. -/
def poll (interval : Nat) : Option Nat → Nat → Poll
  | none, now => ⟨now, none, true, now + interval⟩
  | some n, now =>
    if now < n then ⟨now, some n, false, n⟩
    else ⟨now, some n, true, if n + interval ≤ now then now + interval else n + interval⟩

def polls (interval : Nat) : Option Nat → List Nat → List Poll
  | _, [] => []
  | due, now :: times =>
    let p := poll interval due now
    p :: polls interval (some p.due) times

/-- The due point after all of them. -/
def last (interval : Nat) (due : Option Nat) (times : List Nat) : Option Nat :=
  ((polls interval due times).getLast?.map Poll.due).or due

def reads (ps : List Poll) : List Poll := ps.filter (·.read)

variable {interval : Nat} {due : Option Nat} {times : List Nat}

@[simp] theorem poll_now (due : Option Nat) (now : Nat) : (poll interval due now).now = now := by
  unfold poll
  split
  · rfl
  · split <;> rfl

@[simp] theorem poll_before (due : Option Nat) (now : Nat) :
    (poll interval due now).before = due := by
  unfold poll
  split
  · rfl
  · split <;> rfl

theorem last_cons (due : Option Nat) (now : Nat) (times : List Nat) :
    last interval due (now :: times) = last interval (some (poll interval due now).due) times := by
  unfold last
  rw [polls, List.getLast?_cons]
  cases (polls interval (some (poll interval due now).due) times).getLast? <;> rfl

/-- **All that a poll can do.** -/
theorem poll_cases (interval : Nat) (due : Option Nat) (now : Nat) :
    (due = none ∧ poll interval due now = ⟨now, none, true, now + interval⟩) ∨
    (∃ n, due = some n ∧ now < n ∧ poll interval due now = ⟨now, some n, false, n⟩) ∨
    (∃ n, due = some n ∧ n ≤ now ∧ now < n + interval ∧
      poll interval due now = ⟨now, some n, true, n + interval⟩) ∨
    (∃ n, due = some n ∧ n + interval ≤ now ∧
      poll interval due now = ⟨now, some n, true, now + interval⟩) := by
  cases due with
  | none => exact .inl ⟨rfl, rfl⟩
  | some n =>
    unfold poll
    by_cases hearly : now < n
    · exact .inr (.inl ⟨n, rfl, hearly, if_pos hearly⟩)
    · by_cases hlate : n + interval ≤ now
      · exact .inr (.inr (.inr ⟨n, rfl, hlate, by simp [hearly, hlate]⟩))
      · exact .inr (.inr (.inl ⟨n, rfl, by omega, by omega, by simp [hearly, hlate]⟩))

/-- What one poll does holds of each of them. -/
theorem forall_polls {P : Poll → Prop} (h : ∀ due now, P (poll interval due now)) :
    ∀ (times : List Nat) (due : Option Nat), ∀ p ∈ polls interval due times, P p := by
  intro times
  induction times with
  | nil => exact fun _ => nofun
  | cons now times ih => exact fun due => List.forall_mem_cons.mpr ⟨h due now, ih _⟩

/-- **After a poll the due point is to come.** -/
theorem now_lt_due (hpos : 0 < interval) (due : Option Nat) (now : Nat) :
    (poll interval due now).now < (poll interval due now).due := by
  rw [poll_now]
  rcases poll_cases interval due now with ⟨_, h⟩ | ⟨n, _, hn, h⟩ | ⟨n, _, _, hn, h⟩ | ⟨n, _, _, h⟩
  · rw [h]
    exact Nat.lt_add_of_pos_right hpos
  · rw [h]
    exact hn
  · rw [h]
    exact hn
  · rw [h]
    exact Nat.lt_add_of_pos_right hpos

/-- A poll that is an interval late reads once, and the grid starts anew. -/
theorem late {n now : Nat} (hlate : n + interval ≤ now) :
    (poll interval (some n) now).read = true ∧
      (poll interval (some n) now).due = now + interval := by
  have hdue : ¬ now < n := by omega
  simp only [poll, if_neg hdue, if_pos hlate]
  exact ⟨trivial, trivial⟩

/-- The due point moves at a read only, and by an interval at least. -/
theorem due_moves {n : Nat} (now : Nat) :
    (poll interval (some n) now).read = false ∧ (poll interval (some n) now).due = n ∨
      n ≤ now ∧ n + interval ≤ (poll interval (some n) now).due := by
  rcases poll_cases interval (some n) now with
    ⟨hnone, _⟩ | ⟨m, hm, _, h⟩ | ⟨m, hm, hn, _, h⟩ | ⟨m, hm, hn, h⟩
  · cases hnone
  · cases hm
    exact .inl ⟨by rw [h], by rw [h]⟩
  · cases hm
    exact .inr ⟨hn, Nat.le_of_eq (by rw [h])⟩
  · cases hm
    refine .inr ⟨by omega, ?_⟩
    rw [h]
    show n + interval ≤ now + interval
    omega

/-- From a due point on, a read comes after it and makes the next one an interval later. -/
theorem reads_after :
    ∀ {times : List Nat} {n : Nat}, ∀ p ∈ reads (polls interval (some n) times),
      n ≤ p.now ∧ n + interval ≤ p.due := by
  intro times
  induction times with
  | nil => exact nofun
  | cons now times ih =>
    intro n p hp
    simp only [reads, polls, List.mem_filter, List.mem_cons] at hp
    obtain ⟨rfl | hp, hread⟩ := hp
    · rcases @due_moves interval n now with ⟨hskip, _⟩ | ⟨hn, hdue⟩
      · rw [hskip] at hread
        cases hread
      · rw [poll_now]
        exact ⟨hn, hdue⟩
    · obtain ⟨hnow, hdue⟩ := ih p (List.mem_filter.mpr ⟨hp, hread⟩)
      rcases @due_moves interval n now with ⟨_, hsame⟩ | ⟨_, hmoved⟩ <;> omega

/-- **Due points are an interval apart**, and a read comes no sooner than its own. -/
theorem reads_apart :
    ∀ {times : List Nat} {due : Option Nat}, (reads (polls interval due times)).Pairwise
      fun p q => p.due ≤ q.now ∧ p.due + interval ≤ q.due := by
  intro times
  induction times with
  | nil => exact .nil
  | cons now times ih =>
    intro due
    simp only [reads, polls, List.filter_cons]
    split
    · exact .cons (fun q hq => reads_after q hq) ih
    · exact ih

/-! ## How often a window is read in -/

/-- Reads that are due an interval apart spread out. -/
theorem spread {bound : Nat} : ∀ {ps : List Poll} {p : Poll},
    (p :: ps).Pairwise (fun p q => p.due ≤ q.now ∧ p.due + interval ≤ q.due) →
      (∀ q ∈ ps, q.now ≤ bound) → ps ≠ [] → p.due + (ps.length - 1) * interval ≤ bound := by
  intro ps
  induction ps with
  | nil => exact fun _ _ h => absurd rfl h
  | cons q ps ih =>
    intro p hpair hbound _
    obtain ⟨hp, hrest⟩ := List.pairwise_cons.mp hpair
    obtain ⟨hq, hbound⟩ := List.forall_mem_cons.mp hbound
    obtain ⟨hnow, hdue⟩ := hp q List.mem_cons_self
    cases ps with
    | nil =>
      rw [List.length_singleton, Nat.sub_self, Nat.zero_mul]
      omega
    | cons r ps =>
      have hlast := ih hrest hbound (List.cons_ne_nil r ps)
      simp only [List.length_cons, Nat.add_sub_cancel] at hlast ⊢
      rw [Nat.add_mul, Nat.one_mul]
      omega

/-- `L / I`, rounded up. -/
def ceilDiv (l i : Nat) : Nat := (l + i - 1) / i

/-- **A window of length `l` sees no more than `l / interval`, rounded up, and one.** -/
theorem window_le (hpos : 0 < interval) (start l : Nat) :
    ((reads (polls interval due times)).filter fun p => start ≤ p.now ∧ p.now ≤ start + l).length
      ≤ ceilDiv l interval + 1 := by
  obtain ⟨seen, hseen⟩ : ∃ seen, seen = (reads (polls interval due times)).filter
      fun p => start ≤ p.now ∧ p.now ≤ start + l := ⟨_, rfl⟩
  rw [← hseen]
  have hpair : seen.Pairwise fun p q => p.due ≤ q.now ∧ p.due + interval ≤ q.due := by
    rw [hseen]
    exact reads_apart.sublist List.filter_sublist
  have hin : ∀ p ∈ seen, (start ≤ p.now ∧ p.now ≤ start + l) ∧ p.now < p.due := by
    intro p hp
    rw [hseen] at hp
    obtain ⟨hp, hwin⟩ := List.mem_filter.mp hp
    exact ⟨of_decide_eq_true hwin,
      @forall_polls _ (fun p => p.now < p.due) (now_lt_due hpos) times due p
        (List.mem_filter.mp hp).1⟩
  cases seen with
  | nil => exact Nat.zero_le _
  | cons p ps =>
    rcases Nat.eq_zero_or_pos ps.length with hnil | hsome
    · rw [List.length_cons, hnil]
      exact Nat.le_add_left 1 _
    · have hlast := spread hpair (fun q hq => (hin q (List.mem_cons_of_mem _ hq)).1.2)
        (List.ne_nil_of_length_pos hsome)
      obtain ⟨⟨hstart, _⟩, hdue⟩ := hin p List.mem_cons_self
      have hroom : (ps.length - 1) * interval + 1 ≤ l := by omega
      have hceil : ps.length ≤ ceilDiv l interval := by
        refine (Nat.le_div_iff_mul_le hpos).mpr ?_
        have hsplit : ps.length * interval = (ps.length - 1) * interval + interval := by
          conv_lhs => rw [← Nat.sub_add_cancel hsome, Nat.add_mul]
          rw [Nat.succ_mul, Nat.zero_mul, Nat.zero_add]
        omega
      rw [List.length_cons]
      omega

/-! ## Polls that come often enough -/

/-- Each poll is less than an interval after the one before. -/
def Frequent (interval : Nat) : Nat → List Nat → Prop
  | _, [] => True
  | t, now :: times => now < t + interval ∧ Frequent interval now times

/-- From a due point that is to come, read `k` is the first poll at or after point `k`. -/
theorem grid_from : ∀ {times : List Nat} {t n : Nat}, t < n → Frequent interval t times →
    ∀ k, (reads (polls interval (some n) times))[k]?
      = (polls interval (some n) times).find? fun p => n + k * interval ≤ p.now := by
  intro times
  induction times with
  | nil => exact fun _ _ k => rfl
  | cons now times ih =>
    intro t n hlt hfreq k
    obtain ⟨hgap, hfreq⟩ := hfreq
    rcases poll_cases interval (some n) now with
      ⟨hnone, _⟩ | ⟨m, hm, hearly, h⟩ | ⟨m, hm, hdue, _, h⟩ | ⟨m, hm, hlate, _⟩
    · cases hnone
    · -- not due, and no point of the grid is before it
      cases hm
      have hfirst : ¬ n + k * interval ≤ now := by omega
      simp only [reads, polls, h, List.filter_cons, List.find?_cons, hfirst, decide_false]
      exact ih hearly hfreq k
    · cases hm
      simp only [reads, polls, h, List.filter_cons, List.find?_cons, if_true]
      cases k with
      | zero => simp [hdue]
      | succ k =>
        have hnext : n + (k + 1) * interval = n + interval + k * interval := by
          rw [Nat.add_mul, Nat.one_mul]
          omega
        have hfirst : ¬ n + interval + k * interval ≤ now := by omega
        simp only [hnext, hfirst, decide_false, List.getElem?_cons_succ]
        exact ih (by omega) hfreq k
    · cases hm
      omega

/-- **Read `k` is the first poll at or after `t₀ + k * interval`**, where `t₀` was the first. -/
theorem polled_at_grid (hpos : 0 < interval) {t₀ : Nat} (hfreq : Frequent interval t₀ times)
    (k : Nat) : (reads (polls interval none (t₀ :: times)))[k]?
      = (polls interval none (t₀ :: times)).find? fun p => t₀ + k * interval ≤ p.now := by
  simp only [polls, reads, poll, List.filter_cons, if_true, List.find?_cons]
  cases k with
  | zero => simp
  | succ k =>
    have hnext : t₀ + (k + 1) * interval = t₀ + interval + k * interval := by
      rw [Nat.add_mul, Nat.one_mul]
      omega
    have hfirst : ¬ t₀ + interval + k * interval ≤ t₀ := by omega
    simp only [hnext, hfirst, decide_false, List.getElem?_cons_succ]
    exact grid_from (by omega) hfreq k

end ProtoEmb.Lib.Grid

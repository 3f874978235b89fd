import Mathlib.Data.List.Perm.Basic
import Mathlib.Data.List.Nodup
import Mathlib.Data.List.Pairwise
import Mathlib.Tactic.Common

/-!
# A line in which a place can be taken over

Items join a line at the end and leave it at the front, but an item with a key takes over
the place of a waiting item with the same key. A `Place` remembers the arrival that opened
it beside the one whose item it holds, and a `Line` remembers everything that was ever in
it, so that its order and its losses can be stated: `Line.Kept` says that places leave in
the order in which they were opened, that no key waits twice, and that each arrival has
left, was replaced, was cleared away or waits, and only one of these. Joining, leaving and
clearing keep it.
-/

namespace ProtoEmb.Lib

variable {α κ : Type}

/-- A place in the line. Taking it over changes its item and not who opened it. -/
structure Place (α : Type) where
  /-- The arrival that opened the place. -/
  opened : Nat
  /-- The arrival of the item that is in it. -/
  arrival : Nat
  item : α
  deriving DecidableEq, Repr

/-- What waits, and all that has ever become of the rest. -/
structure Line (α : Type) where
  /-- In the order of leaving. -/
  left : List (Place α)
  waiting : List (Place α)
  /-- What was in a place, and what took it over. -/
  replaced : List (Place α × Place α)
  cleared : List (Place α)
  deriving Repr

namespace Line

def empty : Line α := ⟨[], [], [], []⟩

/-- Everything that was ever in the line. -/
def all (l : Line α) : List (Place α) := l.left ++ l.replaced.map Prod.fst ++ l.cleared ++ l.waiting

/-- The first of the line leaves. -/
def leave (l : Line α) : Option (Place α × Line α) :=
  match l.waiting with
  | p :: waiting => some (p, { l with waiting, left := l.left ++ [p] })
  | [] => none

/-- Everything that waits is cleared away. -/
def clear (l : Line α) : Line α := { l with waiting := [], cleared := l.cleared ++ l.waiting }

/-- The two have a key, and it is the same. -/
def SameKey (key : α → Option κ) (x y : α) : Prop := key x ≠ none ∧ key y = key x

instance [DecidableEq κ] (key : α → Option κ) (x y : α) : Decidable (SameKey key x y) :=
  inferInstanceAs (Decidable (_ ∧ _))

/-- The line after `n` arrivals, of which `arrivals` were its own. -/
structure Kept (key : α → Option κ) (n : Nat) (arrivals : List (Nat × α)) (l : Line α) : Prop where
  /-- Places leave in the order in which they were opened, and later ones still wait. -/
  sorted : ((l.left ++ l.waiting).map Place.opened).Pairwise (· < ·)
  opened : ∀ p ∈ l.left ++ l.waiting, ∃ x, (p.opened, x) ∈ arrivals ∧ key x = key p.item
  /-- No key waits twice. -/
  distinct : (l.waiting.filterMap fun p => key p.item).Nodup
  /-- Each arrival is in one place of the books. -/
  counted : (l.all.map fun p => (p.arrival, p.item)).Perm arrivals
  takeovers : ∀ r ∈ l.replaced, SameKey key r.1.item r.2.item ∧ r.1.opened = r.2.opened ∧
    r.1.arrival < r.2.arrival
  /-- What waits is the last arrival with its key. -/
  newest : ∀ p ∈ l.waiting, ∀ a ∈ arrivals, p.arrival < a.1 → ¬ SameKey key p.item a.2
  bound : ∀ a ∈ arrivals, a.1 < n

variable {key : α → Option κ} {n : Nat} {arrivals : List (Nat × α)} {l l' : Line α}

theorem SameKey.symm {x y : α} (h : SameKey key x y) : SameKey key y x :=
  ⟨by rw [h.2]; exact h.1, h.2.symm⟩

theorem kept_empty : Kept key 0 [] (empty : Line α) :=
  ⟨.nil, nofun, .nil, .nil, nofun, nofun, nofun⟩

/-- An arrival in some other line. -/
theorem Kept.skip (h : Kept key n arrivals l) : Kept key (n + 1) arrivals l :=
  { h with bound := fun a ha => Nat.lt_succ_of_lt (h.bound a ha) }

/-- Places were opened by arrivals so far. -/
theorem Kept.opened_lt (h : Kept key n arrivals l) {p : Place α} (hp : p ∈ l.left ++ l.waiting) :
    p.opened < n := by
  obtain ⟨x, hx, _⟩ := h.opened p hp
  exact h.bound _ hx

/-- What is in a place has arrived. -/
theorem Kept.arrival_mem (h : Kept key n arrivals l) {p : Place α} (hp : p ∈ l.all) :
    (p.arrival, p.item) ∈ arrivals :=
  h.counted.mem_iff.mp (List.mem_map_of_mem hp)

theorem waiting_sub_all {p : Place α} (hp : p ∈ l.waiting) : p ∈ l.all :=
  List.mem_append_right _ hp

/-- What leaves is the first of those that wait. -/
theorem leave_eq_some {p : Place α} (h : l.leave = some (p, l')) :
    ∃ waiting, l.waiting = p :: waiting ∧ l' = { l with waiting, left := l.left ++ [p] } := by
  unfold leave at h
  split at h
  next first waiting hwaiting =>
    cases h
    exact ⟨waiting, hwaiting, rfl⟩
  next => cases h

/-- Only an empty line has none to leave. -/
theorem leave_eq_none (h : l.leave = none) : l.waiting = [] := by
  unfold leave at h
  split at h
  next => cases h
  next hnil => exact hnil

/-- Leaving keeps the line: the place left after all that were opened before it. -/
theorem Kept.leave (h : Kept key n arrivals l) {p : Place α} (hleave : l.leave = some (p, l')) :
    Kept key n arrivals l' := by
  obtain ⟨waiting, hwaiting, rfl⟩ := leave_eq_some hleave
  have hmove : l.left ++ [p] ++ waiting = l.left ++ l.waiting := by
    rw [hwaiting, List.append_assoc, List.singleton_append]
  refine ⟨?_, ?_, ?_, ?_, h.takeovers, ?_, h.bound⟩
  · show ((l.left ++ [p] ++ waiting).map Place.opened).Pairwise _
    rw [hmove]
    exact h.sorted
  · show ∀ q ∈ l.left ++ [p] ++ waiting, _
    rw [hmove]
    exact h.opened
  · have hall := h.distinct
    rw [hwaiting] at hall
    exact hall.sublist ((List.sublist_cons_self p waiting).filterMap _)
  · refine .trans (List.Perm.map _ ?_) h.counted
    simp only [all, hwaiting, List.append_assoc, List.singleton_append]
    refine .append_left _ ?_
    rw [← List.append_assoc, ← List.append_assoc]
    exact List.perm_middle.symm
  · intro q hq
    exact h.newest q (by rw [hwaiting]; exact List.mem_cons_of_mem _ hq)

/-- Clearing keeps the line. -/
theorem Kept.clear (h : Kept key n arrivals l) : Kept key n arrivals l.clear := by
  refine ⟨?_, ?_, .nil, ?_, h.takeovers, nofun, h.bound⟩
  · show ((l.left ++ []).map Place.opened).Pairwise _
    have hsorted := h.sorted
    rw [List.map_append] at hsorted
    rw [List.append_nil]
    exact (List.pairwise_append.mp hsorted).1
  · intro p hp
    rw [Line.clear, List.append_nil] at hp
    exact h.opened p (List.mem_append_left _ hp)
  · have hall : l.clear.all = l.all := by
      simp only [all, Line.clear, List.append_assoc, List.append_nil]
    rw [hall]
    exact h.counted

/-! ## Joining -/

/-- Of two places that wait only one has the key. -/
theorem Kept.unique (h : Kept key n arrivals l) {before after : List (Place α)} {old p : Place α}
    (hold : l.waiting = before ++ old :: after) (hp : p ∈ before ++ after) :
    ¬ SameKey key p.item old.item := by
  intro hsame
  obtain ⟨k, hk⟩ := Option.ne_none_iff_exists'.mp hsame.1
  have hdistinct := h.distinct
  have hkey : key old.item = some k := hsame.2.trans hk
  simp only [hold, List.filterMap_append, List.filterMap_cons, hkey] at hdistinct
  have hnot := (List.nodup_middle.mp hdistinct).notMem
  rw [← List.filterMap_append] at hnot
  exact hnot (List.mem_filterMap.mpr ⟨p, hp, hk⟩)

/-- With one more arrival the numbers stay below their count. -/
theorem Kept.join_bound (h : Kept key n arrivals l) (x : α) :
    ∀ a ∈ arrivals ++ [(n, x)], a.1 < n + 1 := by
  intro a ha
  rcases List.mem_append.mp ha with hold | hnew
  · exact Nat.lt_succ_of_lt (h.bound a hold)
  · rw [List.mem_singleton.mp hnew]
    exact Nat.lt_succ_self n

/-- An arrival takes over a place. -/
theorem Kept.replace (h : Kept key n arrivals l) {x : α} {before after : List (Place α)}
    {old : Place α} (hold : l.waiting = before ++ old :: after) (hsame : SameKey key x old.item) :
    Kept key (n + 1) (arrivals ++ [(n, x)]) { l with
      waiting := before ++ ⟨old.opened, n, x⟩ :: after
      replaced := l.replaced ++ [(old, ⟨old.opened, n, x⟩)] } := by
  have hwaits : old ∈ l.waiting := by
    rw [hold]
    exact List.mem_append_right _ List.mem_cons_self
  have hother : ∀ p ∈ before ++ after, p ∈ l.waiting := by
    intro p hp
    rw [hold]
    exact List.mem_append.mpr ((List.mem_append.mp hp).imp_right (List.mem_cons_of_mem _))
  refine ⟨?_, ?_, ?_, ?_, ?_, ?_, h.join_bound x⟩
  · -- the place is as old as before
    have hsorted := h.sorted
    simp only [hold, List.map_append, List.map_cons] at hsorted
    simpa only [List.map_append, List.map_cons] using hsorted
  · -- the key of the place is that of its first arrival
    intro p hp
    have hcases : p ∈ l.left ++ l.waiting ∨ p = ⟨old.opened, n, x⟩ := by
      simp only [hold, List.mem_append, List.mem_cons] at hp ⊢
      tauto
    rcases hcases with hp | rfl
    · obtain ⟨y, hy, hkey⟩ := h.opened p hp
      exact ⟨y, List.mem_append_left _ hy, hkey⟩
    · obtain ⟨y, hy, hkey⟩ := h.opened old (List.mem_append_right _ hwaits)
      exact ⟨y, List.mem_append_left _ hy, hkey.trans hsame.2⟩
  · -- the key was waiting before, so no second place has it
    have hdistinct := h.distinct
    simp only [hold, List.filterMap_append, List.filterMap_cons, hsame.2] at hdistinct
    simpa only [List.filterMap_append, List.filterMap_cons] using hdistinct
  · -- the old occupant is now among those that were replaced
    refine .trans ?_ (h.counted.append_right [(n, x)])
    obtain ⟨new, hnew⟩ : ∃ new : Place α, new = ⟨old.opened, n, x⟩ := ⟨_, rfl⟩
    have hmoved : (l.left ++ (l.replaced ++ [(old, new)]).map Prod.fst ++ l.cleared
        ++ (before ++ new :: after)).Perm (l.all ++ [new]) := by
      simp only [all, hold, List.map_append, List.map_cons, List.map_nil, List.append_assoc,
        List.cons_append, List.nil_append]
      refine (List.Perm.append_left _ ?_).append_left _
      rw [← List.append_assoc, ← List.append_assoc]
      refine .trans (.cons old (.append_left _ ?_)) List.perm_middle.symm
      exact (List.perm_append_singleton new after).symm
    have hmap := hmoved.map fun p => (p.arrival, p.item)
    rw [hnew, @List.map_append _ _ _ l.all] at hmap
    exact hmap
  · intro r hr
    rcases List.mem_append.mp hr with hr | hr
    · exact h.takeovers r hr
    · rw [List.mem_singleton.mp hr]
      exact ⟨hsame.symm, rfl, h.bound _ (h.arrival_mem (waiting_sub_all hwaits))⟩
  · -- an arrival after the one in the place would have taken the place over
    intro p hp a ha hlater hpa
    have hbound := h.join_bound x a ha
    have hcases : p ∈ before ++ after ∨ p = ⟨old.opened, n, x⟩ := by
      simp only [List.mem_append, List.mem_cons] at hp ⊢
      tauto
    rcases hcases with hp | rfl
    · rcases List.mem_append.mp ha with ha | ha
      · exact h.newest p (hother p hp) a ha hlater hpa
      · rw [List.mem_singleton.mp ha] at hpa
        exact h.unique hold hp ⟨hpa.1, hsame.2.trans hpa.2⟩
    · exact absurd hlater (by show ¬ n < a.1; omega)

/-- An arrival goes to the end. -/
theorem Kept.append (h : Kept key n arrivals l) {x : α}
    (hfree : ∀ p ∈ l.waiting, ¬ SameKey key x p.item) :
    Kept key (n + 1) (arrivals ++ [(n, x)]) { l with waiting := l.waiting ++ [⟨n, n, x⟩] } := by
  refine ⟨?_, ?_, ?_, ?_, h.takeovers, ?_, h.join_bound x⟩
  · -- the new place was opened last
    rw [← List.append_assoc, List.map_append]
    refine List.pairwise_append.mpr ⟨h.sorted, List.pairwise_singleton _ n, fun a ha b hb => ?_⟩
    obtain ⟨p, hp, rfl⟩ := List.mem_map.mp ha
    rw [List.mem_singleton.mp hb]
    exact h.opened_lt hp
  · intro p hp
    rw [← List.append_assoc] at hp
    rcases List.mem_append.mp hp with hp | hp
    · obtain ⟨y, hy, hkey⟩ := h.opened p hp
      exact ⟨y, List.mem_append_left _ hy, hkey⟩
    · rw [List.mem_singleton.mp hp]
      exact ⟨x, List.mem_append_right _ (List.mem_singleton_self _), rfl⟩
  · -- no place has the key yet
    rw [List.filterMap_append]
    cases hx : key x with
    | none =>
      simp only [List.filterMap_cons, hx, List.filterMap_nil, List.append_nil]
      exact h.distinct
    | some k =>
      simp only [List.filterMap_cons, hx, List.filterMap_nil]
      refine List.Nodup.append h.distinct (List.nodup_singleton k)
        (List.disjoint_singleton.mpr fun hk => ?_)
      obtain ⟨p, hp, hpk⟩ := List.mem_filterMap.mp hk
      exact hfree p hp ⟨by rw [hx]; exact Option.some_ne_none k, hpk.trans hx.symm⟩
  · -- nothing has left, been replaced or cleared
    refine .trans (.of_eq ?_) (h.counted.append_right [(n, x)])
    simp only [all, List.map_append, List.append_assoc]
    rfl
  · intro p hp a ha hlater hpa
    have hbound := h.join_bound x a ha
    rcases List.mem_append.mp hp with hp | hp
    · rcases List.mem_append.mp ha with ha | ha
      · exact h.newest p hp a ha hlater hpa
      · rw [List.mem_singleton.mp ha] at hpa
        exact hfree p hp hpa.symm
    · rw [List.mem_singleton.mp hp] at hlater
      exact absurd hlater (by show ¬ n < a.1; omega)

section Join

variable [DecidableEq κ] (key)

/-- The line with `x` in the first place of its key, and what was in that place. -/
def takeOver (n : Nat) (x : α) : List (Place α) → Option (List (Place α) × Place α)
  | [] => none
  | p :: ps =>
    if SameKey key x p.item then some (⟨p.opened, n, x⟩ :: ps, p)
    else (takeOver n x ps).map fun r => (p :: r.1, r.2)

/-- Arrival `n` is `x`. -/
def join (l : Line α) (n : Nat) (x : α) : Line α :=
  match takeOver key n x l.waiting with
  | some (waiting, old) =>
    { l with waiting, replaced := l.replaced ++ [(old, ⟨old.opened, n, x⟩)] }
  | none => { l with waiting := l.waiting ++ [⟨n, n, x⟩] }

variable {key}

/-- Where an item takes a place over, it is the first place with its key. -/
theorem takeOver_some {x : α} :
    ∀ {ps ps' : List (Place α)} {old : Place α}, takeOver key n x ps = some (ps', old) →
      ∃ before after, ps = before ++ old :: after ∧ ps' = before ++ ⟨old.opened, n, x⟩ :: after ∧
        SameKey key x old.item ∧ ∀ p ∈ before, ¬ SameKey key x p.item := by
  intro ps
  induction ps with
  | nil => intro ps' old h; cases h
  | cons p ps ih =>
    intro ps' old h
    unfold takeOver at h
    split at h
    next hsame =>
      cases h
      exact ⟨[], ps, rfl, rfl, hsame, nofun⟩
    next hother =>
      obtain ⟨⟨rest, old'⟩, hrest, heq⟩ := Option.map_eq_some_iff.mp h
      obtain ⟨rfl, rfl⟩ := Prod.mk.inj heq
      obtain ⟨before, after, rfl, hrest', hsame, hbefore⟩ := ih hrest
      exact ⟨p :: before, after, rfl, congrArg (p :: ·) hrest', hsame,
        List.forall_mem_cons.mpr ⟨hother, hbefore⟩⟩

/-- Where it does not, no place has its key. -/
theorem takeOver_none {x : α} :
    ∀ {ps : List (Place α)}, takeOver key n x ps = none → ∀ p ∈ ps, ¬ SameKey key x p.item := by
  intro ps
  induction ps with
  | nil => intro _; exact nofun
  | cons p ps ih =>
    intro h
    unfold takeOver at h
    split at h
    next => cases h
    next hother => exact List.forall_mem_cons.mpr ⟨hother, ih (Option.map_eq_none_iff.mp h)⟩

/-- **What a join does**: it takes over the first place of its key, or goes to the end. -/
theorem join_cases (l : Line α) (n : Nat) (x : α) :
    (∃ before old after, l.waiting = before ++ old :: after ∧ SameKey key x old.item ∧
      (∀ p ∈ before, ¬ SameKey key x p.item) ∧
      l.join key n x = { l with
        waiting := before ++ ⟨old.opened, n, x⟩ :: after
        replaced := l.replaced ++ [(old, ⟨old.opened, n, x⟩)] }) ∨
    ((∀ p ∈ l.waiting, ¬ SameKey key x p.item) ∧
      l.join key n x = { l with waiting := l.waiting ++ [⟨n, n, x⟩] }) := by
  unfold join
  cases htake : takeOver key n x l.waiting with
  | none => exact .inr ⟨takeOver_none htake, rfl⟩
  | some r =>
    obtain ⟨waiting, old⟩ := r
    obtain ⟨before, after, hold, rfl, hsame, hbefore⟩ := takeOver_some htake
    exact .inl ⟨before, old, after, hold, hsame, hbefore, rfl⟩

/-- Joining keeps the line, at the end or in a place taken over. -/
theorem Kept.join (h : Kept key n arrivals l) (x : α) :
    Kept key (n + 1) (arrivals ++ [(n, x)]) (l.join key n x) := by
  rcases @join_cases _ _ key _ l n x with
    ⟨before, old, after, hold, hsame, _, hjoin⟩ | ⟨hfree, hjoin⟩
  · rw [hjoin]
    exact h.replace hold hsame
  · rw [hjoin]
    exact h.append hfree

end Join

end Line

end ProtoEmb.Lib

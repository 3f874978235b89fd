import Mathlib.Data.List.Nodup
import Mathlib.Data.List.Perm.Subperm
import Mathlib.Logic.Function.Basic
import Mathlib.Logic.Relation
import Mathlib.Tactic.Common

/-!
# Topological sort by depth-first search

The recursive search with three colours: a node without a mark is new, a node is marked
`visiting` while its successors are visited and `done` when it has been emitted. Meeting a
node that is being visited is a cycle.

Everything rests on one invariant, `Searched`: the nodes that are being visited are those on
the stack of calls, each of which leads to the node at hand, and the nodes that are done are
those emitted, each behind its successors. So a cycle that is reported is one
(`visit_outcome`), an order that is returned leaves room for none (`not_cycle`), and the
stack, which repeats no node, bounds the depth of the recursion.
-/

namespace ProtoEmb.Lib.TopoSort

open Relation

variable {α : Type}

/-- A node without a mark is new. -/
inductive Mark where
  | visiting
  | done
  deriving DecidableEq, Repr

/-- The marks, and what has been emitted so far. -/
structure State (α : Type) where
  mark : α → Option Mark
  emitted : List α

/-- Fuel stands for the depth of the stack of calls. -/
inductive Failure (α : Type) where
  /-- With the path that led back to its start. -/
  | cycle (path : List α)
  | outOfFuel
  deriving DecidableEq, Repr

section Search

variable [DecidableEq α]

/-- The state with one mark changed. -/
def State.set (s : State α) (x : α) (m : Mark) : State α :=
  { s with mark := Function.update s.mark x (some m) }

/-- The node is done. -/
def State.emit (s : State α) (x : α) : State α :=
  { s.set x .done with emitted := s.emitted ++ [x] }

@[simp] theorem State.set_self (s : State α) (x : α) (m : Mark) : (s.set x m).mark x = some m :=
  Function.update_self x _ s.mark

theorem State.set_of_ne (s : State α) {x y : α} (h : y ≠ x) (m : Mark) :
    (s.set x m).mark y = s.mark y := Function.update_of_ne h _ _

variable (succ : α → List α)

/-- `visit` of the search: a node is emitted behind its successors. -/
def visit : Nat → List α → State α → α → Except (Failure α) (State α)
  | 0, _, _, _ => .error .outOfFuel
  | fuel + 1, stack, s, x =>
    match s.mark x with
    | some .done => .ok s
    | some .visiting => .error (.cycle (stack ++ [x]))
    | none => do
      let s ← (succ x).foldlM (visit fuel (stack ++ [x])) (s.set x .visiting)
      return s.emit x

/-- Every node is visited in turn. -/
def sort (nodes : List α) : Except (Failure α) (State α) :=
  nodes.foldlM (visit succ (nodes.length + 1) []) ⟨fun _ => none, []⟩

end Search

variable (succ : α → List α) (nodes : List α)

/-- There is an edge. -/
def Edge (x y : α) : Prop := y ∈ succ x

/-- The state between two visits. -/
structure Searched (stack : List α) (s : State α) : Prop where
  visiting : ∀ x, s.mark x = some .visiting ↔ x ∈ stack
  done : ∀ x, s.mark x = some .done ↔ x ∈ s.emitted
  nodup : s.emitted.Nodup
  subset : s.emitted ⊆ nodes
  /-- Each node is emitted behind its successors. -/
  behind : ∀ before x after, s.emitted = before ++ x :: after → succ x ⊆ before

/-- What the visits of `xs` come to. -/
def Outcome (stack : List α) (s : State α) (xs : List α) : Except (Failure α) (State α) → Prop
  | .ok s' => Searched succ nodes stack s' ∧ s.emitted ⊆ s'.emitted ∧ xs ⊆ s'.emitted
  | .error (.cycle _) => ∃ x ∈ nodes, TransGen (Edge succ) x x
  | .error .outOfFuel => False

variable {succ nodes} {stack : List α} {s : State α} {x : α}

/-- Before the search there is nothing to say. -/
theorem searched_new : Searched succ nodes [] ⟨fun _ => none, []⟩ :=
  ⟨fun _ => ⟨nofun, nofun⟩, fun _ => ⟨nofun, nofun⟩, .nil, List.nil_subset _,
    fun before x after h =>
    absurd h.symm (by simp)⟩

theorem nodup_push {l : List α} (h : l.Nodup) (hx : x ∉ l) : (l ++ [x]).Nodup := by
  rw [← List.concat_eq_append]
  exact h.concat hx

/-- Visits one after the other. -/
theorem foldlM_outcome {f : State α → α → Except (Failure α) (State α)} :
    ∀ {xs : List α} {s : State α},
      (∀ s, Searched succ nodes stack s → ∀ x ∈ xs, Outcome succ nodes stack s [x] (f s x)) →
      Searched succ nodes stack s → Outcome succ nodes stack s xs (xs.foldlM f s) := by
  intro xs
  induction xs with
  | nil => exact fun _ h => ⟨h, List.Subset.refl _, List.nil_subset _⟩
  | cons x xs ih =>
    intro s hstep h
    have hfirst := hstep s h x List.mem_cons_self
    rw [List.foldlM_cons]
    cases hx : f s x with
    | error e =>
      rw [hx] at hfirst
      cases e with
      | cycle path => exact hfirst
      | outOfFuel => exact hfirst
    | ok s₁ =>
      rw [hx] at hfirst
      obtain ⟨h₁, hsub₁, hx₁⟩ := hfirst
      have hrest := ih (fun s hs y hy => hstep s hs y (List.mem_cons_of_mem x hy)) h₁
      show Outcome succ nodes stack s (x :: xs) (xs.foldlM f s₁)
      cases hxs : xs.foldlM f s₁ with
      | error e =>
        rw [hxs] at hrest
        cases e with
        | cycle path => exact hrest
        | outOfFuel => exact hrest
      | ok s' =>
        rw [hxs] at hrest
        obtain ⟨h', hsub', hxs'⟩ := hrest
        exact ⟨h', fun y hy => hsub' (hsub₁ hy),
          List.cons_subset.mpr ⟨hsub' (hx₁ (List.mem_singleton_self x)), hxs'⟩⟩

/-- The stack of a visit repeats no node, and each on it leads to the node that is visited. -/
structure OnStack (succ : α → List α) (nodes stack : List α) (x : α) : Prop where
  nodup : stack.Nodup
  subset : stack ⊆ nodes
  node : x ∈ nodes
  leads : ∀ y ∈ stack, TransGen (Edge succ) y x

/-- A search starts at a node with an empty stack. -/
theorem onStack_nil (hx : x ∈ nodes) : OnStack succ nodes [] x :=
  ⟨.nil, List.nil_subset _, hx, nofun⟩

/-- A visit of a successor has the node itself on the stack. -/
theorem OnStack.push (h : OnStack succ nodes stack x) (hclosed : ∀ x ∈ nodes, succ x ⊆ nodes)
    (hx : x ∉ stack) {t : α} (ht : t ∈ succ x) : OnStack succ nodes (stack ++ [x]) t := by
  refine ⟨nodup_push h.nodup hx, List.append_subset.mpr ⟨h.subset, List.cons_subset.mpr
    ⟨h.node, List.nil_subset _⟩⟩, hclosed x h.node ht, fun y hy => ?_⟩
  rcases List.mem_append.mp hy with hy | hy
  · exact (h.leads y hy).tail ht
  · rw [List.mem_singleton.mp hy]
    exact .single ht

/-- A stack without repetitions is no longer than there are nodes. -/
theorem OnStack.length_le (h : OnStack succ nodes stack x) : stack.length ≤ nodes.length :=
  (h.nodup.subperm h.subset).length_le

/-- A node without a mark is neither on the stack nor emitted. -/
theorem Searched.fresh (h : Searched succ nodes stack s) (hnew : s.mark x = none) :
    x ∉ stack ∧ x ∉ s.emitted := by
  rw [← h.visiting, ← h.done, hnew]
  exact ⟨nofun, nofun⟩

section Search

variable [DecidableEq α]

/-- A new node goes on the stack. -/
theorem Searched.enter (h : Searched succ nodes stack s) (hnew : s.mark x = none) :
    Searched succ nodes (stack ++ [x]) (s.set x .visiting) := by
  refine ⟨fun y => ?_, fun y => ?_, h.nodup, h.subset, h.behind⟩
  · rw [List.mem_append, List.mem_singleton, ← h.visiting]
    by_cases hy : y = x
    · subst hy
      simp
    · simp [State.set_of_ne s hy, hy]
  · by_cases hy : y = x
    · subst hy
      show _ ↔ y ∈ s.emitted
      rw [← h.done, hnew]
      simp
    · rw [State.set_of_ne s hy]
      exact h.done y

/-- When its successors are done a node leaves the stack and is emitted. -/
theorem Searched.leave (h : Searched succ nodes (stack ++ [x]) s) (hx : x ∉ stack)
    (hnode : x ∈ nodes) (hsucc : succ x ⊆ s.emitted) : Searched succ nodes stack (s.emit x) := by
  have hvisiting : s.mark x = some .visiting :=
    (h.visiting x).mpr (List.mem_append_right _ (List.mem_singleton_self x))
  have hfresh : x ∉ s.emitted := by
    rw [← h.done, hvisiting]
    nofun
  have hself : (s.emit x).mark x = some .done := State.set_self s x .done
  have hother : ∀ y, y ≠ x → (s.emit x).mark y = s.mark y := fun y hy => State.set_of_ne s hy _
  refine ⟨fun y => ?_, fun y => ?_, ?_, ?_, ?_⟩
  · by_cases hy : y = x
    · subst hy
      simp [hself, hx]
    · rw [hother y hy, h.visiting]
      simp [hy]
  · show _ ↔ y ∈ s.emitted ++ [x]
    rw [List.mem_append, List.mem_singleton]
    by_cases hy : y = x
    · subst hy
      simp [hself]
    · rw [hother y hy, h.done]
      simp [hy]
  · exact nodup_push h.nodup hfresh
  · exact List.append_subset.mpr ⟨h.subset, List.cons_subset.mpr ⟨hnode, List.nil_subset _⟩⟩
  · intro before y after hcut
    change s.emitted ++ [x] = before ++ y :: after at hcut
    rcases List.eq_nil_or_concat after with rfl | ⟨after, z, rfl⟩
    · -- the node itself
      obtain ⟨rfl, hy⟩ := List.append_inj' hcut rfl
      cases hy
      exact hsucc
    · have hsplit : s.emitted ++ [x] = (before ++ y :: after) ++ [z] := by
        rw [hcut]
        simp
      exact h.behind before y after (List.append_inj' hsplit rfl).1

/-- **A visit emits the node or finds a cycle**, if the fuel and the stack are together longer
than the list of nodes. -/
theorem visit_outcome (hclosed : ∀ x ∈ nodes, succ x ⊆ nodes) :
    ∀ (fuel : Nat) {stack : List α} {s : State α} {x : α}, Searched succ nodes stack s →
      OnStack succ nodes stack x → nodes.length < stack.length + fuel →
      Outcome succ nodes stack s [x] (visit succ fuel stack s x) := by
  intro fuel
  induction fuel with
  | zero =>
    -- a stack of distinct nodes is no longer than their list
    intro stack s x h hstack hfuel
    have hle := hstack.length_le
    omega
  | succ fuel ih =>
    intro stack s x h hstack hfuel
    unfold visit
    cases hmark : s.mark x with
    | some m =>
      cases m with
      | done =>
        exact ⟨h, List.Subset.refl _, List.cons_subset.mpr
          ⟨(h.done x).mp hmark, List.nil_subset _⟩⟩
      | visiting => exact ⟨x, hstack.node, hstack.leads x ((h.visiting x).mp hmark)⟩
    | none =>
      -- the successors, with the node on top of the stack
      have hfresh := (h.fresh hmark).1
      have hsuccs := @foldlM_outcome α succ nodes (stack ++ [x])
        (visit succ fuel (stack ++ [x])) (succ x) _
        (fun s hs t ht => ih hs (hstack.push hclosed hfresh ht) (by
          rw [List.length_append, List.length_singleton]
          omega)) (h.enter hmark)
      show Outcome succ nodes stack s [x] (do
        let s ← (succ x).foldlM (visit succ fuel (stack ++ [x])) (s.set x .visiting)
        return s.emit x)
      cases hfold : (succ x).foldlM (visit succ fuel (stack ++ [x])) (s.set x .visiting) with
      | error e =>
        rw [hfold] at hsuccs
        cases e with
        | cycle path => exact hsuccs
        | outOfFuel => exact hsuccs
      | ok s₁ =>
        rw [hfold] at hsuccs
        obtain ⟨h₁, hgrow, hemitted⟩ := hsuccs
        exact ⟨h₁.leave hfresh hstack.node hemitted, fun y hy => List.mem_append_left _ (hgrow hy),
          List.cons_subset.mpr
            ⟨List.mem_append_right _ (List.mem_singleton_self x), List.nil_subset _⟩⟩

/-- What a search over all nodes ends with. -/
theorem sort_outcome (hclosed : ∀ x ∈ nodes, succ x ⊆ nodes) :
    Outcome succ nodes [] ⟨fun _ => none, []⟩ nodes (sort succ nodes) :=
  foldlM_outcome (fun _ hs _ hx => visit_outcome hclosed _ hs (onStack_nil hx) (by
    rw [List.length_nil]
    omega)) searched_new

end Search

/-- A chain of edges goes back in the order. -/
theorem Searched.before (h : Searched succ nodes stack s) {y : α}
    (hchain : TransGen (Edge succ) x y) :
    ∀ before after, s.emitted = before ++ x :: after → y ∈ before := by
  induction hchain with
  | single hedge => exact fun before after hcut => h.behind before x after hcut hedge
  | tail _ hedge ih =>
    intro before after hcut
    obtain ⟨front, rest, rfl⟩ := List.append_of_mem (ih before after hcut)
    rw [List.append_assoc, List.cons_append] at hcut
    exact List.mem_append_left _ (h.behind front _ _ hcut hedge)

/-- **What has been emitted is on no cycle.** -/
theorem Searched.not_cycle (h : Searched succ nodes stack s) (hx : x ∈ s.emitted) :
    ¬ TransGen (Edge succ) x x := by
  intro hcycle
  obtain ⟨before, after, hcut⟩ := List.append_of_mem hx
  have hmem := h.before hcycle before after hcut
  have hnodup := h.nodup
  rw [hcut] at hnodup
  exact (List.nodup_append.mp hnodup).2.2 x hmem x List.mem_cons_self rfl

section Search

variable [DecidableEq α]

/-- A visit of a node without successors. -/
theorem visit_leaf (h : Searched succ nodes [] s) (hx : x ∈ nodes) (hleaf : succ x = [])
    (fuel : Nat) : ∃ s', visit succ (fuel + 1) [] s x = .ok s' ∧ Searched succ nodes [] s' ∧
      s'.emitted = if x ∈ s.emitted then s.emitted else s.emitted ++ [x] := by
  unfold visit
  cases hmark : s.mark x with
  | some m =>
    cases m with
    | done => exact ⟨s, rfl, h, (if_pos ((h.done x).mp hmark)).symm⟩
    | visiting => exact absurd ((h.visiting x).mp hmark) List.not_mem_nil
  | none =>
    have hfresh := (h.fresh hmark).2
    have hleft := (h.enter hmark).leave List.not_mem_nil hx (by
      rw [hleaf]
      exact List.nil_subset _)
    rw [hleaf, if_neg hfresh]
    exact ⟨_, rfl, hleft, rfl⟩

/-- **Without edges the order is that of the nodes**, each where it is first. -/
theorem sort_of_no_edge (h : ∀ x ∈ nodes, succ x = []) :
    ∃ s, sort succ nodes = .ok s ∧ s.emitted = nodes.eraseDups := by
  have hrun : ∀ (xs : List α) {s : State α}, xs ⊆ nodes → Searched succ nodes [] s →
      ∃ s', xs.foldlM (visit succ (nodes.length + 1) []) s = .ok s' ∧
        s'.emitted = s.emitted ++ (xs.filter (· ∉ s.emitted)).eraseDups := by
    intro xs
    induction xs with
    | nil => exact fun _ _ => ⟨_, rfl, (List.append_nil _).symm⟩
    | cons x xs ih =>
      intro s hsub hs
      obtain ⟨hx, hsub⟩ := List.cons_subset.mp hsub
      obtain ⟨s₁, hvisit, h₁, hemit⟩ := visit_leaf hs hx (h x hx) nodes.length
      obtain ⟨s', hrest, hemit'⟩ := ih hsub h₁
      refine ⟨s', ?_, ?_⟩
      · rw [List.foldlM_cons, hvisit]
        exact hrest
      · rw [hemit', hemit]
        split
        next hold => rw [List.filter_cons_of_neg (by simpa using hold)]
        next hnew =>
          -- the node is the next one, and its later occurrences are not
          rw [List.filter_cons_of_pos (by simpa using hnew), List.eraseDups_cons,
            List.filter_filter, List.append_assoc, List.singleton_append]
          congr 4
          funext y
          by_cases hyx : y = x
          · subst hyx
            simp
          · simp [hyx]
  obtain ⟨s, hs, hemit⟩ := hrun nodes (List.Subset.refl _) searched_new
  refine ⟨s, hs, ?_⟩
  rw [hemit]
  simp

end Search

end ProtoEmb.Lib.TopoSort

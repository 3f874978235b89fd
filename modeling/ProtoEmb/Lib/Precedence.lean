import Mathlib.Data.List.Basic

/-!
# Expressions as text, read by operator precedence

A text is a list of tokens, and a grammar gives every operator a level: one of a higher level
binds more tightly, and operators between two operands associate to the left. `parse` reads a
text by precedence climbing. A `Tree` keeps the parentheses that were written, and `flatten`
writes it out again.

* `parse_flatten`: a tree whose operands bind tightly enough is what its text is read as.
* `value_flatten`: so the value of a text is found by evaluating such a tree.
-/

namespace ProtoEmb.Lib

/-- A token. `call` is a function's name with its opening parenthesis, `method` the same
after a dot. -/
inductive Token (A U B : Type) where
  | atom (a : A)
  | opening
  | closing
  | call (u : U)
  | before (u : U)
  | after (u : U)
  | between (b : B)
  | method (b : B)

/-- The levels of a language's operators. -/
structure Grammar (U B : Type) where
  before : U → Nat
  after : U → Nat
  between : B → Nat
  method : B → Nat

/-- An expression with the parentheses that were written. -/
inductive Tree (A U B : Type) where
  | atom (a : A)
  | paren (t : Tree A U B)
  | call (u : U) (t : Tree A U B)
  | before (u : U) (t : Tree A U B)
  | after (u : U) (t : Tree A U B)
  | between (b : B) (l r : Tree A U B)
  | method (b : B) (l r : Tree A U B)

/-- What atoms and operators mean. -/
structure Meaning (A U B V : Type) where
  atom : A → Option V
  unary : U → V → Option V
  binary : B → V → V → Option V

variable {A U B V : Type}

namespace Tree

/-- The text of a tree, from left to right. -/
def flatten : Tree A U B → List (Token A U B)
  | atom a => [.atom a]
  | paren t => .opening :: (t.flatten ++ [.closing])
  | call u t => .call u :: (t.flatten ++ [.closing])
  | before u t => .before u :: t.flatten
  | after u t => t.flatten ++ [.after u]
  | between b l r => l.flatten ++ .between b :: r.flatten
  | method b l r => l.flatten ++ .method b :: (r.flatten ++ [.closing])

/-- Operands are evaluated from left to right. -/
def eval (M : Meaning A U B V) : Tree A U B → Option V
  | atom a => M.atom a
  | paren t => t.eval M
  | call u t | before u t | after u t => do M.unary u (← t.eval M)
  | between b l r | method b l r => do M.binary b (← l.eval M) (← r.eval M)

end Tree

namespace Grammar

variable (g : Grammar U B)

/-- Reading on at level `m` or more, after the operand `lhs` if there is one: what was read,
and the tokens left. -/
def go : Nat → Nat → Option (Tree A U B) → List (Token A U B) →
    Option (Tree A U B × List (Token A U B))
  | 0, _, _, _ => none
  | fuel + 1, m, none, ts =>
    match ts with
    | .atom a :: ts => go fuel m (some (.atom a)) ts
    | .opening :: ts =>
      match go fuel 0 none ts with
      | some (t, .closing :: ts) => go fuel m (some (.paren t)) ts
      | _ => none
    | .call u :: ts =>
      match go fuel 0 none ts with
      | some (t, .closing :: ts) => go fuel m (some (.call u t)) ts
      | _ => none
    | .before u :: ts =>
      match go fuel (g.before u) none ts with
      | some (t, ts) => go fuel m (some (.before u t)) ts
      | none => none
    | _ => none
  | fuel + 1, m, some l, ts =>
    match ts with
    | .after u :: rest =>
      if m ≤ g.after u then go fuel m (some (.after u l)) rest else some (l, ts)
    | .between b :: rest =>
      if m ≤ g.between b then
        match go fuel (g.between b + 1) none rest with
        | some (r, rest) => go fuel m (some (.between b l r)) rest
        | none => none
      else some (l, ts)
    | .method b :: rest =>
      if m ≤ g.method b then
        match go fuel 0 none rest with
        | some (r, .closing :: rest) => go fuel m (some (.method b l r)) rest
        | _ => none
      else some (l, ts)
    | _ => some (l, ts)

/-- Every step takes a token, so the length of the text is fuel enough. -/
def parse (ts : List (Token A U B)) : Option (Tree A U B) :=
  match g.go (ts.length + 1) 0 none ts with
  | some (t, []) => some t
  | _ => none

/-- The value of a text. -/
def value (M : Meaning A U B V) (ts : List (Token A U B)) : Option V := (g.parse ts).bind (·.eval M)

/-! ## Trees that keep the levels -/

/-- The text does not go on with an operator of level `m` or more. -/
def stops (m : Nat) : List (Token A U B) → Bool
  | .after u :: _ => g.after u < m
  | .between b :: _ => g.between b < m
  | .method b :: _ => g.method b < m
  | _ => true

/-- What follows the tree is not taken for a part of its last operand. -/
def follows (ts : List (Token A U B)) : Tree A U B → Bool
  | .before u _ => g.stops (g.before u) ts
  | .between b _ _ => g.stops (g.between b + 1) ts
  | _ => true

/-- The tree's operators have level `m` or more, and their operands bind more tightly. -/
def keeps (m : Nat) : Tree A U B → Bool
  | .atom _ => true
  | .paren t | .call _ t => keeps 0 t
  | .before u t => m ≤ g.before u && keeps (g.before u) t
  | .after u t =>
    m ≤ g.after u && keeps (g.after u) t && g.follows ([.after u] : List (Token A U B)) t
  | .between b l r =>
    m ≤ g.between b && keeps (g.between b) l
      && g.follows ([.between b] : List (Token A U B)) l && keeps (g.between b + 1) r
  | .method b l r =>
    m ≤ g.method b && keeps (g.method b) l
      && g.follows ([.method b] : List (Token A U B)) l && keeps 0 r

variable {g} {m n : Nat} {ts rest out : List (Token A U B)} {t l r res : Tree A U B}

/-- What stops a reader of one level stops one of a higher level. -/
theorem stops_mono (hmn : m ≤ n) (h : g.stops m ts = true) : g.stops n ts = true := by
  cases ts with
  | nil => rfl
  | cons tok ts =>
    cases tok with
    | after | between | method =>
      simp only [stops, decide_eq_true_eq] at h ⊢
      omega
    | _ => rfl

/-- A tree that keeps together at one level does so at a lower one. -/
theorem keeps_mono (hmn : m ≤ n) (h : g.keeps n t = true) : g.keeps m t = true := by
  cases t with
  | atom | paren | call => exact h
  | before | after | between | method =>
    simp only [keeps, Bool.and_eq_true, decide_eq_true_eq] at h ⊢
    refine ⟨?_, h.2⟩
    first | omega | exact ⟨by omega, h.1.2⟩ | exact ⟨⟨by omega, h.1.1.2⟩, h.1.2⟩

/-- Text that stops at a tree's level may follow it. -/
theorem follows_of_stops (hk : g.keeps m t = true) (hs : g.stops m ts = true) :
    g.follows ts t = true := by
  cases t with
  | before u t =>
    simp only [keeps, Bool.and_eq_true, decide_eq_true_eq] at hk
    exact stops_mono hk.1 hs
  | between b l r =>
    simp only [keeps, Bool.and_eq_true, decide_eq_true_eq] at hk
    exact stops_mono (Nat.le_succ_of_le hk.1.1.1) hs
  | _ => rfl

/-- Only the next token matters. -/
theorem follows_cons {tok : Token A U B} (h : g.follows [tok] t = true) :
    g.follows (tok :: ts) t = true := by
  cases t with
  | before | between =>
    unfold follows at h ⊢
    cases tok with
    | after | between | method => exact h
    | _ => rfl
  | _ => rfl

@[simp] theorem follows_closing : g.follows (.closing :: ts) t = true := by
  cases t <;> rfl

@[simp] theorem follows_nil : g.follows ([] : List (Token A U B)) t = true := by
  cases t <;> rfl

/-! ## Reading a tree back -/

/-- With fuel enough, `res` is read and `out` is left. -/
def Reads (g : Grammar U B) (m : Nat) (lhs : Option (Tree A U B)) (ts : List (Token A U B))
    (res : Tree A U B) (out : List (Token A U B)) : Prop :=
  ∀ fuel, ts.length < fuel → g.go fuel m lhs ts = some (res, out)

/-- A reader that is stopped has read its operand. -/
theorem reads_stop (h : g.stops m ts = true) : g.Reads m (some t) ts t ts := by
  intro fuel hf
  obtain ⟨fuel, rfl⟩ : ∃ k, fuel = k + 1 := ⟨fuel - 1, by omega⟩
  cases ts with
  | nil => rfl
  | cons tok ts =>
    cases tok with
    | after | between | method =>
      simp only [stops, decide_eq_true_eq] at h
      simp only [go, if_neg (Nat.not_le.mpr h)]
    | _ => rfl

/-- A reader without an operand takes an atom for one. -/
theorem reads_atom {a : A} (h : g.Reads m (some (.atom a)) ts res out) :
    g.Reads m none (.atom a :: ts) res out := by
  intro fuel hf
  obtain ⟨fuel, rfl⟩ : ∃ k, fuel = k + 1 := ⟨fuel - 1, by omega⟩
  exact h fuel (by simpa using hf)

/-- What stands between parentheses is read at the lowest level. -/
theorem reads_paren (hin : g.Reads 0 none (ts ++ .closing :: rest) t (.closing :: rest))
    (h : g.Reads m (some (.paren t)) rest res out) :
    g.Reads m none (.opening :: (ts ++ .closing :: rest)) res out := by
  intro fuel hf
  obtain ⟨fuel, rfl⟩ : ∃ k, fuel = k + 1 := ⟨fuel - 1, by omega⟩
  simp only [List.length_cons, List.length_append] at hf
  simp only [go, hin fuel (by simp only [List.length_append, List.length_cons]; omega)]
  exact h fuel (by omega)

/-- A call is read up to its closing parenthesis. -/
theorem reads_call {u : U} (hin : g.Reads 0 none (ts ++ .closing :: rest) t (.closing :: rest))
    (h : g.Reads m (some (.call u t)) rest res out) :
    g.Reads m none (.call u :: (ts ++ .closing :: rest)) res out := by
  intro fuel hf
  obtain ⟨fuel, rfl⟩ : ∃ k, fuel = k + 1 := ⟨fuel - 1, by omega⟩
  simp only [List.length_cons, List.length_append] at hf
  simp only [go, hin fuel (by simp only [List.length_append, List.length_cons]; omega)]
  exact h fuel (by omega)

/-- A prefix operator takes an operand of its own level. -/
theorem reads_before {u : U} (hin : g.Reads (g.before u) none (ts ++ rest) t rest)
    (h : g.Reads m (some (.before u t)) rest res out) :
    g.Reads m none (.before u :: (ts ++ rest)) res out := by
  intro fuel hf
  obtain ⟨fuel, rfl⟩ : ∃ k, fuel = k + 1 := ⟨fuel - 1, by omega⟩
  simp only [List.length_cons, List.length_append] at hf
  simp only [go, hin fuel (by simp only [List.length_append]; omega)]
  exact h fuel (by omega)

/-- A postfix operator takes the operand read so far. -/
theorem reads_after {u : U} (hm : m ≤ g.after u)
    (h : g.Reads m (some (.after u l)) rest res out) :
    g.Reads m (some l) (.after u :: rest) res out := by
  intro fuel hf
  obtain ⟨fuel, rfl⟩ : ∃ k, fuel = k + 1 := ⟨fuel - 1, by omega⟩
  simp only [go, if_pos hm]
  exact h fuel (by simpa using hf)

theorem reads_between {b : B} (hm : m ≤ g.between b)
    (hin : g.Reads (g.between b + 1) none (ts ++ rest) r rest)
    (h : g.Reads m (some (.between b l r)) rest res out) :
    g.Reads m (some l) (.between b :: (ts ++ rest)) res out := by
  intro fuel hf
  obtain ⟨fuel, rfl⟩ : ∃ k, fuel = k + 1 := ⟨fuel - 1, by omega⟩
  simp only [List.length_cons, List.length_append] at hf
  simp only [go, if_pos hm, hin fuel (by simp only [List.length_append]; omega)]
  exact h fuel (by omega)

theorem reads_method {b : B} (hm : m ≤ g.method b)
    (hin : g.Reads 0 none (ts ++ .closing :: rest) r (.closing :: rest))
    (h : g.Reads m (some (.method b l r)) rest res out) :
    g.Reads m (some l) (.method b :: (ts ++ .closing :: rest)) res out := by
  intro fuel hf
  obtain ⟨fuel, rfl⟩ : ∃ k, fuel = k + 1 := ⟨fuel - 1, by omega⟩
  simp only [List.length_cons, List.length_append] at hf
  simp only [go, if_pos hm, hin fuel (by simp only [List.length_append, List.length_cons]; omega)]
  exact h fuel (by omega)

/-- A tree that keeps the levels is read first, and then what follows it. -/
theorem reads_flatten (t : Tree A U B) :
    ∀ {m : Nat} {rest out : List (Token A U B)} {res : Tree A U B}, g.keeps m t = true →
      g.follows rest t = true → g.Reads m (some t) rest res out →
      g.Reads m none (t.flatten ++ rest) res out := by
  induction t with
  | atom a =>
    intro m rest out res _ _ h
    exact reads_atom h
  | paren t ih =>
    intro m rest out res hk _ h
    rw [Tree.flatten, List.cons_append, List.append_assoc]
    exact reads_paren (ih hk follows_closing (reads_stop rfl)) h
  | call u t ih =>
    intro m rest out res hk _ h
    rw [Tree.flatten, List.cons_append, List.append_assoc]
    exact reads_call (ih hk follows_closing (reads_stop rfl)) h
  | before u t ih =>
    intro m rest out res hk hf h
    simp only [keeps, Bool.and_eq_true] at hk
    rw [Tree.flatten, List.cons_append]
    exact reads_before (ih hk.2 (follows_of_stops hk.2 hf) (reads_stop hf)) h
  | after u t ih =>
    intro m rest out res hk _ h
    simp only [keeps, Bool.and_eq_true, decide_eq_true_eq] at hk
    rw [Tree.flatten, List.append_assoc]
    exact ih (keeps_mono hk.1.1 hk.1.2) (follows_cons hk.2) (reads_after hk.1.1 h)
  | between b l r ihl ihr =>
    intro m rest out res hk hf h
    simp only [keeps, Bool.and_eq_true, decide_eq_true_eq] at hk
    obtain ⟨⟨⟨hm, hl⟩, hfl⟩, hr⟩ := hk
    -- the right operand ends where an operator of the same level follows
    have hright : g.Reads (g.between b + 1) none (r.flatten ++ rest) r rest :=
      ihr hr (follows_of_stops hr hf) (reads_stop hf)
    rw [Tree.flatten, List.append_assoc]
    exact ihl (keeps_mono hm hl) (follows_cons hfl) (reads_between hm hright h)
  | method b l r ihl ihr =>
    intro m rest out res hk _ h
    simp only [keeps, Bool.and_eq_true, decide_eq_true_eq] at hk
    obtain ⟨⟨⟨hm, hl⟩, hfl⟩, hr⟩ := hk
    have hright := @ihr 0 (.closing :: rest) _ _ hr follows_closing (reads_stop rfl)
    rw [Tree.flatten, List.append_assoc, List.cons_append, List.append_assoc]
    exact ihl (keeps_mono hm hl) (follows_cons hfl) (reads_method hm hright h)

/-- **A text is read as the tree that keeps the levels.** -/
theorem parse_flatten (h : g.keeps 0 t = true) : g.parse t.flatten = some t := by
  have hreads := reads_flatten t h follows_nil (reads_stop rfl)
  rw [List.append_nil] at hreads
  simp only [parse, hreads _ (Nat.lt_succ_self _)]

theorem value_flatten (M : Meaning A U B V) (h : g.keeps 0 t = true) :
    g.value M t.flatten = t.eval M := by
  rw [value, parse_flatten h]
  rfl

end Grammar

end ProtoEmb.Lib

import Mathlib.Tactic.Common

/-!
# Runs that may fail

What is known when a computation in `Except` or `Option` succeeds: the first step of a
bind succeeded, an invariant of each step holds after a fold, and every result of a
`mapM` comes from an element. Two runs are `Consistent` if they have one result when both
succeed.
-/

namespace ProtoEmb.Lib

/-- A bind succeeds through its first step. -/
theorem bind_eq_ok {ε α β : Type} {x : Except ε α} {f : α → Except ε β} {b : β} :
    (x >>= f) = .ok b ↔ ∃ a, x = .ok a ∧ f a = .ok b := by
  cases x with
  | error e => exact ⟨fun h => (by cases h), fun ⟨a, h, _⟩ => (by cases h)⟩
  | ok a =>
    constructor
    · intro h
      exact ⟨a, rfl, h⟩
    · rintro ⟨a', h, hf⟩
      cases h
      exact hf

theorem pure_eq_ok {ε α : Type} {a b : α} : (pure a : Except ε α) = .ok b ↔ a = b :=
  ⟨fun h => (by cases h; rfl), fun h => (by rw [h]; rfl)⟩

/-- An invariant of every step holds after a fold that succeeds. -/
theorem foldlM_ok_of_step {ε α β : Type} {f : β → α → Except ε β} {P : β → Prop}
    (hstep : ∀ s a s', f s a = .ok s' → P s → P s') :
    ∀ (l : List α) {s s' : β}, l.foldlM f s = .ok s' → P s → P s' := by
  intro l
  induction l with
  | nil =>
    intro s s' h hs
    rw [List.foldlM_nil, pure_eq_ok] at h
    exact h ▸ hs
  | cons a l ih =>
    intro s s' h hs
    rw [List.foldlM_cons, bind_eq_ok] at h
    obtain ⟨s₁, hfirst, hrest⟩ := h
    exact ih hrest (hstep s a s₁ hfirst hs)

/-- A fold whose steps go through `f` goes through `f`. -/
theorem map_foldlM {m : Type → Type} [Monad m] [LawfulMonad m] {α σ τ : Type} {f : σ → τ}
    {F : σ → α → m σ} {G : τ → α → m τ} :
    ∀ (l : List α) (s : σ), (∀ a ∈ l, ∀ s, f <$> F s a = G (f s) a) →
      f <$> l.foldlM F s = l.foldlM G (f s) := by
  intro l
  induction l with
  | nil =>
    intro s _
    rw [List.foldlM_nil, List.foldlM_nil, map_pure]
  | cons a l ih =>
    intro s h
    rw [List.foldlM_cons, List.foldlM_cons, ← h a (List.mem_cons_self ..), map_bind,
      bind_map_left]
    congr 1
    funext s'
    exact ih s' fun b hb => h b (List.mem_cons_of_mem _ hb)

/-- Two folds whose steps correspond give corresponding results. -/
theorem foldlM_map {α σ τ : Type} {f : σ → τ} {F : σ → α → Option σ} {G : τ → α → Option τ}
    (l : List α) (s : σ) (h : ∀ a ∈ l, ∀ s, (F s a).map f = G (f s) a) :
    (l.foldlM F s).map f = l.foldlM G (f s) :=
  map_foldlM (m := Option) l s h

/-- The same for the results of every element. -/
theorem map_mapM {m : Type → Type} [Monad m] [LawfulMonad m] {α β β' : Type} {q : β → β'}
    {F : α → m β} {G : α → m β'} (h : ∀ a, q <$> F a = G a) (l : List α) :
    List.map q <$> l.mapM F = l.mapM G := by
  induction l with
  | nil => simp
  | cons a l ih =>
    rw [List.mapM_cons, List.mapM_cons, ← h, ← ih]
    simp [map_bind, bind_map_left]

/-- As many results as elements, each from one of them. -/
theorem mapM_ok {ε α β : Type} {f : α → Except ε β} :
    ∀ {l : List α} {r : List β}, l.mapM f = .ok r →
      r.length = l.length ∧ ∀ b ∈ r, ∃ a ∈ l, f a = .ok b := by
  intro l
  induction l with
  | nil =>
    intro r h
    rw [List.mapM_nil, pure_eq_ok] at h
    subst h
    exact ⟨rfl, fun b hb => absurd hb List.not_mem_nil⟩
  | cons a l ih =>
    intro r h
    rw [List.mapM_cons, bind_eq_ok] at h
    obtain ⟨b, hb, h⟩ := h
    rw [bind_eq_ok] at h
    obtain ⟨bs, hbs, h⟩ := h
    rw [pure_eq_ok] at h
    subst h
    obtain ⟨hlen, hall⟩ := ih hbs
    refine ⟨by rw [List.length_cons, List.length_cons, hlen], ?_⟩
    intro x hx
    rcases List.mem_cons.mp hx with rfl | hx
    · exact ⟨a, List.mem_cons_self .., hb⟩
    · obtain ⟨y, hy, hfy⟩ := hall x hx
      exact ⟨y, List.mem_cons_of_mem _ hy, hfy⟩

/-- The results of a `mapM` stand where their elements do. -/
theorem mapM_ok_getElem? {ε α β : Type} {f : α → Except ε β} :
    ∀ {l : List α} {r : List β}, l.mapM f = .ok r →
      ∀ {i : Nat} {a : α} {b : β}, l[i]? = some a → r[i]? = some b → f a = .ok b := by
  intro l
  induction l with
  | nil =>
    intro r h i a b ha
    rw [List.getElem?_nil] at ha
    cases ha
  | cons x l ih =>
    intro r h i a b ha hb
    rw [List.mapM_cons, bind_eq_ok] at h
    obtain ⟨y, hy, h⟩ := h
    rw [bind_eq_ok] at h
    obtain ⟨ys, hys, h⟩ := h
    rw [pure_eq_ok] at h
    subst h
    cases i with
    | zero =>
      cases ha
      cases hb
      exact hy
    | succ i => exact ih hys ha hb

/-! ## Two runs -/

/-- If both succeed, they have the same result. -/
def Consistent {ε α : Type} (x y : Except ε α) : Prop := ∀ a b, x = .ok a → y = .ok b → b = a

/-- One run is consistent with itself. -/
theorem Consistent.of_eq {ε α : Type} {x y : Except ε α} (h : y = x) : Consistent x y := by
  subst h
  intro a b ha hb
  exact Except.ok.inj (hb.symm.trans ha)

/-- Consistent first steps and consistent continuations. -/
theorem Consistent.bind {ε α β : Type} {x y : Except ε α} {f g : α → Except ε β}
    (hx : Consistent x y) (hf : ∀ a, x = .ok a → Consistent (f a) (g a)) :
    Consistent (x >>= f) (y >>= g) := by
  intro b c hb hc
  obtain ⟨a, ha, hb⟩ := bind_eq_ok.mp hb
  obtain ⟨a', ha', hc⟩ := bind_eq_ok.mp hc
  cases hx a a' ha ha'
  exact hf a ha b c hb hc

/-- Element by element. -/
theorem Consistent.mapM {ε α β : Type} {f g : α → Except ε β} :
    ∀ (l : List α), (∀ a ∈ l, Consistent (f a) (g a)) → Consistent (l.mapM f) (l.mapM g) := by
  intro l
  induction l with
  | nil => intro _; exact .of_eq rfl
  | cons a l ih =>
    intro h
    rw [List.mapM_cons, List.mapM_cons]
    refine (h a (List.mem_cons_self ..)).bind fun b _ => ?_
    exact (ih fun x hx => h x (List.mem_cons_of_mem _ hx)).bind fun bs _ => .of_eq rfl

/-- Two runs that succeed together, with results related by `F` and `G`, still do after
their results are combined. -/
theorem map_bind_together {α β γ α' β' γ' : Type} {a : Option α} {b : Option β}
    {x : Option α'} {y : Option β'} {F : α → Option α'} {G : β → Option β'}
    {H : γ → Option γ'} {k : α → β → γ} {l : α' → β' → γ'}
    (ha : a.map F = x.map some) (hb : b.map G = y.map some)
    (hk : ∀ {p q p' q'}, F p = some p' → G q = some q' → H (k p q) = some (l p' q')) :
    (a.bind fun p => b.bind fun q => some (k p q)).map H
      = (x.bind fun p => y.bind fun q => some (l p q)).map some := by
  cases a with
  | none =>
    cases x with
    | none => rfl
    | some x => cases ha
  | some a =>
    cases x with
    | none => cases ha
    | some x =>
      cases b with
      | none =>
        cases y with
        | none => rfl
        | some y => cases hb
      | some b =>
        cases y with
        | none => cases hb
        | some y =>
          simp only [Option.map_some, Option.some.injEq] at ha hb
          simp only [Option.bind_some, Option.map_some, hk ha hb]

end ProtoEmb.Lib

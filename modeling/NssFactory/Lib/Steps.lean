import Mathlib.Data.List.Basic

/-!
# Step relations and their runs

`Path step c labels c'` says that the labelled steps `labels` lead from `c` to `c'`. The rule
`Path.invariant` is the only induction over runs that the developments above need: what each
step keeps, every run keeps. `Path.foldl` and `Path.project` are the same rule for a program
that follows the run, and for a part of the state.
-/

namespace NssFactory

/-- The labelled steps of a list, one after the other. -/
inductive Path {γ ν : Type*} (step : γ → ν → γ → Prop) : γ → List ν → γ → Prop
  | nil (c : γ) : Path step c [] c
  | cons {c c' c'' : γ} {v : ν} {vs : List ν} :
      step c v c' → Path step c' vs c'' → Path step c (v :: vs) c''

namespace Path

variable {γ ν : Type*} {step : γ → ν → γ → Prop} {c c' c'' : γ} {v : ν} {vs ws : List ν}

theorem append (h : Path step c vs c') (h' : Path step c' ws c'') :
    Path step c (vs ++ ws) c'' := by
  induction h with
  | nil => exact h'
  | cons hs _ ih => exact .cons hs (ih h')

/-- Every label of a run is a step between two states on the way. -/
theorem split (h : Path step c (vs ++ v :: ws) c'') :
    ∃ b b', Path step c vs b ∧ step b v b' ∧ Path step b' ws c'' := by
  induction vs generalizing c with
  | nil =>
    cases h with
    | cons hs hr => exact ⟨_, _, .nil _, hs, hr⟩
  | cons u us ih =>
    cases h with
    | cons hs hr =>
      obtain ⟨b, b', hb, hv, hw⟩ := ih hr
      exact ⟨b, b', .cons hs hb, hv, hw⟩

theorem invariant {P : γ → Prop} (h : Path step c vs c') (start : P c)
    (keeps : ∀ a v b, step a v b → P a → P b) : P c' := by
  induction h with
  | nil => exact start
  | cons hs _ ih => exact ih (keeps _ _ _ hs start)

theorem mono {step' : γ → ν → γ → Prop} (h : Path step c vs c')
    (hstep : ∀ a v b, step a v b → step' a v b) : Path step' c vs c' := by
  induction h with
  | nil => exact .nil _
  | cons hs _ ih => exact .cons (hstep _ _ _ hs) ih

/-- The run of a step function. -/
theorem of_foldlM {f : γ → ν → Option γ} (h : vs.foldlM f c = some c') :
    Path (fun a v b => f a v = some b) c vs c' := by
  induction vs generalizing c with
  | nil =>
    cases h
    exact .nil _
  | cons v vs ih =>
    rw [List.foldlM_cons] at h
    obtain ⟨b, hb, hrest⟩ := Option.bind_eq_some_iff.mp h
    exact .cons hb (ih hrest)

/-- The same rule for a program that cannot fail. -/
theorem foldl {σ : Type*} {P : γ → σ → Prop} {run : σ → ν → σ} {s : σ}
    (h : Path step c vs c') (start : P c s)
    (round : ∀ a v b s, step a v b → P a s → P b (run s v)) : P c' (vs.foldl run s) := by
  induction h generalizing s with
  | nil => exact start
  | cons hs _ ih => exact ih (round _ _ _ s hs start)

/-- What a run looks like to a part of the state: the labels that concern the part, in turn.
What the states on the way have in common may be used. -/
theorem project {σ μ : Type*} {step' : σ → μ → σ → Prop} {f : γ → σ} {g : ν → Option μ}
    {P : γ → Prop} (h : Path step c vs c') (start : P c) (keeps : ∀ a v b, step a v b → P a → P b)
    (moves : ∀ a v b, step a v b → P a →
      (∀ u, g v = some u → step' (f a) u (f b)) ∧ (g v = none → f b = f a)) :
    Path step' (f c) (vs.filterMap g) (f c') := by
  induction h with
  | nil => exact .nil _
  | @cons a b _ v vs hs _ ih =>
    obtain ⟨hsome, hnone⟩ := moves _ _ _ hs start
    have hrest := ih (keeps _ _ _ hs start)
    cases hv : g v with
    | none =>
      rw [List.filterMap_cons_none hv, ← hnone hv]
      exact hrest
    | some u =>
      rw [List.filterMap_cons_some hv]
      exact .cons (hsome u hv) hrest

/-- A counter `m` that each step raises to the new `f` where that is more holds the largest `f`
of the states on the way. -/
theorem peak {P : γ → Prop} {f m : γ → Nat} (h : Path step c vs c') (hstart : P c)
    (hm : f c = m c) (keeps : ∀ a v b, step a v b → P a → P b)
    (raise : ∀ a v b, step a v b → P a → f a ≤ m a → m b = max (m a) (f b)) :
    (∀ us ws a, vs = us ++ ws → Path step c us a → Path step a ws c' → f a ≤ m c') ∧
      ∃ us ws a, vs = us ++ ws ∧ Path step c us a ∧ Path step a ws c' ∧ f a = m c' := by
  have hle : ∀ {a b us}, Path step a us b → P a → f a ≤ m a → P b ∧ f b ≤ m b ∧ m a ≤ m b := by
    intro a b us hp
    induction hp with
    | nil => exact fun ha hfa => ⟨ha, hfa, Nat.le_refl _⟩
    | cons hs _ ih =>
      intro ha hfa
      have hmb := raise _ _ _ hs ha hfa
      obtain ⟨hb, hfb, hmono⟩ := ih (keeps _ _ _ hs ha) (by omega)
      exact ⟨hb, hfb, by omega⟩
  have hreach : ∀ {a b us}, Path step a us b → P a → f a ≤ m a → m b = m a ∨
      ∃ us' ws d, us = us' ++ ws ∧ Path step a us' d ∧ Path step d ws b ∧ f d = m b := by
    intro a b us hp
    induction hp with
    | nil => exact fun _ _ => .inl rfl
    | @cons a a₁ b v us hs hrest ih =>
      intro ha hfa
      have hmb := raise _ _ _ hs ha hfa
      rcases ih (keeps _ _ _ hs ha) (by omega) with hsame | ⟨us', ws, d, rfl, hd, hw, hfd⟩
      · rcases Nat.le_total (m a) (f a₁) with hup | hup
        · exact .inr ⟨[v], us, a₁, rfl, .cons hs (.nil _), hrest, by omega⟩
        · exact .inl (by omega)
      · exact .inr ⟨v :: us', ws, d, rfl, .cons hs hd, hw, hfd⟩
  refine ⟨fun us ws a _ hus hws => ?_, ?_⟩
  · obtain ⟨ha, hfa, -⟩ := hle hus hstart (Nat.le_of_eq hm)
    obtain ⟨-, -, hmono⟩ := hle hws ha hfa
    omega
  · rcases hreach h hstart (Nat.le_of_eq hm) with hsame | hfound
    · exact ⟨[], vs, c, rfl, .nil _, h, by omega⟩
    · exact hfound

end Path

end NssFactory

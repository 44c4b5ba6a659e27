import Mathlib.Data.List.Induction

/-!
# Traces

A trace is the list of what a program has done, in order. `Guarded P t` says that every event
of `t` is one that `P` permits after the events before it: how a rule about the order of events
is kept by a program that only ever appends.
-/

namespace NssFactory

variable {ε : Type*} {P Q : List ε → ε → Prop} {t : List ε} {e : ε}

/-- Every event of the trace is permitted after the events before it. -/
def Guarded (P : List ε → ε → Prop) (t : List ε) : Prop :=
  ∀ pre e post, t = pre ++ e :: post → P pre e

theorem guarded_nil : Guarded P [] := by
  intro pre e post h
  exact absurd h.symm (List.append_ne_nil_of_right_ne_nil pre (List.cons_ne_nil e post))

theorem Guarded.snoc (h : Guarded P t) (he : P t e) : Guarded P (t ++ [e]) := by
  intro pre x post hx
  rcases List.eq_nil_or_concat post with rfl | ⟨post, y, rfl⟩
  · obtain ⟨rfl, hlast⟩ := List.append_inj' hx rfl
    obtain rfl : e = x := by simpa using hlast
    exact he
  · rw [List.concat_eq_append, ← List.cons_append, ← List.append_assoc] at hx
    exact h pre x post (List.append_inj_left' hx rfl)

/-- Several events at once, each permitted after those before it. -/
theorem Guarded.append {es : List ε} (h : Guarded P t)
    (hes : ∀ pre e post, es = pre ++ e :: post → P (t ++ pre) e) : Guarded P (t ++ es) := by
  induction es generalizing t with
  | nil =>
    rw [List.append_nil]
    exact h
  | cons e es ih =>
    have hsnoc : Guarded P (t ++ [e]) := h.snoc (by simpa using hes [] e es rfl)
    have hrest : Guarded P (t ++ [e] ++ es) := by
      apply ih hsnoc
      rintro pre x post rfl
      simpa using hes (e :: pre) x post rfl
    simpa using hrest

/-- Two events of one kind, in the order of the trace. -/
theorem Guarded.pairwise {β : Type*} {R : β → β → Prop} {f : ε → Option β} (h : Guarded P t)
    (hR : ∀ pre e b, P pre e → f e = some b → ∀ a ∈ pre.filterMap f, R a b) :
    (t.filterMap f).Pairwise R := by
  induction t using List.reverseRecOn with
  | nil => exact .nil
  | append_singleton t e ih =>
    have hbefore : (t.filterMap f).Pairwise R :=
      ih fun pre x post hx => h pre x (post ++ [e]) (by rw [hx]; simp)
    rw [List.filterMap_append]
    cases hb : f e with
    | none => simpa [hb] using hbefore
    | some b =>
      have hlast := hR t e b (h t e [] rfl) hb
      simp only [List.filterMap_cons, hb, List.filterMap_nil]
      exact List.pairwise_append.mpr ⟨hbefore, List.pairwise_singleton _ _, by simpa using hlast⟩

/-- An event that may not follow another does not. -/
theorem Guarded.not_after {a : ε} (h : Guarded P t) {pre post : List ε} (ht : t = pre ++ a :: post)
    (he : e ∈ post) (hP : ∀ before, P before e → a ∉ before) : False := by
  obtain ⟨mid, rest, rfl⟩ := List.append_of_mem he
  have hpermitted := h (pre ++ a :: mid) e rest (by rw [ht]; simp)
  exact hP _ hpermitted (by simp)

end NssFactory

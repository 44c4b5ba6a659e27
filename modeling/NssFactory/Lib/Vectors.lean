import Mathlib.Data.Rat.Defs
import Mathlib.Logic.Function.Basic
import NssFactory.Lib.Tiles

/-!
# Vectors of independent lanes

A program that works on `N` problems at once keeps a vector `Fin N → D` where the program for one of
them has a `D`. `Arith.lanes` is the arithmetic of vectors, lane by lane; `lane l` reads one lane of
a matrix of vectors, and a loop that writes such a matrix is, in a lane, the loop over its elements
(`foldl_read` with `lane_put`).

What a lane does not take part in is masked (`select`). A loop that runs until no lane goes on
(`sweeps`) does, in each lane, what the loop of that lane alone does, if a lane that is done stays as
it is: `sweeps_lane`.
-/

namespace NssFactory.Vectors

variable {D E : Type} {N : Nat}

/-- Arithmetic that is left open. -/
structure Arith (D : Type) where
  zero : D
  lit : ℚ → D
  add : D → D → D
  sub : D → D → D
  mul : D → D → D
  div : D → D → D
  mulAdd : D → D → D → D
  negMulAdd : D → D → D → D
  neg : D → D
  abs : D → D
  sqrt : D → D
  copySign : D → D → D
  max : D → D → D

namespace Arith

def one (a : Arith D) : D := a.lit 1

/-- The arithmetic of vectors. -/
def lanes (a : Arith D) (N : Nat) : Arith (Fin N → D) where
  zero _ := a.zero
  lit q _ := a.lit q
  add x y l := a.add (x l) (y l)
  sub x y l := a.sub (x l) (y l)
  mul x y l := a.mul (x l) (y l)
  div x y l := a.div (x l) (y l)
  mulAdd x y z l := a.mulAdd (x l) (y l) (z l)
  negMulAdd x y z l := a.negMulAdd (x l) (y l) (z l)
  neg x l := a.neg (x l)
  abs x l := a.abs (x l)
  sqrt x l := a.sqrt (x l)
  copySign x y l := a.copySign (x l) (y l)
  max x y l := a.max (x l) (y l)

end Arith

/-- Floats with their comparisons. -/
structure Floats (D : Type) extends Arith D where
  lt : D → D → Bool
  le : D → D → Bool
  eq : D → D → Bool
  isFinite : D → Bool

/-- `std::max` -/
def Floats.stdMax (o : Floats D) (x y : D) : D := if o.lt x y then y else x

/-- Arithmetic with masks: a program over a `Machine` is one for values, and in lanes one for vectors. -/
structure Machine (E M : Type) extends Arith E where
  gt : E → E → M
  ge : E → E → M
  and : M → M → M
  or : M → M → M
  select : M → E → E → E

namespace Floats

def machine (o : Floats D) : Machine D Bool where
  toArith := o.toArith
  gt x y := o.lt y x
  ge x y := o.le y x
  and b b' := b && b'
  or b b' := b || b'
  select b x y := if b then x else y

/-- Every lane on its own. -/
def lanes (o : Floats D) (N : Nat) : Machine (Fin N → D) (Fin N → Bool) where
  toArith := o.toArith.lanes N
  gt x y l := o.lt (y l) (x l)
  ge x y l := o.le (y l) (x l)
  and b b' l := b l && b' l
  or b b' l := b l || b' l
  select b x y l := if b l then x l else y l

end Floats

/-! ## Masks -/

/-- `IfThenElse` -/
def select (mask : Fin N → Bool) (x y : Fin N → D) : Fin N → D := fun l => if mask l then x l else y l

section Select

variable {mask : Fin N → Bool} {x y : Fin N → D} {l : Fin N}

@[simp] theorem select_on (h : mask l = true) : select mask x y l = x l := if_pos h

@[simp] theorem select_off (h : mask l = false) : select mask x y l = y l := by simp [select, h]

end Select

/-! ## Matrices -/

abbrev Mat (E : Type) := Nat → Nat → E

def put (a : Mat E) (i j : Nat) (x : E) : Mat E := fun i' j' => if i' = i ∧ j' = j then x else a i' j'

/-- One lane of a matrix of vectors. -/
def lane (l : Fin N) (a : Mat (Fin N → D)) : Mat D := fun i j => a i j l

section Put

variable {a : Mat E} {i j : Nat} {x : E}

theorem put_column {i' j' : Nat} (h : j' ≠ j) : put a i j x i' j' = a i' j' := if_neg fun hno => h hno.2

/-- What is there already. -/
@[simp] theorem put_same : put a i j (a i j) = a := by
  funext i' j'
  unfold put
  split
  · rename_i h
    rw [h.1, h.2]
  · rfl

theorem put_eq (h : x = a i j) : put a i j x = a := by
  subst h
  exact put_same

end Put

/-- The elements in a block of rows and columns, each from what it was. -/
def mapBlock (top bottom left right : Nat) (f : Nat → Nat → E → E) (a : Mat E) : Mat E :=
  fun i j => if top ≤ i ∧ i < bottom ∧ left ≤ j ∧ j < right then f i j (a i j) else a i j

section Lane

variable {a : Mat (Fin N → D)} {i j : Nat} {x : Fin N → D} {l : Fin N}

@[simp] theorem lane_apply : lane l a i j = a i j l := rfl

@[simp] theorem lane_put : lane l (put a i j x) = put (lane l a) i j (x l) := by
  funext i' j'
  unfold lane put
  split <;> rfl

end Lane

/-! ## Loops -/

/-- The counter of `for (i = lo; i < hi; ++i)`. -/
def indices (lo hi : Nat) : List Nat := List.range' lo (hi - lo)

theorem mem_indices {lo hi i : Nat} : i ∈ indices lo hi ↔ lo ≤ i ∧ i < hi := by
  unfold indices
  rw [List.mem_range'_1]
  omega

/-- A loop that adds products. -/
def products (a : Arith E) (l : List Nat) (f g : Nat → E) (first : E) : E :=
  l.foldl (fun s i => a.add s (a.mul (f i) (g i))) first

theorem products_lane {a : Arith D} {is : List Nat} {f g : Nat → Fin N → D} {first : Fin N → D} {l : Fin N} :
    products (a.lanes N) is f g first l = products a is (fun i => f i l) (fun i => g i l) (first l) :=
  Tiles.foldl_at (fun l s i => a.add s (a.mul (f i l) (g i l))) first is l

/-- What a loop does to a part of the state, where each round does it to that part. -/
theorem foldl_read {α σ τ : Type} {read : σ → τ} {f : σ → α → σ} {g : τ → α → τ} {l : List α} {s : σ}
    (h : ∀ s, ∀ x ∈ l, read (f s x) = g (read s) x) : read (l.foldl f s) = l.foldl g (read s) := by
  induction l generalizing s with
  | nil => rfl
  | cons x l ih =>
    rw [List.foldl_cons, List.foldl_cons, ← h s x List.mem_cons_self]
    exact ih fun s y hy => h s y (List.mem_cons_of_mem _ hy)

/-- Rounds that write one column. -/
theorem foldl_put_column {a : Mat E} {is : List Nat} {i' j j' : Nat} {f : Mat E → Nat → E} (h : j' ≠ j) :
    is.foldl (fun a i => put a i j (f a i)) a i' j' = a i' j' := by
  induction is generalizing a with
  | nil => rfl
  | cons i is ih => rw [List.foldl_cons, ih, put_column h]

/-- Every round of a loop changes what is its own. -/
theorem foldl_own {κ σ τ : Type} {f : σ → κ → σ} (read : κ → σ → τ) {g : κ → τ → τ}
    (hown : ∀ s q, read q (f s q) = g q (read q s)) (hoff : ∀ s q q', q' ≠ q → read q (f s q') = read q s)
    {l : List κ} (hnodup : l.Nodup) {q : κ} (hq : q ∈ l) (s : σ) :
    read q (l.foldl f s) = g q (read q s) := by
  have hrest : ∀ l : List κ, q ∉ l → ∀ s, read q (l.foldl f s) = read q s := by
    intro l
    induction l with
    | nil => exact fun _ _ => rfl
    | cons q' l ih =>
      intro h s
      rw [List.foldl_cons, ih fun hl => h (List.mem_cons_of_mem _ hl)]
      exact hoff s q q' fun heq => h (heq ▸ List.mem_cons_self)
  induction l generalizing s with
  | nil => cases hq
  | cons q' l ih =>
    obtain ⟨hfirst, hl⟩ := List.nodup_cons.mp hnodup
    rw [List.foldl_cons]
    cases List.mem_cons.mp hq with
    | inl heq =>
      subst heq
      rw [hrest l hfirst, hown]
    | inr hmem =>
      have hne : q' ≠ q := fun heq => hfirst (heq ▸ hmem)
      rw [ih hl hmem, hoff s q q' hne]

/-- A loop in which each lane changes its own element, `start + l`. -/
theorem foldl_lanes {α : Type} {start real : Nat} {f : Fin N → α → α} (work : Nat → α) (l : Fin N) :
    (List.finRange N).foldl (fun work (l : Fin N) =>
      if l.val < real then Function.update work (start + l) (f l (work (start + l))) else work) work (start + l) =
      if l.val < real then f l (work (start + l)) else work (start + l) := by
  refine foldl_own (fun (l : Fin N) (work : Nat → α) => work (start + l))
    (g := fun l y => if l.val < real then f l y else y) (fun work l => ?_) (fun work l l' hne => ?_)
    (List.nodup_finRange N) (List.mem_finRange l) work
  · split
    · rw [Function.update_self]
    · rfl
  · have hne' : start + l.val ≠ start + l'.val := fun h => hne (Fin.ext (by omega))
    split
    · rw [Function.update_of_ne hne']
    · rfl

theorem foldl_lanes_off {α : Type} {start real g : Nat} {f : Fin N → α → α} (work : Nat → α)
    (h : g < start ∨ start + N ≤ g) :
    (List.finRange N).foldl (fun work (l : Fin N) =>
      if l.val < real then Function.update work (start + l) (f l (work (start + l))) else work) work g = work g := by
  induction List.finRange N generalizing work with
  | nil => rfl
  | cons l ls ih =>
    rw [List.foldl_cons, ih]
    have hne : g ≠ start + l.val := by omega
    split
    · rw [Function.update_of_ne hne]
    · rfl

/-- A loop whose rounds change nothing. -/
theorem foldl_same {α σ : Type} {f : σ → α → σ} {l : List α} {s : σ} (h : ∀ x ∈ l, f s x = s) :
    l.foldl f s = s := by
  induction l with
  | nil => rfl
  | cons x l ih =>
    rw [List.foldl_cons, h x List.mem_cons_self]
    exact ih fun y hy => h y (List.mem_cons_of_mem _ hy)

theorem foldl_keeps {α σ : Type} {P : σ → Prop} {f : σ → α → σ} {l : List α} {s : σ}
    (h : ∀ s, ∀ x ∈ l, P s → P (f s x)) (start : P s) : P (l.foldl f s) := by
  induction l generalizing s with
  | nil => exact start
  | cons x l ih =>
    exact ih (fun s y hy => h s y (List.mem_cons_of_mem _ hy)) (h s x List.mem_cons_self start)

/-- What one round brings about and every round keeps. -/
theorem foldl_reaches {α σ : Type} {P : σ → Prop} {f : σ → α → σ} {l : List α} {x : α} (hx : x ∈ l)
    (hkeep : ∀ s, ∀ y ∈ l, P s → P (f s y)) (hbring : ∀ s, P (f s x)) (s : σ) : P (l.foldl f s) := by
  induction l generalizing s with
  | nil => cases hx
  | cons y l ih =>
    have hrest : ∀ s, ∀ z ∈ l, P s → P (f s z) := fun s z hz => hkeep s z (List.mem_cons_of_mem _ hz)
    rw [List.foldl_cons]
    cases List.mem_cons.mp hx with
    | inl heq =>
      subst heq
      exact foldl_keeps hrest (hbring s)
    | inr hmem => exact ih hmem hrest (f s y)

/-- A loop that carries a relation to another one. -/
theorem foldl_related {α σ τ : Type} {R : σ → τ → Prop} {f : σ → α → σ} {g : τ → α → τ} {l : List α}
    (h : ∀ x ∈ l, ∀ s t, R s t → R (f s x) (g t x)) {s : σ} {t : τ} (start : R s t) :
    R (l.foldl f s) (l.foldl g t) := by
  induction l generalizing s t with
  | nil => exact start
  | cons x l ih =>
    have hx := h x List.mem_cons_self s t start
    exact ih (fun y hy => h y (List.mem_cons_of_mem _ hy)) hx

/-! ## Loops that a `return false` leaves -/

section Until

variable {α σ : Type} {f : σ → α → σ × Bool} {l : List α} {s : σ}

/-- The state where the loop ends, and whether it came to its end. -/
def untilFalse (f : σ → α → σ × Bool) (l : List α) (s : σ) : σ × Bool :=
  l.foldl (fun r x => if r.2 then f r.1 x else r) (s, true)

theorem foldl_left (l : List α) (s : σ) :
    l.foldl (fun r x => if r.2 then f r.1 x else r) (s, false) = (s, false) :=
  foldl_same fun _ _ => rfl

theorem untilFalse_cons (x : α) (l : List α) (s : σ) :
    untilFalse f (x :: l) s = if (f s x).2 then untilFalse f l (f s x).1 else f s x := by
  unfold untilFalse
  rw [List.foldl_cons, if_pos rfl]
  obtain ⟨t, ok⟩ := f s x
  cases ok with
  | true => rfl
  | false => exact foldl_left l t

/-- What every round keeps, also the one that returns. -/
theorem untilFalse_keeps {P : σ → Prop} (h : ∀ s, ∀ x ∈ l, P s → P (f s x).1) (start : P s) :
    P (untilFalse f l s).1 := by
  induction l generalizing s with
  | nil => exact start
  | cons x l ih =>
    have hx := h s x List.mem_cons_self start
    rw [untilFalse_cons]
    split
    · exact ih (fun s y hy => h s y (List.mem_cons_of_mem _ hy)) hx
    · exact hx

/-- Where it does not depend on the state whether a round returns. -/
theorem untilFalse_ok {q : α → Bool} (h : ∀ s, ∀ x ∈ l, (f s x).2 = q x) (s : σ) :
    (untilFalse f l s).2 = l.all q := by
  induction l generalizing s with
  | nil => rfl
  | cons x l ih =>
    rw [untilFalse_cons, List.all_cons, ← h s x List.mem_cons_self]
    cases hx : (f s x).2 with
    | true =>
      rw [if_pos rfl, Bool.true_and]
      exact ih (fun s y hy => h s y (List.mem_cons_of_mem _ hy)) _
    | false => rw [if_neg Bool.false_ne_true, Bool.false_and, hx]

/-- What the rounds keep after which the loop goes on. -/
theorem untilFalse_holds {P : σ → Prop} (hkeep : ∀ s, ∀ y ∈ l, (f s y).2 = true → P s → P (f s y).1) (start : P s)
    (h : (untilFalse f l s).2 = true) : P (untilFalse f l s).1 := by
  induction l generalizing s with
  | nil => exact start
  | cons y l ih =>
    rw [untilFalse_cons] at h ⊢
    cases hy : (f s y).2 with
    | true =>
      rw [hy, if_pos rfl] at h
      rw [if_pos rfl]
      exact ih (fun s z hz => hkeep s z (List.mem_cons_of_mem _ hz)) (hkeep s y List.mem_cons_self hy start) h
    | false =>
      rw [hy, if_neg Bool.false_ne_true, hy] at h
      cases h

/-- What one round brings about and the others keep. -/
theorem untilFalse_reaches {P : σ → Prop} {x : α} (hx : x ∈ l)
    (hkeep : ∀ s, ∀ y ∈ l, (f s y).2 = true → P s → P (f s y).1)
    (hbring : ∀ s, (f s x).2 = true → P (f s x).1) (h : (untilFalse f l s).2 = true) : P (untilFalse f l s).1 := by
  induction l generalizing s with
  | nil => cases hx
  | cons y l ih =>
    rw [untilFalse_cons] at h ⊢
    have hrest : ∀ s, ∀ z ∈ l, (f s z).2 = true → P s → P (f s z).1 :=
      fun s z hz => hkeep s z (List.mem_cons_of_mem _ hz)
    cases hy : (f s y).2 with
    | true =>
      rw [hy, if_pos rfl] at h
      rw [if_pos rfl]
      cases List.mem_cons.mp hx with
      | inl heq =>
        subst heq
        exact untilFalse_holds hrest (hbring s hy) h
      | inr hmem => exact ih hmem hrest h
    | false =>
      rw [hy, if_neg Bool.false_ne_true, hy] at h
      cases h

/-- A loop that comes to its end. -/
theorem untilFalse_run (h : (untilFalse f l s).2 = true) :
    (untilFalse f l s).1 = l.foldl (fun s x => (f s x).1) s := by
  induction l generalizing s with
  | nil => rfl
  | cons x l ih =>
    rw [untilFalse_cons] at h ⊢
    rw [List.foldl_cons]
    cases hx : (f s x).2 with
    | true =>
      rw [hx, if_pos rfl] at h
      rw [if_pos rfl]
      exact ih h
    | false =>
      rw [hx, if_neg Bool.false_ne_true, hx] at h
      cases h

end Until

/-! ## Loops in whole vectors, then element by element -/

section Runs

variable {σ : Type} {lo hi : Nat}

theorem foldl_vectors {f : σ → Nat → σ} (h : lo ≤ hi) (s : σ) :
    (List.range' (Tiles.stop N lo hi) (hi - Tiles.stop N lo hi)).foldl f
      ((Tiles.starts N lo hi).foldl (fun s i => (List.finRange N).foldl (fun s (l : Fin N) => f s (i + l)) s) s) =
      (List.range' lo (hi - lo)).foldl f s := by
  have hvectors : (Tiles.starts N lo hi).foldl (fun s i => (List.finRange N).foldl
      (fun s (l : Fin N) => f s (i + l)) s) s = (List.range' lo (Tiles.stop N lo hi - lo)).foldl f s := by
    rw [← Tiles.starts_flatMap, List.foldl_flatMap]
    congr 1
    funext s i
    rw [Tiles.range'_eq_finRange, List.foldl_map]
  rw [hvectors, ← List.foldl_append, Tiles.range_tiles Tiles.le_stop (Tiles.stop_le h)]

theorem foldlM_flatMap {α β : Type} {f : σ → β → Option σ} {g : α → List β} (l : List α) (s : σ) :
    (l.flatMap g).foldlM f s = l.foldlM (fun s x => (g x).foldlM f s) s := by
  induction l generalizing s with
  | nil => rfl
  | cons x l ih =>
    rw [List.flatMap_cons, List.foldlM_append, List.foldlM_cons]
    congr 1
    funext s'
    exact ih s'

theorem foldlM_vectors {f : σ → Nat → Option σ} (h : lo ≤ hi) (s : σ) :
    ((Tiles.starts N lo hi).foldlM (fun s i => (List.finRange N).foldlM (fun s (l : Fin N) => f s (i + l)) s) s).bind
      (fun s => (List.range' (Tiles.stop N lo hi) (hi - Tiles.stop N lo hi)).foldlM f s) =
      (List.range' lo (hi - lo)).foldlM f s := by
  have hvectors : (Tiles.starts N lo hi).foldlM (fun s i => (List.finRange N).foldlM
      (fun s (l : Fin N) => f s (i + l)) s) s = (List.range' lo (Tiles.stop N lo hi - lo)).foldlM f s := by
    rw [← Tiles.starts_flatMap, foldlM_flatMap]
    congr 1
    funext s i
    rw [Tiles.range'_eq_finRange, List.foldlM_map]
  rw [hvectors, ← Tiles.range_tiles Tiles.le_stop (Tiles.stop_le h), List.foldlM_append]
  rfl

end Runs

/-! ## Sweeps -/

/-- `for (n rounds) { step; if (!again) break; }` -/
def sweeps {σ : Type} (step : σ → σ × Bool) : Nat → σ → σ
  | 0, s => s
  | n + 1, s => if (step s).2 then sweeps step n (step s).1 else (step s).1

section Sweeps

variable {σ τ : Type} {step : σ → σ × Bool} {vstep : τ → τ × Bool} {read : τ → σ}

theorem sweeps_fixed {s : σ} (h : step s = (s, false)) (n : Nat) : sweeps step n s = s := by
  cases n with
  | zero => rfl
  | succ n => simp [sweeps, h]

/-- A lane ends as it does alone, also where the others go on for longer: a sweep after the last one
leaves it as it is. -/
theorem sweeps_lane (hread : ∀ t, read (vstep t).1 = (step (read t)).1)
    (hagain : ∀ t, (step (read t)).2 = true → (vstep t).2 = true)
    (hstop : ∀ s, (step s).2 = false → step (step s).1 = ((step s).1, false)) (n : Nat) (t : τ) :
    read (sweeps vstep n t) = sweeps step n (read t) := by
  induction n generalizing t with
  | zero => rfl
  | succ n ih =>
    rw [sweeps, sweeps]
    cases hstep : (step (read t)).2 with
    | true => rw [if_pos (hagain t hstep), if_pos rfl, ih, hread]
    | false =>
      rw [if_neg Bool.false_ne_true]
      split
      · rw [ih, hread, sweeps_fixed (hstop _ hstep)]
      · exact hread t

end Sweeps

end NssFactory.Vectors

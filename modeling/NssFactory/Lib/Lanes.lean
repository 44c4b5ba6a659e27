import Mathlib.Algebra.BigOperators.Group.Finset.Basic
import Mathlib.Algebra.Group.Embedding
import Mathlib.Algebra.Group.Int.Defs
import NssFactory.Lib.Loops

/-!
# Loops over buffers

A buffer is flat memory, `Int → A`. A row of it starts at some `base`, and a loop over the row
sets element `base + x` from what it held.

* `scalarLoop` is such a loop one element at a time; `scalarLoop_apply` says what every element
  holds then, `scalarLoop_append` and `scalarLoop_congr` how loops are joined and compared.
* `vectorLoop` takes the elements `lanes` at a time while a whole vector is left, and
  `stripLoop` is it with a scalar loop for the tail; `stripLoop_eq` makes it the scalar loop.
* `rowsLoop` runs a loop over the rows of a plane: `rowsLoop_at` and `rowsLoop_off`.
* `foldl_add_eq_sum` reads a loop that adds as a sum over `points`.
-/

namespace NssFactory

variable {A : Type*} {base lo mid hi x w stride : Int} {f g : Int → A → A} {m : Int → A}

/-- `m[base + x] = f(x, m[base + x])` for `x` from `lo` on, below `hi`. -/
def scalarLoop (base : Int) (f : Int → A → A) (lo hi : Int) (m : Int → A) : Int → A :=
  (Int.range lo hi).foldl (fun m x => Function.update m (base + x) (f x (m (base + x)))) m

theorem scalarLoop_apply (i : Int) : scalarLoop base f lo hi m i =
    if lo ≤ i - base ∧ i - base < hi then f (i - base) (m i) else m i := by
  cases Int.le_total lo hi with
  | inl hle =>
    -- at round `x` exactly the elements before `x` have been set
    refine Loops.foldl_range_induct
      (fun x (m' : Int → A) => m' i =
        if lo ≤ i - base ∧ i - base < x then f (i - base) (m i) else m i)
      _ hle (by rw [if_neg (by omega)]) ?_
    intro x m' hx hxhi ih
    by_cases hi' : i = base + x
    · subst hi'
      rw [Function.update_self, ih, if_neg (by omega), if_pos (by omega)]
      congr 1
      omega
    · rw [Function.update_of_ne hi', ih]
      congr 1
      simp only [eq_iff_iff]
      omega
  | inr hle => rw [scalarLoop, Loops.range_empty hle, if_neg (by omega)]; rfl

theorem scalarLoop_empty (h : hi ≤ lo) : scalarLoop base f lo hi m = m := by
  rw [scalarLoop, Loops.range_empty h]
  rfl

theorem scalarLoop_append (h : lo ≤ mid) (h' : mid ≤ hi) :
    scalarLoop base f mid hi (scalarLoop base f lo mid m) = scalarLoop base f lo hi m := by
  simp only [scalarLoop]
  rw [← List.foldl_append, ← Loops.range_append h h']

/-- Loops that set the same elements to the same values. -/
theorem scalarLoop_congr
    (h : ∀ x, lo ≤ x → x < hi → f x (m (base + x)) = g x (m (base + x))) :
    scalarLoop base f lo hi m = scalarLoop base g lo hi m := by
  funext i
  rw [scalarLoop_apply, scalarLoop_apply]
  split
  · have := h (i - base) (by omega) (by omega)
    rwa [show base + (i - base) = i by omega] at this
  · rfl

/-! ## Vectors -/

/-- One store of a vector of `lanes` elements at `x`. -/
def store (base lanes : Int) (f : Int → A → A) (x : Int) (m : Int → A) : Int → A :=
  fun i => if x ≤ i - base ∧ i - base < x + lanes then f (i - base) (m i) else m i

/-- The rounds of `for (; x + lanes <= hi; x += lanes)`. -/
def rounds (lanes x hi : Int) : Nat := ((hi - x) / lanes).toNat

/-- Where that loop ends. -/
def vectorEnd (lanes x hi : Int) : Int := x + rounds lanes x hi * lanes

/-- The loop: a round at `y` sets its elements by `f y`. -/
def vectorLoop (base lanes : Int) (f : Int → Int → A → A) (x hi : Int) (m : Int → A) : Int → A :=
  (List.range (rounds lanes x hi)).foldl
    (fun m (k : Nat) => store base lanes (f (x + k * lanes)) (x + k * lanes) m) m

/-- The vector loop, and the scalar one for what is left. -/
def stripLoop (base lanes : Int) (f : Int → Int → A → A) (g : Int → A → A) (x hi : Int)
    (m : Int → A) : Int → A :=
  scalarLoop base g (vectorEnd lanes x hi) hi (vectorLoop base lanes f x hi m)

theorem vectorEnd_le {lanes : Int} (hl : 0 < lanes) (h : x ≤ hi) :
    x ≤ vectorEnd lanes x hi ∧ vectorEnd lanes x hi ≤ hi := by
  have hdiv : 0 ≤ (hi - x) / lanes := Int.ediv_nonneg (by omega) (by omega)
  have hmul := Int.ediv_mul_le (hi - x) (show lanes ≠ 0 by omega)
  have hto : ((rounds lanes x hi : Nat) : Int) = (hi - x) / lanes := Int.toNat_of_nonneg hdiv
  have hnonneg := Int.mul_nonneg hdiv (show 0 ≤ lanes by omega)
  unfold vectorEnd
  rw [hto]
  omega

theorem lt_vectorEnd {lanes : Int} (hl : 0 < lanes) (h : x ≤ hi) :
    hi < vectorEnd lanes x hi + lanes := by
  have hdiv : 0 ≤ (hi - x) / lanes := Int.ediv_nonneg (by omega) (by omega)
  have hto : ((rounds lanes x hi : Nat) : Int) = (hi - x) / lanes := Int.toNat_of_nonneg hdiv
  have hmod := Int.emod_lt_of_pos (hi - x) hl
  have hsum := Int.mul_ediv_add_emod (hi - x) lanes
  have hcomm := Int.mul_comm ((hi - x) / lanes) lanes
  unfold vectorEnd
  rw [hto]
  omega

theorem rounds_empty {lanes : Int} (hl : 0 < lanes) (h : hi ≤ x) : rounds lanes x hi = 0 := by
  have : (hi - x) / lanes ≤ 0 := by
    rw [Int.ediv_le_iff_le_mul hl]
    omega
  simp [rounds, this]

/-- A vector loop whose rounds do what the scalar loop does. -/
theorem vectorLoop_eq {lanes : Int} {f : Int → Int → A → A} (hl : 0 < lanes)
    (h : ∀ c y, x ≤ c → c + lanes ≤ hi → c ≤ y → y < c + lanes →
      f c y (m (base + y)) = g y (m (base + y))) :
    vectorLoop base lanes f x hi m = scalarLoop base g x (vectorEnd lanes x hi) m := by
  cases Int.le_total x hi with
  | inr hle =>
    have h0 := rounds_empty hl hle
    rw [vectorLoop, vectorEnd, h0, scalarLoop_empty (by simp)]
    rfl
  | inl hle =>
    have hend := vectorEnd_le hl hle
    -- after `n` rounds exactly the elements of the first `n` vectors are set
    have key : ∀ n ≤ rounds lanes x hi, (List.range n).foldl
        (fun m (k : Nat) => store base lanes (f (x + k * lanes)) (x + k * lanes) m) m =
        scalarLoop base g x (x + n * lanes) m := by
      intro n hn
      induction n with
      | zero => rw [scalarLoop_empty (by simp)]; rfl
      | succ n ih =>
        rw [List.range_succ, List.foldl_append, ih (by omega), List.foldl_cons, List.foldl_nil]
        have hn0 : 0 ≤ (n : Int) * lanes := Int.mul_nonneg (by omega) (by omega)
        have hsucc : ((n + 1 : Nat) : Int) * lanes = n * lanes + lanes := by
          push_cast
          rw [Int.add_mul, Int.one_mul]
        have hnr : ((n + 1 : Nat) : Int) * lanes ≤ rounds lanes x hi * lanes :=
          Int.mul_le_mul_of_nonneg_right (by exact_mod_cast hn) (by omega)
        have hve : vectorEnd lanes x hi = x + rounds lanes x hi * lanes := rfl
        funext i
        rw [store, scalarLoop_apply, scalarLoop_apply, hsucc]
        by_cases h1 : x + n * lanes ≤ i - base ∧ i - base < x + n * lanes + lanes
        · rw [if_pos h1, if_neg (by omega), if_pos (by omega)]
          have := h (x + n * lanes) (i - base) (by omega) (by omega) h1.1 h1.2
          rwa [show base + (i - base) = i by omega] at this
        · rw [if_neg h1]
          congr 1
          simp only [eq_iff_iff]
          omega
    exact key _ (Nat.le_refl _)

theorem stripLoop_eq {lanes : Int} {f : Int → Int → A → A} (hl : 0 < lanes)
    (h : ∀ c y, x ≤ c → c + lanes ≤ hi → c ≤ y → y < c + lanes →
      f c y (m (base + y)) = g y (m (base + y))) :
    stripLoop base lanes f g x hi m = scalarLoop base g x hi m := by
  rw [stripLoop, vectorLoop_eq hl h]
  cases Int.le_total x hi with
  | inl hle =>
    have := vectorEnd_le hl hle
    exact scalarLoop_append this.1 this.2
  | inr hle =>
    have : vectorEnd lanes x hi = x := by simp [vectorEnd, rounds_empty hl hle]
    rw [this, scalarLoop_empty (Int.le_refl x)]

theorem stripLoop_self {lanes : Int} (hl : 0 < lanes) :
    stripLoop base lanes (fun _ => g) g x hi m = scalarLoop base g x hi m :=
  stripLoop_eq hl fun _ _ _ _ _ _ => rfl

/-- The values of `for (x = 0; x < hi; x += step)`. -/
def strides (step hi : Int) : List Int :=
  (List.range ((hi + step - 1) / step).toNat).map fun (k : Nat) => k * step

/-- Vectors over a part of such a loop, the last one cut at `n`, meet what is below `n`. -/
theorem strides_flatMap {step n hi : Int} (hs : 0 < step) (hn : n ≤ hi) :
    ((strides step hi).flatMap fun x => (Int.range 0 (min step (n - x))).map (x + ·)) =
      Int.range 0 n := by
  have key : ∀ k : Nat, ((List.range k).map fun (j : Nat) => (j : Int) * step).flatMap
      (fun x => (Int.range 0 (min step (n - x))).map (x + ·)) =
        Int.range 0 (min n (k * step)) := by
    intro k
    induction k with
    | zero => simp [Loops.range_empty (show min n 0 ≤ 0 by omega)]
    | succ k ih =>
      have hk : 0 ≤ (k : Int) * step := Int.mul_nonneg (by omega) (by omega)
      have hsucc : ((k + 1 : Nat) : Int) * step = k * step + step := by
        push_cast
        rw [Int.add_mul, Int.one_mul]
      rw [List.range_succ, List.map_append, List.flatMap_append, ih, hsucc]
      simp only [List.map_cons, List.map_nil, List.flatMap_cons, List.flatMap_nil, List.append_nil]
      rw [Loops.range_map_add]
      rcases Int.le_total n (k * step) with hle | hle
      · rw [Loops.range_empty
          (show k * step + min step (n - k * step) ≤ k * step + 0 by omega), List.append_nil,
          show min n (k * step) = min n (k * step + step) by omega]
      · rw [show min n (k * step) = k * step + 0 by omega,
          show k * step + min step (n - k * step) = min n (k * step + step) by omega]
        rcases Int.le_total 0 n with h0 | h0
        · exact (Loops.range_append (by omega) (by omega)).symm
        · rw [Loops.range_empty (show k * step + 0 ≤ 0 by omega), List.nil_append]
          rw [Loops.range_empty (by omega), Loops.range_empty (by omega)]
  rw [strides, key]
  have hdiv := Int.mul_ediv_add_emod (hi + step - 1) step
  have hmod := Int.emod_lt_of_pos (hi + step - 1) hs
  have hcover : n ≤ ((hi + step - 1) / step).toNat * step := by
    rcases Int.le_total 0 ((hi + step - 1) / step) with h0 | h0
    · rw [Int.toNat_of_nonneg h0, Int.mul_comm]
      omega
    · rw [Int.toNat_of_nonpos h0]
      have := Int.mul_le_mul_of_nonneg_left h0 (show 0 ≤ step by omega)
      omega
  rw [Int.min_eq_left hcover]
/-! ## A lane at a time -/

/-- What a loop that replaces one element in each round makes of element `i`. -/
theorem foldl_update_at {α : Type*} (key : α → Int) (f : α → A → A) {l : List α} (m : Int → A)
    (i : Int) :
    l.foldl (fun m a => Function.update m (key a) (f a (m (key a)))) m i =
      l.foldl (fun v a => if key a = i then f a v else v) (m i) := by
  induction l generalizing m with
  | nil => rfl
  | cons a l ih =>
    rw [List.foldl_cons, List.foldl_cons, ih]
    congr 1
    by_cases h : key a = i
    · subst h
      simp
    · rw [if_neg h, Function.update_of_ne (Ne.symm h)]

/-- Among the elements of at most one vector, one is in lane `i`. -/
theorem foldl_lane {lanes m n i : Int} (hi : 0 ≤ i) (hil : i < lanes) (hm : m % lanes = 0)
    (hn : n ≤ m + lanes) (v : A) :
    (Int.range m n).foldl (fun v x => if x % lanes = i then f x v else v) v =
      if m + i < n then f (m + i) v else v := by
  have hlane : ∀ j, 0 ≤ j → j < lanes → (m + j) % lanes = j := by
    intro j h0 hj
    rw [Int.add_emod, hm, Int.zero_add, Int.emod_emod_of_dvd _ (Int.dvd_refl _),
      Int.emod_eq_of_lt h0 hj]
  -- a part without the element `m + i` does nothing
  have hskip : ∀ a b, m ≤ a → b ≤ m + lanes → ¬(a ≤ m + i ∧ m + i < b) → ∀ v,
      (Int.range a b).foldl (fun v x => if x % lanes = i then f x v else v) v = v := by
    intro a b ha hb hout v
    cases Int.le_total b a with
    | inl hempty => rw [Loops.range_empty hempty]; rfl
    | inr hle =>
      refine Loops.foldl_range_induct (fun _ s => s = v) _ hle rfl fun x s hx hxb hs => ?_
      have hx' := hlane (x - m) (by omega) (by omega)
      rw [show m + (x - m) = x by omega] at hx'
      rw [if_neg (by omega), hs]
  by_cases hin : m + i < n
  · rw [if_pos hin, Loops.range_append (show m ≤ m + i by omega) (le_of_lt hin),
      Loops.range_cons hin, List.foldl_append, List.foldl_cons,
      hskip m (m + i) (Int.le_refl _) (by omega) (by omega), if_pos (hlane i hi hil),
      hskip (m + i + 1) n (by omega) hn (by omega)]
  · rw [if_neg hin, hskip m n (Int.le_refl _) hn (by omega)]

/-- The elements of whole vectors that are in lane `i`. -/
theorem foldl_lane_rounds {lanes i : Int} (hi : 0 ≤ i) (hil : i < lanes) (k : Nat) (v : A) :
    (Int.range 0 (k * lanes)).foldl (fun v x => if x % lanes = i then f x v else v) v =
      (List.range k).foldl (fun v (j : Nat) => f (j * lanes + i) v) v := by
  induction k with
  | zero => rw [Loops.range_empty (by simp)]; rfl
  | succ k ih =>
    have hk : 0 ≤ (k : Int) * lanes := Int.mul_nonneg (by omega) (by omega)
    have hsucc : ((k + 1 : Nat) : Int) * lanes = k * lanes + lanes := by
      push_cast
      rw [Int.add_mul, Int.one_mul]
    rw [hsucc, Loops.range_append hk (show k * lanes ≤ k * lanes + lanes by omega),
      List.foldl_append, ih, foldl_lane hi hil (Int.mul_emod_left _ _) (Int.le_refl _),
      if_pos (by omega), List.range_succ, List.foldl_append]
    rfl

/-! ## Rows -/

/-- Elements of a plane have places of their own. -/
theorem pixel_inj {y y' x x' : Int} (hx : 0 ≤ x) (hxw : x < stride) (hx' : 0 ≤ x')
    (hxw' : x' < stride) (h : y * stride + x = y' * stride + x') : y = y' ∧ x = x' := by
  have hy : y = y' := by
    rcases Int.lt_trichotomy y y' with hlt | heq | hgt
    · have := Int.mul_le_mul_of_nonneg_right (show y + 1 ≤ y' by omega) (show 0 ≤ stride by omega)
      rw [Int.add_mul] at this
      omega
    · exact heq
    · have := Int.mul_le_mul_of_nonneg_right (show y' + 1 ≤ y by omega) (show 0 ≤ stride by omega)
      rw [Int.add_mul] at this
      omega
  subst hy
  exact ⟨rfl, by omega⟩

/-- A loop over the rows `y0 ≤ y < y1` of a plane whose first row is row `first`. -/
def rowsLoop (f : Int → Int → A → A) (w stride first y0 y1 : Int) (m : Int → A) : Int → A :=
  (Int.range y0 y1).foldl (fun m y => scalarLoop ((y - first) * stride) (f y) 0 w m) m

variable {F : Int → Int → A → A} {first y0 y1 y : Int}

theorem rowsLoop_key (hw : w ≤ stride) (hy : y0 ≤ y1) :
    (∀ y x, y0 ≤ y → y < y1 → 0 ≤ x → x < w →
      rowsLoop F w stride first y0 y1 m ((y - first) * stride + x) =
        F y x (m ((y - first) * stride + x))) ∧
    ∀ i, (∀ y x, y0 ≤ y → y < y1 → 0 ≤ x → x < w → i ≠ (y - first) * stride + x) →
      rowsLoop F w stride first y0 y1 m i = m i := by
  apply Loops.foldl_range_induct (fun n (m' : Int → A) =>
    (∀ y x, y0 ≤ y → y < n → 0 ≤ x → x < w →
      m' ((y - first) * stride + x) = F y x (m ((y - first) * stride + x))) ∧
    ∀ i, (∀ y x, y0 ≤ y → y < n → 0 ≤ x → x < w → i ≠ (y - first) * stride + x) → m' i = m i)
    _ hy
  · exact ⟨fun y x h0 h1 => by omega, fun _ _ => rfl⟩
  · intro n m' hn hn1 ⟨hat, hoff⟩
    constructor
    · intro y x h0 h1 hx hxw
      rw [scalarLoop_apply]
      by_cases hyn : y = n
      · subst hyn
        rw [if_pos (by omega), hoff]
        · congr 1
          omega
        · intro y' x' h0' h1' hx' hxw' he
          have := (pixel_inj hx (by omega) hx' (by omega) he).1
          omega
      · rw [if_neg, hat y x h0 (by omega) hx hxw]
        intro hin
        have hsame : (y - first) * stride + x =
            (n - first) * stride + ((y - first) * stride + x - (n - first) * stride) := by omega
        have := (pixel_inj hx (by omega) (by omega) (by omega) hsame).1
        omega
    · intro i hi
      rw [scalarLoop_apply, if_neg, hoff i fun y x h0 h1 => hi y x h0 (by omega)]
      intro hin
      exact hi n (i - (n - first) * stride) (by omega) (by omega) (by omega) (by omega) (by omega)

/-- What an element of the rows holds. -/
theorem rowsLoop_at (hw : w ≤ stride) (h0 : y0 ≤ y) (h1 : y < y1) (hx : 0 ≤ x) (hxw : x < w) :
    rowsLoop F w stride first y0 y1 m ((y - first) * stride + x) =
      F y x (m ((y - first) * stride + x)) :=
  (rowsLoop_key hw (by omega)).1 y x h0 h1 hx hxw

/-- The same where the rows start with row 0. -/
theorem rowsLoop_zero_at (hw : w ≤ stride) (h0 : y0 ≤ y) (h1 : y < y1) (hx : 0 ≤ x) (hxw : x < w) :
    rowsLoop F w stride 0 y0 y1 m (y * stride + x) = F y x (m (y * stride + x)) := by
  rw [show y * stride + x = (y - 0) * stride + x by rw [Int.sub_zero]]
  exact rowsLoop_at hw h0 h1 hx hxw

/-- No other element is touched. -/
theorem rowsLoop_off {i : Int} (hw : w ≤ stride)
    (h : ∀ y x, y0 ≤ y → y < y1 → 0 ≤ x → x < w → i ≠ (y - first) * stride + x) :
    rowsLoop F w stride first y0 y1 m i = m i := by
  cases Int.le_total y0 y1 with
  | inl hle => exact (rowsLoop_key hw hle).2 i h
  | inr hle => rw [rowsLoop, Loops.range_empty hle]; rfl

/-- What holds of every element, and is kept by the rows, holds of every element behind them. -/
theorem rowsLoop_forall (P : A → Prop) (hF : ∀ y x a, P a → P (F y x a)) (hm : ∀ i, P (m i)) :
    ∀ i, P (rowsLoop F w stride first y0 y1 m i) := by
  refine List.foldlRecOn (motive := fun m' : Int → A => ∀ i, P (m' i)) _ _ hm ?_
  intro m' ih y _ i
  rw [scalarLoop_apply]
  split
  · exact hF y _ _ (ih i)
  · exact ih i

/-- Rows that do what `F` does where it matters. -/
theorem rowsLoop_eq {row : Int → (Int → A) → Int → A} (P : (Int → A) → Prop) (hm : P m)
    (hrow : ∀ y m, y0 ≤ y → y < y1 → P m →
      row y m = scalarLoop ((y - first) * stride) (F y) 0 w m)
    (hkeep : ∀ y m, y0 ≤ y → y < y1 → P m → P (row y m)) :
    (Int.range y0 y1).foldl (fun m y => row y m) m = rowsLoop F w stride first y0 y1 m := by
  cases Int.le_total y0 y1 with
  | inr hle => rw [rowsLoop, Loops.range_empty hle]; rfl
  | inl hle =>
    rw [rowsLoop]
    have : ∀ (l : List Int) (m : Int → A), (∀ y ∈ l, y0 ≤ y ∧ y < y1) → P m →
        l.foldl (fun m y => row y m) m =
          l.foldl (fun m y => scalarLoop ((y - first) * stride) (F y) 0 w m) m := by
      intro l
      induction l with
      | nil => exact fun _ _ _ => rfl
      | cons y l ih =>
        intro m hl hP
        obtain ⟨h0, h1⟩ := hl y List.mem_cons_self
        rw [List.foldl_cons, List.foldl_cons, ← hrow y m h0 h1 hP]
        exact ih _ (fun y' hy' => hl y' (List.mem_cons_of_mem _ hy')) (hkeep y m h0 h1 hP)
    exact this _ _ (fun y hy => Int.mem_range_iff.mp hy) hm

/-! ## Sums -/

/-- The points `a ≤ x < b`. -/
def points (a b : Int) : Finset Int := ⟨Int.range a b, Loops.range_nodup a b⟩

@[simp] theorem mem_points {a b : Int} : x ∈ points a b ↔ a ≤ x ∧ x < b :=
  Int.mem_range_iff

@[simp] theorem card_points (a b : Int) : (points a b).card = (b - a).toNat := by
  simp [points, Int.range]

variable {M : Type*} [AddCommMonoid M] (t : Int → M)

theorem foldl_add_eq_sum (m n : Int) (a : M) :
    (Int.range m n).foldl (fun s j => s + t j) a = a + ∑ j ∈ points m n, t j := by
  have hlist : ∀ (l : List Int) (a : M), l.foldl (fun s j => s + t j) a = a + (l.map t).sum := by
    intro l
    induction l with
    | nil => simp
    | cons j l ih => simp [ih, add_assoc]
  exact hlist _ _

theorem sum_points_snoc {a b : Int} (h : a ≤ b) :
    ∑ k ∈ points a (b + 1), t k = ∑ k ∈ points a b, t k + t b := by
  have := foldl_add_eq_sum t a (b + 1) 0
  rw [Loops.range_snoc h, List.foldl_append, foldl_add_eq_sum t a b, zero_add] at this
  simpa using this.symm

theorem sum_points_cons {a b : Int} (h : a < b) :
    ∑ k ∈ points a b, t k = t a + ∑ k ∈ points (a + 1) b, t k := by
  have := foldl_add_eq_sum t a b 0
  rw [Loops.range_cons h, List.foldl_cons, zero_add, foldl_add_eq_sum t, zero_add] at this
  exact this.symm

/-- A sum over the points around a point. -/
theorem sum_points_around (y s : Int) :
    ∑ k ∈ points (y - s) (y + s + 1), t k = ∑ i ∈ points (-s) (s + 1), t (y + i) := by
  have himage : points (y - s) (y + s + 1) = (points (-s) (s + 1)).map (addLeftEmbedding y) := by
    ext k
    simp only [Finset.mem_map, mem_points, addLeftEmbedding_apply]
    exact ⟨fun hk => ⟨k - y, by omega, by omega⟩, fun ⟨i, hi, hk⟩ => by omega⟩
  rw [himage, Finset.sum_map]
  rfl

end NssFactory

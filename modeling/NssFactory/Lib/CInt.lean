import Mathlib.Data.Int.Range
import Mathlib.Data.Option.Basic
import Mathlib.Order.Basic
import NssFactory.Lib.Loops

/-!
# Arithmetic in `int`

A signed sum, difference, product or quotient of a C program is defined only when its value
fits the type. The operations here return none where it does not, so that a computation of
a program, written in `Option`, says when all its steps stay in range.
-/

namespace NssFactory.CInt

/-- The largest `int`. -/
def intMax : Int := 2147483647

/-- What an `int` holds. -/
def Fits (n : Int) : Prop := -2147483648 ≤ n ∧ n ≤ intMax

instance (n : Int) : Decidable (Fits n) := inferInstanceAs (Decidable (_ ∧ _))

/-- A value that an `int` is to hold. -/
def ofInt (n : Int) : Option Int := if Fits n then some n else none

def add (a b : Int) : Option Int := ofInt (a + b)

def sub (a b : Int) : Option Int := ofInt (a - b)

def mul (a b : Int) : Option Int := ofInt (a * b)

/-- Division rounds towards zero. -/
def div (a b : Int) : Option Int := if b = 0 then none else ofInt (a.tdiv b)

/-- The remainder of a division that is defined. -/
def mod (a b : Int) : Option Int := if b = 0 then none else (ofInt (a.tdiv b)).map fun _ => a.tmod b

variable {a b c n : Int}

theorem ofInt_of_fits (h : Fits n) : ofInt n = some n := if_pos h

theorem ofInt_eq_some : ofInt n = some c ↔ Fits n ∧ n = c := by
  simp [ofInt]

theorem ofInt_eq_none : ofInt n = none ↔ ¬Fits n := by
  simp [ofInt]

theorem add_of_fits (h : Fits (a + b)) : add a b = some (a + b) := ofInt_of_fits h

theorem sub_of_fits (h : Fits (a - b)) : sub a b = some (a - b) := ofInt_of_fits h

theorem mul_of_fits (h : Fits (a * b)) : mul a b = some (a * b) := ofInt_of_fits h

/-- Where no operand is negative, division is that of the naturals. -/
theorem div_of_nonneg (ha : 0 ≤ a) (hfits : a ≤ intMax) (hb : 1 ≤ b) : div a b = some (a / b) := by
  have hle : a / b ≤ a := Int.ediv_le_self b ha
  have hpos : 0 ≤ a / b := Int.ediv_nonneg ha (by omega)
  have hdiv : a.tdiv b = a / b := Int.tdiv_eq_ediv_of_nonneg ha
  rw [div, if_neg (by omega), hdiv]
  exact ofInt_of_fits ⟨by omega, by omega⟩

theorem mod_of_nonneg (ha : 0 ≤ a) (hfits : a ≤ intMax) (hb : 1 ≤ b) : mod a b = some (a % b) := by
  have hdiv := div_of_nonneg ha hfits hb
  have hmod : a.tmod b = a % b := Int.tmod_eq_emod_of_nonneg ha
  rw [div, if_neg (by omega)] at hdiv
  rw [mod, if_neg (by omega), hdiv, hmod]
  rfl

/-- The rest of a computation goes on with a value that fits. -/
theorem ofInt_bind {β : Type} (h : -2147483648 ≤ n) (h' : n ≤ 2147483647) (f : Int → Option β) :
    (ofInt n >>= f) = f n := by
  rw [ofInt_of_fits ⟨h, h'⟩]
  rfl

theorem ofInt_eq (h : -2147483648 ≤ n) (h' : n ≤ 2147483647) : ofInt n = some n := ofInt_of_fits ⟨h, h'⟩

theorem bind_eq_some {α β : Type*} {x : Option α} {f : α → Option β} {b : β} :
    x.bind f = some b ↔ ∃ a, x = some a ∧ f a = some b := Option.bind_eq_some_iff

/-! ## Counting loops -/

variable {σ : Type}

/-- `for (int x = lo; x <= hi; ++x)`: the counter too has to fit. -/
def upTo (lo hi : Int) (s : σ) (body : σ → Int → Option σ) : Option σ :=
  (Int.range lo (hi + 1)).foldlM (fun s x => do
    let s ← body s x
    let _ ← add x 1
    some s) s

/-- A loop whose rounds stay in range is the loop without the checks. -/
theorem upTo_eq {lo hi : Int} {body : σ → Int → Option σ} {s : σ} (g : σ → Int → σ) (P : σ → Prop)
    (hlo : 0 ≤ lo) (hhi : hi < intMax) (start : P s)
    (round : ∀ s x, lo ≤ x → x ≤ hi → P s → body s x = some (g s x) ∧ P (g s x)) :
    upTo lo hi s body = some ((Int.range lo (hi + 1)).foldl g s) ∧
      P ((Int.range lo (hi + 1)).foldl g s) := by
  have hmem : ∀ x ∈ Int.range lo (hi + 1), lo ≤ x ∧ x ≤ hi := by
    intro x hx
    have hx := Int.mem_range_iff.mp hx
    omega
  rw [upTo]
  generalize Int.range lo (hi + 1) = l at hmem ⊢
  induction l generalizing s with
  | nil => exact ⟨rfl, start⟩
  | cons x l ih =>
    obtain ⟨hx, hx'⟩ := hmem x List.mem_cons_self
    obtain ⟨hbody, hP⟩ := round s x hx hx' start
    have hmax : intMax = 2147483647 := rfl
    have hnext : add x 1 = some (x + 1) := add_of_fits ⟨by omega, by omega⟩
    rw [List.foldlM_cons, hbody, List.foldl_cons]
    simp only [Option.bind_eq_bind, Option.bind_some, hnext]
    exact ih hP fun y hy => hmem y (List.mem_cons_of_mem _ hy)

/-- A loop that only reads. -/
theorem upTo_unit {lo hi : Int} {body : Unit → Int → Option Unit} (hlo : 0 ≤ lo) (hhi : hi < intMax)
    (round : ∀ x, lo ≤ x → x ≤ hi → body () x = some ()) : upTo lo hi () body = some () :=
  (upTo_eq (fun _ _ => ()) (fun _ => True) hlo hhi trivial fun _ x hx hx' _ => ⟨round x hx hx', trivial⟩).1

/-- A loop whose rounds keep `P` and stay in range does both. -/
theorem upTo_keeps {lo hi : Int} {body : σ → Int → Option σ} {s : σ} (P : σ → Prop) (hlo : 0 ≤ lo)
    (hhi : hi < intMax) (start : P s)
    (round : ∀ s x, lo ≤ x → x ≤ hi → P s → ∃ s', body s x = some s' ∧ P s') :
    ∃ s', upTo lo hi s body = some s' ∧ P s' := by
  have hround : ∀ s x, lo ≤ x → x ≤ hi → P s →
      body s x = some ((body s x).getD s) ∧ P ((body s x).getD s) := by
    intro s x hx hx' hs
    obtain ⟨s', hbody, hP⟩ := round s x hx hx' hs
    rw [hbody]
    exact ⟨rfl, hP⟩
  exact ⟨_, upTo_eq (fun s x => (body s x).getD s) P hlo hhi start hround⟩

/-- A loop whose rounds lead from one stage to the next. -/
theorem upTo_stages {lo hi : Int} {body : σ → Int → Option σ} {s : σ} (P : Int → σ → Prop) (hlo : 0 ≤ lo)
    (hle : lo ≤ hi + 1) (hhi : hi < intMax) (start : P lo s)
    (round : ∀ s x, lo ≤ x → x ≤ hi → P x s → ∃ s', body s x = some s' ∧ P (x + 1) s') :
    ∃ s', upTo lo hi s body = some s' ∧ P (hi + 1) s' := by
  rw [upTo]
  induction hd : (hi + 1 - lo).toNat generalizing lo s with
  | zero =>
    obtain rfl : lo = hi + 1 := by omega
    rw [Loops.range_empty (Int.le_refl _)]
    exact ⟨s, rfl, start⟩
  | succ d ih =>
    obtain ⟨s', hbody, hs'⟩ := round s lo (Int.le_refl _) (by omega) start
    have hmax : intMax = 2147483647 := rfl
    have hnext : add lo 1 = some (lo + 1) := add_of_fits ⟨by omega, by omega⟩
    rw [Loops.range_cons (by omega), List.foldlM_cons, hbody]
    simp only [Option.bind_eq_bind, Option.bind_some, hnext]
    exact ih (by omega) (by omega) hs' (fun s x hx hx' => round s x (by omega) hx') (by omega)

/-- The rule of a loop that stayed in range. -/
theorem upTo_induct {lo hi : Int} {body : σ → Int → Option σ} {s t : σ} (P : Int → σ → Prop)
    (hle : lo ≤ hi + 1) (h : upTo lo hi s body = some t) (start : P lo s)
    (round : ∀ s s' x, lo ≤ x → x ≤ hi → P x s → body s x = some s' → P (x + 1) s') :
    P (hi + 1) t := by
  rw [upTo] at h
  induction hd : (hi + 1 - lo).toNat generalizing lo s with
  | zero =>
    obtain rfl : lo = hi + 1 := by omega
    rw [Loops.range_empty (Int.le_refl _)] at h
    exact Option.some.inj h ▸ start
  | succ d ih =>
    rw [Loops.range_cons (by omega), List.foldlM_cons] at h
    obtain ⟨s', hs', h⟩ := bind_eq_some.mp h
    obtain ⟨s₁, hbody, hs'⟩ := bind_eq_some.mp hs'
    obtain ⟨_, -, hs'⟩ := bind_eq_some.mp hs'
    obtain rfl := Option.some.inj hs'
    exact ih (by omega) h (round s s₁ lo (Int.le_refl _) (by omega) start hbody)
      (fun s s' x hx hx' => round s s' x (by omega) hx') (by omega)

/-- A loop that stayed in range made its round at `x`. -/
theorem upTo_round {lo hi x : Int} {body : σ → Int → Option σ} {s t : σ} (h : upTo lo hi s body = some t)
    (hx : lo ≤ x) (hx' : x ≤ hi) : ∃ s s', body s x = some s' := by
  refine upTo_induct (fun y _ => x < y → ∃ s s', body s x = some s') (by omega) h (by omega) ?_ (by omega)
  intro s s' y _ _ hrest hbody hlt
  by_cases hxy : x = y
  · exact ⟨s, s', hxy ▸ hbody⟩
  · exact hrest (by omega)

/-! ## Loops over indices

Their counters stay below the length of what they index. -/

/-- `for (x = first; x <= last; ++x)`. -/
def between (first last : Nat) (s : σ) (body : σ → Nat → Option σ) : Option σ :=
  (List.range' first (last + 1 - first)).foldlM body s

variable {first last : Nat} {s t : σ} {body : σ → Nat → Option σ}

theorem between_empty (h : last < first) : between first last s body = some s := by
  rw [between, Nat.sub_eq_zero_of_le h]
  rfl

theorem between_cons (h : first ≤ last) :
    between first last s body = (body s first).bind fun s => between (first + 1) last s body := by
  rw [between, show last + 1 - first = last + 1 - (first + 1) + 1 by omega, List.range'_succ, List.foldlM_cons]
  rfl

/-- A loop whose rounds all succeed. -/
theorem between_induct (P : Nat → σ → Prop) (start : P first s)
    (round : ∀ s x, first ≤ x → x ≤ last → P x s → ∃ s', body s x = some s' ∧ P (x + 1) s') :
    ∃ s', between first last s body = some s' ∧ P (max first (last + 1)) s' := by
  induction hd : last + 1 - first generalizing first s with
  | zero =>
    rw [between_empty (by omega), max_eq_left (by omega)]
    exact ⟨s, rfl, start⟩
  | succ d ih =>
    obtain ⟨s', hbody, hs'⟩ := round s first (Nat.le_refl _) (by omega) start
    rw [between_cons (by omega), hbody, show max first (last + 1) = max (first + 1) (last + 1) by omega]
    exact ih hs' (fun s x hx => round s x (by omega)) (by omega)

/-- A loop that succeeded. -/
theorem between_run (P : Nat → σ → Prop) (h : between first last s body = some t) (start : P first s)
    (round : ∀ s s' x, first ≤ x → x ≤ last → P x s → body s x = some s' → P (x + 1) s') :
    P (max first (last + 1)) t := by
  induction hd : last + 1 - first generalizing first s with
  | zero =>
    rw [between_empty (by omega)] at h
    rw [max_eq_left (by omega)]
    exact Option.some.inj h ▸ start
  | succ d ih =>
    rw [between_cons (by omega)] at h
    obtain ⟨s', hbody, h⟩ := Option.bind_eq_some_iff.mp h
    rw [show max first (last + 1) = max (first + 1) (last + 1) by omega]
    exact ih h (round s s' first (Nat.le_refl _) (by omega) start hbody)
      (fun s s' x hx => round s s' x (by omega)) (by omega)

/-! ## Loops that check and loops that stop -/

section Checks

variable {α : Type} {a : α} {l : List α}

/-- A loop that only checks. -/
theorem forM_eq_some {f : α → Option Unit} : l.forM f = some () ↔ ∀ a ∈ l, f a = some () := by
  induction l with
  | nil => simp
  | cons a l ih =>
    rw [List.forM, List.forall_mem_cons, ← ih]
    constructor
    · intro h
      obtain ⟨⟨⟩, ha, hl⟩ := bind_eq_some.mp h
      exact ⟨ha, hl⟩
    · rintro ⟨ha, hl⟩
      rw [ha]
      exact hl

/-- A loop that goes on until a round says to stop. -/
def search (f : α → Option Bool) : List α → Option Bool
  | [] => some false
  | a :: l => (f a).bind fun stop => if stop then some true else search f l

variable {f : α → Option Bool}

theorem search_isSome (h : ∀ a ∈ l, (f a).isSome) : (search f l).isSome := by
  induction l with
  | nil => rfl
  | cons a l ih =>
    obtain ⟨stop, ha⟩ := Option.isSome_iff_exists.mp (h a List.mem_cons_self)
    rw [search, ha, Option.bind_some]
    cases stop with
    | true => rfl
    | false => exact ih fun a ha => h a (List.mem_cons_of_mem _ ha)

/-- A search that did not stop made every round. -/
theorem search_false (h : search f l = some false) (ha : a ∈ l) : f a = some false := by
  induction l with
  | nil => simp at ha
  | cons b l ih =>
    obtain ⟨stop, hb, h⟩ := bind_eq_some.mp h
    cases stop with
    | true => simp at h
    | false =>
      rcases List.mem_cons.mp ha with rfl | ha
      · exact hb
      · exact ih h ha

theorem search_true (h : search f l = some true) : ∃ a ∈ l, f a = some true := by
  induction l with
  | nil => simp [search] at h
  | cons b l ih =>
    obtain ⟨stop, hb, h⟩ := bind_eq_some.mp h
    cases stop with
    | true => exact ⟨b, List.mem_cons_self, hb⟩
    | false =>
      obtain ⟨a, ha, hstop⟩ := ih h
      exact ⟨a, List.mem_cons_of_mem _ ha, hstop⟩

/-- The first round is made. -/
theorem search_head {stop : Bool} (h : search f (a :: l) = some stop) : (f a).isSome := by
  obtain ⟨s, hs, -⟩ := bind_eq_some.mp h
  exact hs ▸ rfl

end Checks

end NssFactory.CInt

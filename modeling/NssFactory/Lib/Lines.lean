import Mathlib.Data.List.Basic
import Mathlib.Logic.Function.Basic
import Mathlib.Tactic.Ring

/-!
# Loops over the lines of a matrix

Programs that work on a matrix in place take its columns or its rows in pieces: one at a time, or
as many as a vector has lanes. `cols T q a b` applies `T` to the columns from `a` up to `b` of a
matrix with `q` rows that is stored by columns, `rows T q n a b` to the rows of one with `n`
columns. Pieces that follow one another come to one piece (`cols_append`, `rows_append`), so a
loop over pieces comes to the whole: `foldl_pieces`.

`storeAll` makes assignments one after the other; `storeAll_apply` needs no order of them where
each one agrees with one function. `addAll` makes additions, and a place sees its own.
-/

namespace NssFactory.Lines

variable {α σ : Type*}

/-- Assignments, one after the other. -/
def storeAll (stores : List (Nat × α)) (m : Nat → α) : Nat → α :=
  stores.foldl (fun m s => Function.update m s.1 s.2) m

theorem storeAll_apply {stores : List (Nat × α)} {m : Nat → α} (f : Nat → α) {x : Nat}
    (hval : ∀ s ∈ stores, s.2 = f s.1) :
    storeAll stores m x = if x ∈ stores.map Prod.fst then f x else m x := by
  unfold storeAll
  induction stores generalizing m with
  | nil => rfl
  | cons s stores ih =>
    rw [List.foldl_cons, ih fun t ht => hval t (List.mem_cons_of_mem _ ht), List.map_cons]
    by_cases hmem : x ∈ stores.map Prod.fst
    · rw [if_pos hmem, if_pos (List.mem_cons_of_mem _ hmem)]
    · by_cases hx : x = s.1
      · rw [if_neg hmem, hx, Function.update_self, if_pos List.mem_cons_self]
        exact hval s List.mem_cons_self
      · rw [if_neg hmem, Function.update_of_ne hx, if_neg]
        rw [List.mem_cons, not_or]
        exact ⟨hx, hmem⟩

theorem storeAll_of_mem {stores : List (Nat × α)} {m : Nat → α} (f : Nat → α) {x : Nat}
    (hval : ∀ s ∈ stores, s.2 = f s.1) (hx : x ∈ stores.map Prod.fst) :
    storeAll stores m x = f x := by rw [storeAll_apply f hval, if_pos hx]

theorem storeAll_append {stores stores' : List (Nat × α)} {m : Nat → α} :
    storeAll (stores ++ stores') m = storeAll stores' (storeAll stores m) := List.foldl_append

/-- Assignments elsewhere. -/
theorem storeAll_off {stores : List (Nat × α)} {m : Nat → α} {x : Nat} (h : x ∉ stores.map Prod.fst) :
    storeAll stores m x = m x := by
  unfold storeAll
  induction stores generalizing m with
  | nil => rfl
  | cons s stores ih =>
    rw [List.map_cons, List.mem_cons, not_or] at h
    rw [List.foldl_cons, ih h.2, Function.update_of_ne h.1]

/-- Additions, one after the other. -/
def addAll {β : Type*} (f : β → α → β) (adds : List (Nat × α)) (m : Nat → β) : Nat → β :=
  adds.foldl (fun m s => Function.update m s.1 (f (m s.1) s.2)) m

/-- A place sees its own additions, in their order. -/
theorem addAll_apply {β : Type*} {f : β → α → β} {adds : List (Nat × α)} {m : Nat → β} {x : Nat} :
    addAll f adds m x = ((adds.filter fun s => s.1 = x).map Prod.snd).foldl f (m x) := by
  unfold addAll
  induction adds generalizing m with
  | nil => rfl
  | cons s adds ih =>
    rw [List.foldl_cons, ih]
    by_cases hx : s.1 = x
    · rw [List.filter_cons_of_pos (by simpa using hx), List.map_cons, List.foldl_cons, ← hx, Function.update_self]
    · rw [List.filter_cons_of_neg (by simpa using hx), Function.update_of_ne (Ne.symm hx)]

/-! ### Matrices -/

theorem div_row {ld row col : Nat} (h : col < ld) : (row * ld + col) / ld = row := by
  rw [Nat.mul_comm, Nat.mul_add_div (by omega), Nat.div_eq_of_lt h, Nat.add_zero]

theorem mod_row {ld row col : Nat} (h : col < ld) : (row * ld + col) % ld = col := by
  rw [Nat.mul_add_mod', Nat.mod_eq_of_lt h]

/-- One value to each place of a matrix of `h` lines of `w`. -/
theorem storeAll_matrix {h w ld row col : Nat} {v : Nat → Nat → α} {m : Nat → α} (hld : w ≤ ld)
    (hrow : row < h) (hcol : col < w) :
    storeAll ((List.range h).flatMap fun row => (List.range w).map fun col => (row * ld + col, v row col)) m
      (row * ld + col) = v row col := by
  rw [storeAll_of_mem fun x => v (x / ld) (x % ld)]
  · rw [div_row (by omega), mod_row (by omega)]
  · intro s hs
    obtain ⟨r, -, hs⟩ := List.mem_flatMap.mp hs
    obtain ⟨c, hc, rfl⟩ := List.mem_map.mp hs
    have hc := List.mem_range.mp hc
    rw [div_row (by omega), mod_row (by omega)]
  · refine List.mem_map.mpr ⟨(row * ld + col, v row col), ?_, rfl⟩
    exact List.mem_flatMap.mpr ⟨row, List.mem_range.mpr hrow,
      List.mem_map.mpr ⟨col, List.mem_range.mpr hcol, rfl⟩⟩

/-- One value to each row of column `c`; the other columns stay. -/
theorem storeAll_column {h ld row col c : Nat} {v m : Nat → α} (hrow : row < h) (hcol : col < ld) (hc : c < ld) :
    storeAll ((List.range h).map fun row => (row * ld + c, v row)) m (row * ld + col) =
      if col = c then v row else m (row * ld + col) := by
  split
  · rename_i heq
    subst heq
    rw [storeAll_of_mem fun x => v (x / ld)]
    · rw [div_row hcol]
    · intro s hs
      obtain ⟨r, -, rfl⟩ := List.mem_map.mp hs
      rw [div_row hc]
    · rw [List.map_map, List.mem_map]
      exact ⟨row, List.mem_range.mpr hrow, rfl⟩
  · rename_i hne
    refine storeAll_off fun hmem => hne ?_
    rw [List.map_map, List.mem_map] at hmem
    obtain ⟨r, -, heq⟩ := hmem
    have := congrArg (· % ld) heq
    simp only [Function.comp_apply, mod_row hcol, mod_row hc] at this
    exact this.symm

/-- Two values in each round of a loop. -/
theorem storeAll_pairs {h x : Nat} {p p' : Nat → Nat} {v v' m : Nat → α} (f : Nat → α)
    (hv : ∀ i < h, v i = f (p i)) (hv' : ∀ i < h, v' i = f (p' i))
    (hx : ∃ i < h, x = p i ∨ x = p' i) :
    storeAll ((List.range h).flatMap fun i => [(p i, v i), (p' i, v' i)]) m x = f x := by
  apply storeAll_of_mem f
  · intro s hs
    obtain ⟨i, hi, hs⟩ := List.mem_flatMap.mp hs
    rw [List.mem_range] at hi
    rcases List.mem_pair.mp hs with rfl | rfl
    · exact hv i hi
    · exact hv' i hi
  · obtain ⟨i, hi, hx⟩ := hx
    rw [List.map_flatMap, List.mem_flatMap]
    refine ⟨i, List.mem_range.mpr hi, ?_⟩
    simpa using hx

/-- One value to each of the places `base, …, base + n - 1`. -/
def storeRun (base n : Nat) (v m : Nat → α) : Nat → α :=
  storeAll ((List.range n).map fun i => (base + i, v i)) m

theorem storeRun_apply {base n : Nat} {v m : Nat → α} {x : Nat} :
    storeRun base n v m x = if base ≤ x ∧ x < base + n then v (x - base) else m x := by
  unfold storeRun
  rw [storeAll_apply fun x => v (x - base)]
  · congr 1
    simp only [List.map_map, List.mem_map, List.mem_range, Function.comp_apply, eq_iff_iff]
    constructor
    · rintro ⟨i, hi, rfl⟩
      omega
    · intro hx
      exact ⟨x - base, by omega, by omega⟩
  · intro s hs
    obtain ⟨i, -, rfl⟩ := List.mem_map.mp hs
    rw [Nat.add_sub_cancel_left]

/-! ## Columns and rows -/

section

variable (T : (Nat → α) → Nat → α) {q n a b d : Nat} {m : Nat → α}

def cols (q a b : Nat) (m : Nat → α) : Nat → α :=
  fun x => if a * q ≤ x ∧ x < b * q then T (fun r => m (r + x / q * q)) (x % q) else m x

def rows (q n a b : Nat) (m : Nat → α) : Nat → α :=
  fun x => if x < n * q ∧ a ≤ x % q ∧ x % q < b then T (fun c => m (x % q + c * q)) (x / q) else m x

variable {T}

theorem cols_empty : cols T q a a m = m := by
  funext x
  exact if_neg (by omega)

theorem rows_empty : rows T q n a a m = m := by
  funext x
  exact if_neg (by omega)

theorem cols_append (hab : a ≤ b) (hbd : b ≤ d) :
    cols T q b d (cols T q a b m) = cols T q a d m := by
  funext x
  have hle : a * q ≤ b * q := Nat.mul_le_mul_right q hab
  have hle' : b * q ≤ d * q := Nat.mul_le_mul_right q hbd
  by_cases hlate : b * q ≤ x ∧ x < d * q
  · have hcol : b ≤ x / q := by
      rcases Nat.eq_zero_or_pos q with rfl | hq
      · omega
      · exact (Nat.le_div_iff_mul_le hq).mpr hlate.1
    have hbase : b * q ≤ x / q * q := Nat.mul_le_mul_right q hcol
    -- a later column has not been touched
    have hold : (fun r => cols T q a b m (r + x / q * q)) = fun r => m (r + x / q * q) := by
      funext r
      exact if_neg (by omega)
    unfold cols at hold ⊢
    rw [if_pos hlate, if_pos (by omega), hold]
  · by_cases hearly : a * q ≤ x ∧ x < b * q
    · unfold cols
      rw [if_neg hlate, if_pos hearly, if_pos (by omega)]
    · unfold cols
      rw [if_neg hlate, if_neg hearly, if_neg (by omega)]

theorem rows_append (hab : a ≤ b) (hbd : b ≤ d) :
    rows T q n b d (rows T q n a b m) = rows T q n a d m := by
  funext x
  by_cases hlate : x < n * q ∧ b ≤ x % q ∧ x % q < d
  · -- a later row has not been touched
    have hold : (fun c => rows T q n a b m (x % q + c * q)) = fun c => m (x % q + c * q) := by
      funext c
      refine if_neg ?_
      rw [Nat.add_mul_mod_self_right, Nat.mod_mod]
      omega
    unfold rows at hold ⊢
    rw [if_pos hlate, if_pos (by omega), hold]
  · by_cases hearly : x < n * q ∧ a ≤ x % q ∧ x % q < b
    · unfold rows
      rw [if_neg hlate, if_pos hearly, if_pos (by omega)]
    · unfold rows
      rw [if_neg hlate, if_neg hearly, if_neg (by omega)]

end

section Cancel

variable {T T' : (Nat → α) → Nat → α} {q n : Nat} {m : Nat → α}

/-- An operation on columns is undone by one that undoes it on each column. -/
theorem cols_cancel (hq : 0 < q) (hcongr : ∀ f g, (∀ j < q, f j = g j) → ∀ i < q, T' f i = T' g i)
    (hcancel : ∀ f, ∀ i < q, T' (T f) i = f i) : cols T' q 0 n (cols T q 0 n m) = m := by
  funext x
  by_cases hx : x < n * q
  · have hmod : x % q < q := Nat.mod_lt x hq
    have hcolumn : ∀ r < q, cols T q 0 n m (r + x / q * q) = T (fun r => m (r + x / q * q)) r := by
      intro r hr
      have hdiv : x / q < n := (Nat.div_lt_iff_lt_mul hq).mpr hx
      have hle : (x / q + 1) * q ≤ n * q := Nat.mul_le_mul_right q hdiv
      rw [Nat.add_mul] at hle
      rw [cols, if_pos (by omega), Nat.add_mul_div_right _ _ hq, Nat.div_eq_of_lt hr, Nat.zero_add,
        Nat.add_mul_mod_self_right, Nat.mod_eq_of_lt hr]
    rw [cols, if_pos (by omega), hcongr _ _ hcolumn _ hmod, hcancel _ _ hmod, Nat.add_comm,
      Nat.div_add_mod']
  · rw [cols, if_neg (by omega), cols, if_neg (by omega)]

theorem rows_cancel (hq : 0 < q) (hcongr : ∀ f g, (∀ j < n, f j = g j) → ∀ i < n, T' f i = T' g i)
    (hcancel : ∀ f, ∀ i < n, T' (T f) i = f i) : rows T' q n 0 q (rows T q n 0 q m) = m := by
  funext x
  by_cases hx : x < n * q
  · have hmod : x % q < q := Nat.mod_lt x hq
    have hdiv : x / q < n := (Nat.div_lt_iff_lt_mul hq).mpr hx
    have hrow : ∀ c < n, rows T q n 0 q m (x % q + c * q) = T (fun c => m (x % q + c * q)) c := by
      intro c hc
      have hle : (c + 1) * q ≤ n * q := Nat.mul_le_mul_right q hc
      rw [Nat.add_mul] at hle
      rw [rows, Nat.add_mul_mod_self_right, Nat.mod_eq_of_lt hmod, if_pos (by omega),
        Nat.add_mul_div_right _ _ hq, Nat.div_eq_of_lt hmod, Nat.zero_add]
    rw [rows, if_pos (by omega), hcongr _ _ hrow _ hdiv, hcancel _ _ hdiv, Nat.add_comm,
      Nat.div_add_mod']
  · rw [rows, if_neg (by omega), rows, if_neg (by omega)]

end Cancel

/-- A loop whose rounds are pieces of one length that follow one another. -/
theorem foldl_pieces (piece : Nat → Nat → σ → σ) (lo step : Nat) {body : σ → Nat → σ} {count : Nat}
    {s : σ}
    (hempty : ∀ s, piece lo lo s = s)
    (happend : ∀ {b d} s, lo ≤ b → b ≤ d → piece b d (piece lo b s) = piece lo d s)
    (hbody : ∀ k s, k < count → body s k = piece (lo + k * step) (lo + k * step + step) s) :
    (List.range count).foldl body s = piece lo (lo + count * step) s := by
  induction count with
  | zero => rw [Nat.zero_mul, Nat.add_zero, hempty]; rfl
  | succ count ih =>
    rw [List.range_succ, List.foldl_append, ih fun k s hk => hbody k s (Nat.lt_succ_of_lt hk),
      List.foldl_cons, List.foldl_nil, hbody count _ (Nat.lt_succ_self count),
      happend _ (Nat.le_add_right _ _) (Nat.le_add_right _ _)]
    congr 1
    ring

end NssFactory.Lines

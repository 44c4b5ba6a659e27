import NssFactory.Cpu.NlhHaar
import Mathlib.Data.ZMod.Basic
import Mathlib.Tactic.IntervalCases

/-!
# The Haar variants of NLH agree

Each way of `Cpu/NlhHaar` to transform a group is taken apart into pieces of `Lib/Lines`: so many
columns, or so many rows, by the transform of `Lib/Haar`. `haar2d_variants`: all of them are that
transform along both axes, so that each one's inverse takes back what any other gave.
-/

namespace NssFactory.Cpu.NlhHaar

open Haar Lines

/-! ## What each variant computes -/

section Lines

variable {α : Type*} [CommRing α] {s : α} {inverse : Bool} {src mat : Nat → α} {q n k i h : Nat}

variable (s) in
/-- The transform of a line of `2 ^ k` values, or its inverse. -/
def axis (inverse : Bool) (k : Nat) : (Nat → α) → Nat → α :=
  if inverse then Haar.inverse s k else Haar.transform s k

theorem axis_congr {f g : Nat → α} (hfg : ∀ i < 2 ^ k, f i = g i) (hi : i < 2 ^ k) :
    axis s inverse k f i = axis s inverse k g i := by
  cases inverse with
  | false => exact transform_congr hfg hi
  | true => exact inverse_congr hfg hi

theorem haar1dLevel_fst (st : Buffers α) :
    (haar1dLevel s (2 * h) st).1 = forwardStep s h st.1 := by
  funext x
  have hhalf : 2 * h / 2 = h := by omega
  simp only [haar1dLevel, hhalf]
  rw [storeRun_apply]
  by_cases hx : x < 2 * h
  · rw [if_pos (by omega), Nat.sub_zero]
    refine storeAll_pairs (forwardStep s h st.1) (fun i hi => ?_) (fun i hi => ?_) ?_
    · rw [forwardStep, if_pos hi]
      rfl
    · rw [forwardStep, if_neg (by omega), if_pos (by omega), Nat.add_sub_cancel_left]
      rfl
    · by_cases hlow : x < h
      · exact ⟨x, hlow, .inl rfl⟩
      · exact ⟨x - h, by omega, .inr (by omega)⟩
  · rw [if_neg (by omega), forwardStep, if_neg (by omega), if_neg (by omega)]

theorem iHaar1dLevel_fst (st : Buffers α) :
    (iHaar1dLevel s (2 * h) st).1 = backwardStep s h st.1 := by
  funext x
  have hhalf : 2 * h / 2 = h := by omega
  simp only [iHaar1dLevel, hhalf]
  rw [storeRun_apply]
  by_cases hx : x < 2 * h
  · rw [if_pos (by omega), Nat.sub_zero]
    refine storeAll_pairs (backwardStep s h st.1) (fun i hi => ?_) (fun i hi => ?_) ?_
    · rw [backwardStep, if_pos (by omega), if_pos (by omega), show 2 * i / 2 = i by omega]
    · rw [backwardStep, if_pos (by omega), if_neg (by omega), show (2 * i + 1) / 2 = i by omega]
    · exact ⟨x / 2, by omega, by omega⟩
  · rw [if_neg (by omega), backwardStep, if_neg (by omega)]

theorem transform1d_apply (hi : i < 2 ^ k) :
    transform1d s inverse src (2 ^ k) i = axis s inverse k src i := by
  have hinit : ∀ j < 2 ^ k, storeRun 0 (2 ^ k) src (fun _ => 0) j = src j := by
    intro j hj
    rw [storeRun_apply, if_pos (by omega), Nat.sub_zero]
  have hfuel : k ≤ 2 ^ k := Nat.lt_two_pow_self.le
  rw [← axis_congr hinit hi]
  unfold transform1d
  cases inverse with
  | false =>
    rw [if_neg Bool.false_ne_true, haar1dN]
    by_cases hone : 2 ^ k = 1
    · rw [if_pos hone]
      have hk : k = 0 := by simpa using hone
      subst hk
      exact (hinit i hi).symm
    · rw [if_neg hone]
      rw [halving_view Prod.fst (fun h st _ => haar1dLevel_fst st) hfuel, forwardLevels_apply,
        if_pos hi]
      rfl
  | true =>
    rw [if_pos rfl, iHaar1dN]
    by_cases hone : 2 ^ k = 1
    · rw [if_pos hone]
      have hk : k = 0 := by simpa using hone
      subst hk
      exact (hinit i hi).symm
    · rw [if_neg hone]
      have hlevels := doubling_view Prod.fst (t := 0) (k := k) (f := storeRun 0 (2 ^ k) src fun _ => 0)
        (s := (storeRun 0 (2 ^ k) src fun _ => 0, fun _ => 0))
        (fun h st _ => iHaar1dLevel_fst (s := s) st) rfl (Nat.zero_le k)
        (by omega : k ≤ 0 + 2 ^ k)
      rw [pow_zero, Nat.mul_one] at hlevels
      rw [hlevels, backwardLevels_apply, if_pos hi]
      rfl

/-! ## Lines in place -/

theorem div_mul_of_column {c x q : Nat} (hlow : c * q ≤ x) (hhigh : x < (c + 1) * q) :
    x / q = c ∧ x % q = x - c * q := by
  have hdiv : x / q = c := Nat.div_eq_of_lt_le hlow hhigh
  have := Nat.div_add_mod' x q
  rw [hdiv] at this
  exact ⟨hdiv, by omega⟩

theorem inPlace_eq (c : Nat) :
    inPlace s inverse (c * 2 ^ k) (2 ^ k) mat = cols (axis s inverse k) (2 ^ k) c (c + 1) mat := by
  funext x
  unfold inPlace cols
  rw [storeRun_apply]
  have hbounds : c * 2 ^ k + 2 ^ k = (c + 1) * 2 ^ k := by ring
  by_cases hx : c * 2 ^ k ≤ x ∧ x < (c + 1) * 2 ^ k
  · obtain ⟨hdiv, hmod⟩ := div_mul_of_column hx.1 hx.2
    rw [if_pos (by omega), if_pos hx, transform1d_apply (by omega), hdiv, hmod]
    simp only [Nat.add_comm]
  · rw [if_neg (by omega), if_neg hx]

theorem rowInPlace_eq {r : Nat} (hr : r < q) :
    rowInPlace s inverse q (2 ^ k) r mat = rows (axis s inverse k) q (2 ^ k) r (r + 1) mat := by
  funext x
  unfold rowInPlace rows
  have hline : ∀ c < 2 ^ k, ∀ x, x = r + c * q →
      transform1d s inverse (storeRun 0 (2 ^ k) (fun c => mat (r + c * q)) fun _ => 0) (2 ^ k) c =
        axis s inverse k (fun c => mat (x % q + c * q)) (x / q) := by
    rintro c hc x rfl
    rw [transform1d_apply hc, Nat.add_mul_mod_self_right, Nat.mod_eq_of_lt hr,
      Nat.add_mul_div_right _ _ (by omega), Nat.div_eq_of_lt hr, Nat.zero_add]
    refine axis_congr (fun j hj => ?_) hc
    rw [storeRun_apply, if_pos (by omega), Nat.sub_zero]
  rw [storeAll_apply fun x => axis s inverse k (fun c => mat (x % q + c * q)) (x / q)]
  · congr 1
    simp only [List.map_map, List.mem_map, List.mem_range, Function.comp_apply, eq_iff_iff]
    constructor
    · rintro ⟨c, hc, rfl⟩
      have hlt : (c + 1) * q ≤ 2 ^ k * q := Nat.mul_le_mul_right q hc
      rw [Nat.add_mul_mod_self_right, Nat.mod_eq_of_lt hr]
      rw [Nat.add_mul] at hlt
      omega
    · rintro ⟨hx, hlow, hhigh⟩
      refine ⟨x / q, (Nat.div_lt_iff_lt_mul (by omega)).mpr hx, ?_⟩
      have := Nat.div_add_mod' x q
      omega
  · intro st hst
    obtain ⟨c, hc, rfl⟩ := List.mem_map.mp hst
    exact hline c (List.mem_range.mp hc) _ rfl

theorem columnsByLine_eq :
    columnsByLine s inverse (2 ^ k) n mat = cols (axis s inverse k) (2 ^ k) 0 n mat := by
  unfold columnsByLine
  rw [foldl_pieces (cols (axis s inverse k) (2 ^ k)) 0 1 (fun _ => cols_empty)
    (fun _ => cols_append), Nat.mul_one, Nat.zero_add]
  intro c mat _
  rw [inPlace_eq, Nat.mul_one, Nat.zero_add]

theorem rowsByLine_eq :
    rowsByLine s inverse q (2 ^ k) mat = rows (axis s inverse k) q (2 ^ k) 0 q mat := by
  unfold rowsByLine
  rw [foldl_pieces (rows (axis s inverse k) q (2 ^ k)) 0 1 (fun _ => rows_empty)
    (fun _ => rows_append), Nat.mul_one, Nat.zero_add]
  intro r mat hr
  rw [rowInPlace_eq hr, Nat.mul_one, Nat.zero_add]

end Lines

/-! ## Lines in the lanes of vectors -/

section Interleaved

variable {α : Type*} {mat : Nat → α} {lanes : Nat}

def Vec4.at (v : Vec4 α) : Nat → Lanes α
  | 0 => v.v0
  | 1 => v.v1
  | 2 => v.v2
  | _ => v.v3

theorem loadInterleaved4_at {p r : Nat} (hr : r < 4) (l : Nat) :
    (loadInterleaved4 mat p).at r l = mat (p + 4 * l + r) := by interval_cases r <;> rfl

theorem storeInterleaved4_apply {v : Vec4 α} {p x : Nat} :
    storeInterleaved4 lanes v p mat x =
      if p ≤ x ∧ x < p + 4 * lanes then v.at ((x - p) % 4) ((x - p) / 4) else mat x := by
  unfold storeInterleaved4
  rw [storeAll_apply fun x => v.at ((x - p) % 4) ((x - p) / 4)]
  · congr 1
    simp only [List.map_flatMap, List.mem_flatMap, List.mem_range, List.map_cons, List.map_nil,
      List.mem_cons, List.not_mem_nil, or_false, eq_iff_iff]
    constructor
    · rintro ⟨l, hl, hx⟩
      omega
    · intro hx
      exact ⟨(x - p) / 4, by omega, by omega⟩
  · intro st hst
    obtain ⟨l, -, hst⟩ := List.mem_flatMap.mp hst
    have hat : ∀ r < 4, v.at ((p + 4 * l + r - p) % 4) ((p + 4 * l + r - p) / 4) = v.at r l := by
      intro r hr
      rw [show (p + 4 * l + r - p) % 4 = r by omega, show (p + 4 * l + r - p) / 4 = l by omega]
    simp only [List.mem_cons, List.not_mem_nil, or_false] at hst
    rcases hst with rfl | rfl | rfl | rfl
    · exact (hat 0 (by norm_num)).symm
    · exact (hat 1 (by norm_num)).symm
    · exact (hat 2 (by norm_num)).symm
    · exact (hat 3 (by norm_num)).symm

end Interleaved

section Vectors

variable {α : Type*} [CommRing α] {s : α} {inverse : Bool} {mat : Nat → α} {q n k h lanes : Nat}

theorem haar4Vec_at {v : Vec4 α} {r : Nat} (hr : r < 4) (l : Nat) :
    (haar4Vec s inverse v).at r l = axis s inverse 2 (fun r => v.at r l) r := by
  cases inverse with
  | false => interval_cases r <;> rfl
  | true => interval_cases r <;> rfl

theorem interleaved4_eq (c : Nat) :
    storeInterleaved4 lanes (haar4Vec s inverse (loadInterleaved4 mat (c * 4))) (c * 4) mat =
      cols (axis s inverse 2) 4 c (c + lanes) mat := by
  funext x
  rw [storeInterleaved4_apply, cols]
  by_cases hx : c * 4 ≤ x ∧ x < c * 4 + 4 * lanes
  · rw [if_pos hx, if_pos (by omega), haar4Vec_at (by omega), show (x - c * 4) % 4 = x % 4 by omega]
    refine axis_congr (fun r hr => ?_) (by omega)
    rw [loadInterleaved4_at hr]
    congr 1
    omega
  · rw [if_neg hx, if_neg (by omega)]

/-- The columns after the last whole vector, one by one. -/
theorem tail_eq (hq : q = 2 ^ k) {c : Nat} (hc : c ≤ n) :
    (List.range (n - c)).foldl (fun mat i => inPlace s inverse ((c + i) * q) q mat) mat =
      cols (axis s inverse k) q c n mat := by
  subst hq
  rw [foldl_pieces (cols (axis s inverse k) (2 ^ k)) c 1 (fun _ => cols_empty)
    (fun _ => cols_append), Nat.mul_one, Nat.add_sub_cancel' hc]
  intro i mat _
  rw [inPlace_eq, Nat.mul_one]

theorem haarColsQ4_eq :
    haarColsQ4 s lanes n inverse mat = cols (axis s inverse 2) 4 0 n mat := by
  have hvectors : (List.range (n / lanes)).foldl (fun mat block =>
      storeInterleaved4 lanes (haar4Vec s inverse (loadInterleaved4 mat (block * lanes * 4)))
        (block * lanes * 4) mat) mat = cols (axis s inverse 2) 4 0 (n / lanes * lanes) mat := by
    rw [foldl_pieces (cols (axis s inverse 2) 4) 0 lanes (fun _ => cols_empty)
      (fun _ => cols_append), Nat.zero_add]
    intro block mat _
    rw [interleaved4_eq, Nat.zero_add]
  unfold haarColsQ4
  simp only [hvectors]
  have hle : n / lanes * lanes ≤ n := Nat.div_mul_le_self n lanes
  rw [tail_eq (by norm_num : 4 = 2 ^ 2) hle, cols_append (Nat.zero_le _) hle]

/-- Two values and their transform, also as its inverse. -/
theorem pair_eq (c : Nat) :
    storeAll ((List.range lanes).flatMap fun l =>
        [(c * 2 + 2 * l, plus s (fun l => mat (c * 2 + 2 * l)) (fun l => mat (c * 2 + 2 * l + 1)) l),
          (c * 2 + 2 * l + 1,
            minus s (fun l => mat (c * 2 + 2 * l)) (fun l => mat (c * 2 + 2 * l + 1)) l)]) mat =
      cols (axis s inverse 1) 2 c (c + lanes) mat := by
  funext x
  have haxis : ∀ f : Nat → α, axis s inverse 1 f 0 = (f 0 + f 1) * s ∧
      axis s inverse 1 f 1 = (f 0 - f 1) * s := by
    intro f
    cases inverse with
    | false => exact ⟨rfl, rfl⟩
    | true => exact ⟨rfl, rfl⟩
  rw [storeAll_apply fun x => axis s inverse 1 (fun r => mat (r + x / 2 * 2)) (x % 2), cols]
  · congr 1
    simp only [List.map_flatMap, List.mem_flatMap, List.mem_range, List.map_cons, List.map_nil,
      List.mem_cons, List.not_mem_nil, or_false, eq_iff_iff]
    constructor
    · rintro ⟨l, hl, hx⟩
      omega
    · intro hx
      exact ⟨(x - c * 2) / 2, by omega, by omega⟩
  · intro st hst
    obtain ⟨l, -, hst⟩ := List.mem_flatMap.mp hst
    rcases List.mem_pair.mp hst with rfl | rfl
    · rw [show (c * 2 + 2 * l) % 2 = 0 by omega, (haxis _).1,
        show (c * 2 + 2 * l) / 2 * 2 = c * 2 + 2 * l by omega, Nat.zero_add, Nat.add_comm 1]
      rfl
    · rw [show (c * 2 + 2 * l + 1) % 2 = 1 by omega, (haxis _).2,
        show (c * 2 + 2 * l + 1) / 2 * 2 = c * 2 + 2 * l by omega, Nat.zero_add, Nat.add_comm 1]
      rfl

/-- The transform of two values is its own inverse. -/
theorem cols_axis_one {a b : Nat} :
    cols (axis s false 1) 2 a b mat = cols (axis s inverse 1) 2 a b mat := by
  cases inverse with
  | false => rfl
  | true =>
    funext x
    unfold cols
    have hmod : x % 2 < 2 := Nat.mod_lt x (by norm_num)
    generalize x % 2 = r at hmod
    interval_cases r <;> rfl

theorem haarColsQ2_eq : haarColsQ2 s lanes n mat = cols (axis s inverse 1) 2 0 n mat := by
  have hle : n / lanes * lanes ≤ n := Nat.div_mul_le_self n lanes
  unfold haarColsQ2
  simp only
  rw [tail_eq (by norm_num : 2 = 2 ^ 1) hle,
    foldl_pieces (cols (axis s false 1) 2) 0 lanes (fun _ => cols_empty) (fun _ => cols_append),
    Nat.zero_add, cols_append (Nat.zero_le _) hle, cols_axis_one]
  intro block mat _
  rw [pair_eq, Nat.zero_add]

end Vectors

/-! ## All rows, or several columns, together -/

section Together

variable {α : Type*} [CommRing α] {s : α} {inverse : Bool} {mat : Nat → α} {q n k h lanes : Nat}

variable (s) in
/-- One level of a line, or of its inverse. -/
def axisStep (inverse : Bool) (h : Nat) : (Nat → α) → Nat → α :=
  if inverse then backwardStep s h else forwardStep s h

theorem axisStep_off {f : Nat → α} {i : Nat} (hi : 2 * h ≤ i) : axisStep s inverse h f i = f i := by
  cases inverse with
  | false =>
    show forwardStep s h f i = f i
    rw [forwardStep, if_neg (by omega), if_neg (by omega)]
  | true =>
    show backwardStep s h f i = f i
    rw [backwardStep, if_neg (by omega)]

/-- A pass over the rows reaches each place of the front once. -/
theorem place_in_block {y : Nat} (hlanes : 0 < lanes) (hdvd : lanes ∣ q) (hy : y < q) :
    ∃ block < (q + lanes - 1) / lanes, ∃ l < lanes, y = block * lanes + l := by
  refine ⟨y / lanes, ?_, y % lanes, Nat.mod_lt y hlanes, (Nat.div_add_mod' y lanes).symm⟩
  rw [Nat.div_lt_iff_lt_mul hlanes]
  obtain ⟨m, rfl⟩ := hdvd
  rw [show lanes * m + lanes - 1 = lanes - 1 + lanes * m by omega, Nat.add_mul_div_left _ _ hlanes,
    Nat.div_eq_of_lt (by omega), Nat.zero_add, Nat.mul_comm]
  exact hy

theorem block_in_place {block l : Nat} (hlanes : 0 < lanes) (hdvd : lanes ∣ q)
    (hblock : block < (q + lanes - 1) / lanes) (hl : l < lanes) : block * lanes + l < q := by
  obtain ⟨m, rfl⟩ := hdvd
  rw [show lanes * m + lanes - 1 = lanes - 1 + lanes * m by omega, Nat.add_mul_div_left _ _ hlanes,
    Nat.div_eq_of_lt (by omega), Nat.zero_add] at hblock
  have hle : (block + 1) * lanes ≤ m * lanes := Nat.mul_le_mul_right lanes hblock
  rw [Nat.add_mul, Nat.mul_comm m] at hle
  omega

/-- A pass over vectors of rows that writes two columns in each round. -/
theorem rowsStores_apply {β : Type*} (p p' : Nat → Nat) (F : Nat → Nat → β)
    {v v' : Nat → Nat → Nat → β} {m : Nat → β} (hlanes : 0 < lanes) (hdvd : lanes ∣ q)
    (hv : ∀ j < h, ∀ block l, v j block l = F (p j) (block * lanes + l))
    (hv' : ∀ j < h, ∀ block l, v' j block l = F (p' j) (block * lanes + l)) {r c : Nat} (hr : r < q)
    (hc : ∃ j < h, c = p j ∨ c = p' j) :
    storeAll ((List.range h).flatMap fun j =>
      (List.range ((q + lanes - 1) / lanes)).flatMap fun block =>
        ((List.range lanes).map fun l => (p j * q + block * lanes + l, v j block l)) ++
          (List.range lanes).map fun l => (p' j * q + block * lanes + l, v' j block l)) m
      (r + c * q) = F c r := by
  have hplace : ∀ c y, y < q → (c * q + y) / q = c ∧ (c * q + y) % q = y := by
    intro c y hy
    rw [Nat.add_comm, Nat.add_mul_div_right _ _ (by omega), Nat.div_eq_of_lt hy, Nat.zero_add,
      Nat.add_mul_mod_self_right, Nat.mod_eq_of_lt hy]
    exact ⟨rfl, rfl⟩
  have hval : ∀ c y, y < q → F ((c * q + y) / q) ((c * q + y) % q) = F c y := by
    intro c y hy
    rw [(hplace c y hy).1, (hplace c y hy).2]
  rw [storeAll_of_mem fun x => F (x / q) (x % q)]
  · rw [Nat.add_comm, hval c r hr]
  · intro st hst
    obtain ⟨j, hj, hst⟩ := List.mem_flatMap.mp hst
    obtain ⟨block, hblock, hst⟩ := List.mem_flatMap.mp hst
    rw [List.mem_range] at hj hblock
    rcases List.mem_append.mp hst with hst | hst
    · obtain ⟨l, hl, rfl⟩ := List.mem_map.mp hst
      have hy := block_in_place hlanes hdvd hblock (List.mem_range.mp hl)
      simp only [Nat.add_assoc]
      rw [hval _ _ hy, hv j hj]
    · obtain ⟨l, hl, rfl⟩ := List.mem_map.mp hst
      have hy := block_in_place hlanes hdvd hblock (List.mem_range.mp hl)
      simp only [Nat.add_assoc]
      rw [hval _ _ hy, hv' j hj]
  · obtain ⟨j, hj, hc⟩ := hc
    obtain ⟨block, hblock, l, hl, rfl⟩ := place_in_block hlanes hdvd hr
    simp only [List.map_flatMap, List.mem_flatMap, List.mem_range, List.map_append, List.map_map,
      List.mem_append, List.mem_map, Function.comp_apply]
    refine ⟨j, hj, block, hblock, ?_⟩
    rcases hc with rfl | rfl
    · exact .inl ⟨l, hl, by omega⟩
    · exact .inr ⟨l, hl, by omega⟩

theorem rowsLevel_fst (hlanes : 0 < lanes) (hdvd : lanes ∣ q) (st : Buffers α) {r c : Nat}
    (hr : r < q) : (rowsLevel s q lanes inverse (2 * h) st).1 (r + c * q) =
      axisStep s inverse h (fun c => st.1 (r + c * q)) c := by
  have hhalf : 2 * h / 2 = h := by omega
  simp only [rowsLevel, hhalf]
  rw [storeRun_apply]
  by_cases hc : c < 2 * h
  · have hplace : (c + 1) * q ≤ 2 * h * q := Nat.mul_le_mul_right q hc
    rw [Nat.add_mul] at hplace
    rw [if_pos (by omega), Nat.sub_zero]
    cases inverse with
    | false =>
      simp only [Bool.not_false, if_true]
      refine rowsStores_apply (fun j => j) (fun j => h + j)
        (fun c r => forwardStep s h (fun c => st.1 (r + c * q)) c) hlanes hdvd
        (fun j hj block l => ?_) (fun j hj block l => ?_) hr ?_
      · simp only [forwardStep, if_pos hj, sums, plus, Nat.add_assoc, Nat.add_comm (_ * q)]
      · rw [forwardStep, if_neg (by omega), if_pos (by omega), Nat.add_sub_cancel_left]
        simp only [differences, minus, Nat.add_assoc, Nat.add_comm (_ * q)]
      · by_cases hlow : c < h
        · exact ⟨c, hlow, .inl rfl⟩
        · exact ⟨c - h, by omega, .inr (by omega)⟩
    | true =>
      simp only [Bool.not_true, Bool.false_eq_true, if_false]
      refine rowsStores_apply (fun j => 2 * j) (fun j => 2 * j + 1)
        (fun c r => backwardStep s h (fun c => st.1 (r + c * q)) c) hlanes hdvd
        (fun j hj block l => ?_) (fun j hj block l => ?_) hr ?_
      · rw [backwardStep, if_pos (by omega), if_pos (by omega), show 2 * j / 2 = j by omega]
        simp only [plus, Nat.add_assoc, Nat.add_comm (_ * q)]
      · rw [backwardStep, if_pos (by omega), if_neg (by omega), show (2 * j + 1) / 2 = j by omega]
        simp only [minus, Nat.add_assoc, Nat.add_comm (_ * q)]
      · exact ⟨c / 2, by omega, by omega⟩
  · have hplace : 2 * h * q ≤ c * q := Nat.mul_le_mul_right q (by omega)
    rw [if_neg (by omega), axisStep_off (by omega)]

variable (s inverse) in
/-- The loop over the levels of a line that can be seen in a state, or of its inverse. -/
theorem levels_view {σ : Type*} (body : Nat → σ → σ) (st : σ) (view : σ → Nat → α)
    (hbody : ∀ h st, 1 ≤ h → view (body (2 * h) st) = axisStep s inverse h (view st)) (i : Nat) :
    view (if !inverse then halving body (2 ^ k) (2 ^ k) st else doubling body (2 ^ k) (2 ^ k) 2 st) i =
      if i < 2 ^ k then axis s inverse k (view st) i else view st i := by
  have hfuel : k ≤ 2 ^ k := Nat.lt_two_pow_self.le
  cases inverse with
  | false =>
    simp only [Bool.not_false, if_true]
    rw [halving_view view hbody hfuel, forwardLevels_apply]
    rfl
  | true =>
    simp only [Bool.not_true, Bool.false_eq_true, if_false]
    have hlevels := doubling_view view (t := 0) (k := k) (f := view st) (s := st) hbody rfl
      (Nat.zero_le k) (by omega : k ≤ 0 + 2 ^ k)
    rw [pow_zero, Nat.mul_one] at hlevels
    rw [hlevels, backwardLevels_apply]
    rfl

theorem haarRowsTogether_eq {width : Nat} (hwidth : 0 < width) (hq : 0 < q)
    (hdvd : min width q ∣ q) :
    haarRowsTogether s q width (2 ^ k) inverse mat =
      rows (axis s inverse k) q (2 ^ k) 0 q mat := by
  funext x
  have hlanes : 0 < min width q := Nat.lt_min.mpr ⟨hwidth, hq⟩
  have hmod : x % q < q := Nat.mod_lt x hq
  have hx : x % q + x / q * q = x := by rw [Nat.add_comm]; exact Nat.div_add_mod' x q
  have hview := levels_view (k := k) s inverse (rowsLevel s q (min width q) inverse)
    (mat, fun _ => 0) (fun st c => st.1 (x % q + c * q))
    (fun h st _ => funext fun c => rowsLevel_fst hlanes hdvd st hmod) (x / q)
  simp only [hx] at hview
  have hlt : x / q < 2 ^ k ↔ x < 2 ^ k * q := Nat.div_lt_iff_lt_mul hq
  unfold haarRowsTogether rows
  cases inverse with
  | false =>
    simp only [Bool.not_false, if_true] at hview ⊢
    rw [hview]
    exact if_congr (by omega) rfl rfl
  | true =>
    simp only [Bool.not_true, Bool.false_eq_true, if_false] at hview ⊢
    rw [hview]
    exact if_congr (by omega) rfl rfl

theorem colsLevel_fst (st : Buffers (Lanes α)) (l r : Nat) :
    (colsLevel s inverse (2 * h) st).1 r l = axisStep s inverse h (fun r => st.1 r l) r := by
  have hhalf : 2 * h / 2 = h := by omega
  simp only [colsLevel, hhalf]
  rw [storeRun_apply]
  by_cases hr : r < 2 * h
  · rw [if_pos (by omega), Nat.sub_zero]
    cases inverse with
    | false =>
      simp only [Bool.not_false, if_true]
      rw [storeAll_pairs fun r l => forwardStep s h (fun r => st.1 r l) r]
      · rfl
      · intro i hi
        funext l
        rw [forwardStep, if_pos hi]
        rfl
      · intro i hi
        funext l
        rw [forwardStep, if_neg (by omega), if_pos (by omega), Nat.add_sub_cancel_left]
        rfl
      · by_cases hlow : r < h
        · exact ⟨r, hlow, .inl rfl⟩
        · exact ⟨r - h, by omega, .inr (by omega)⟩
    | true =>
      simp only [Bool.not_true, Bool.false_eq_true, if_false]
      rw [storeAll_pairs fun r l => backwardStep s h (fun r => st.1 r l) r]
      · rfl
      · intro i hi
        funext l
        rw [backwardStep, if_pos (by omega), if_pos (by omega), show 2 * i / 2 = i by omega]
        rfl
      · intro i hi
        funext l
        rw [backwardStep, if_pos (by omega), if_neg (by omega), show (2 * i + 1) / 2 = i by omega]
        rfl
      · exact ⟨r / 2, by omega, by omega⟩
  · rw [if_neg (by omega), axisStep_off (by omega)]

theorem haarColsTogether_eq {width : Nat} (hwidth : 0 < min width 8) (hdvd : min width 8 ∣ n) :
    haarColsTogether s (2 ^ k) width n inverse mat =
      cols (axis s inverse k) (2 ^ k) 0 n mat := by
  generalize hlanes : min width 8 = lanes at hwidth hdvd
  have hcount : (n + lanes - 1) / lanes * lanes = n := by
    obtain ⟨m, rfl⟩ := hdvd
    rw [show lanes * m + lanes - 1 = lanes - 1 + lanes * m by omega,
      Nat.add_mul_div_left _ _ hwidth, Nat.div_eq_of_lt (by omega), Nat.zero_add, Nat.mul_comm]
  unfold haarColsTogether
  simp only [hlanes]
  rw [foldl_pieces (cols (axis s inverse k) (2 ^ k)) 0 lanes (fun _ => cols_empty)
    (fun _ => cols_append), hcount, Nat.zero_add]
  intro block mat _
  rw [Nat.zero_add]
  generalize block * lanes = c
  have hpos : 0 < 2 ^ k := Nat.two_pow_pos k
  generalize hvalues : storeRun 0 (2 ^ k) (fun r => fun l => mat (c * 2 ^ k + (l * 2 ^ k + r)))
    (fun _ _ => 0) = values
  have hgather : ∀ l, ∀ r < 2 ^ k, values r l = mat (r + (c + l) * 2 ^ k) := by
    intro l r hr
    rw [← hvalues, storeRun_apply, if_pos (by omega), Nat.sub_zero]
    congr 1
    ring
  -- lane `l` carries column `c + l` through the levels
  have hlane : ∀ l, ∀ r < 2 ^ k,
      (if !inverse then
        (halving (colsLevel s false) (2 ^ k) (2 ^ k) (values, fun _ _ => 0)).1
      else (doubling (colsLevel s true) (2 ^ k) (2 ^ k) 2 (values, fun _ _ => 0)).1) r l =
        axis s inverse k (fun r => mat (r + (c + l) * 2 ^ k)) r := by
    intro l r hr
    have hview := levels_view (k := k) s inverse (colsLevel s inverse) (values, fun _ _ => 0)
      (fun st r => st.1 r l) (fun h st _ => funext fun r => colsLevel_fst st l r) r
    rw [if_pos hr] at hview
    rw [← axis_congr (hgather l) hr, ← hview]
    cases inverse with
    | false => rfl
    | true => rfl
  generalize (if !inverse then
      (halving (colsLevel s false) (2 ^ k) (2 ^ k) (values, fun _ _ => 0)).1
    else (doubling (colsLevel s true) (2 ^ k) (2 ^ k) 2 (values, fun _ _ => 0)).1) = out at hlane ⊢
  have hplace : ∀ l r, r < 2 ^ k → (c * 2 ^ k + (l * 2 ^ k + r)) / 2 ^ k = c + l ∧
      (c * 2 ^ k + (l * 2 ^ k + r)) % 2 ^ k = r := by
    intro l r hr
    rw [show c * 2 ^ k + (l * 2 ^ k + r) = r + (c + l) * 2 ^ k by ring,
      Nat.add_mul_div_right _ _ hpos, Nat.div_eq_of_lt hr, Nat.zero_add,
      Nat.add_mul_mod_self_right, Nat.mod_eq_of_lt hr]
    exact ⟨rfl, rfl⟩
  funext x
  rw [storeAll_apply fun x => axis s inverse k (fun r => mat (r + x / 2 ^ k * 2 ^ k)) (x % 2 ^ k), cols]
  · congr 1
    simp only [List.map_flatMap, List.mem_flatMap, List.mem_range, List.map_map, List.mem_map,
      Function.comp_apply, eq_iff_iff]
    constructor
    · rintro ⟨r, hr, l, hl, rfl⟩
      have hle : (l + 1) * 2 ^ k ≤ lanes * 2 ^ k := Nat.mul_le_mul_right _ hl
      rw [Nat.add_mul] at hle ⊢
      omega
    · rintro ⟨hlow, hhigh⟩
      have hcol : c ≤ x / 2 ^ k := (Nat.le_div_iff_mul_le hpos).mpr hlow
      have hcol' : x / 2 ^ k < c + lanes := (Nat.div_lt_iff_lt_mul hpos).mpr hhigh
      refine ⟨x % 2 ^ k, Nat.mod_lt x hpos, x / 2 ^ k - c, by omega, ?_⟩
      rw [← Nat.add_assoc, ← Nat.add_mul, Nat.add_sub_cancel' hcol]
      exact Nat.div_add_mod' x _
  · intro st hst
    obtain ⟨r, hr, hst⟩ := List.mem_flatMap.mp hst
    obtain ⟨l, -, rfl⟩ := List.mem_map.mp hst
    rw [List.mem_range] at hr
    rw [(hplace l r hr).1, (hplace l r hr).2]
    exact hlane l r hr

end Together

/-! ## Sixteen columns in registers -/

section Registers

variable {α : Type*} [CommRing α] {s : α} {inverse : Bool} {mat : Nat → α} {t : Target} {i : Nat}

theorem haar16VecFwd_apply (v : Lanes α) (hi : i < 16) :
    haar16VecFwd s v i = axis s false 4 v i := by interval_cases i <;> rfl

theorem haar16VecInv_apply (v : Lanes α) (hi : i < 16) :
    haar16VecInv s v i = axis s true 4 v i := by interval_cases i <;> rfl

variable (s inverse) in
theorem haar16Pair_apply (lo hi : Lanes α) (hi8 : i < 8) :
    (haar16Pair s inverse lo hi).1 i = axis s inverse 4 (combine 8 hi lo) i ∧
      (haar16Pair s inverse lo hi).2 i = axis s inverse 4 (combine 8 hi lo) (8 + i) := by
  cases inverse with
  | false => interval_cases i <;> exact ⟨rfl, rfl⟩
  | true => interval_cases i <;> exact ⟨rfl, rfl⟩

theorem haar16InVec_apply (hlanes : t.lanes = 16) (v : Lanes α) (hi : i < 16) :
    haar16InVec s t inverse v i = axis s inverse 4 v i := by
  unfold haar16InVec
  by_cases hwide : t.wide = true
  · rw [if_pos (by simp [hwide, hlanes])]
    cases inverse with
    | false => exact haar16VecFwd_apply v hi
    | true => exact haar16VecInv_apply v hi
  · rw [if_neg (by simp [hwide]), storeRun_apply, if_pos (by omega), Nat.sub_zero, show 16 = 2 ^ 4 by norm_num,
      transform1d_apply (by omega)]
    refine axis_congr (fun j hj => ?_) (by omega)
    rw [storeRun_apply, hlanes, if_pos (by omega), Nat.sub_zero]

variable (s) in
/-- The transform along both axes, columns first; the inverse takes the rows first. -/
def haar2d (kq kn : Nat) (inverse : Bool) (mat : Nat → α) : Nat → α :=
  let q := 2 ^ kq
  let n := 2 ^ kn
  if inverse then cols (axis s true kq) q 0 n (rows (axis s true kn) q n 0 q mat)
  else rows (axis s false kn) q n 0 q (cols (axis s false kq) q 0 n mat)

/-- Four rows of sixteen values, place by place. -/
theorem haar2d_four_sixteen (x : Nat) :
    haar2d s 2 4 inverse mat x =
      if x < 64 then
        if inverse then
          axis s true 2 (fun r => axis s true 4 (fun c => mat (4 * c + r)) (x / 4)) (x % 4)
        else axis s false 4 (fun c => axis s false 2 (fun r => mat (4 * c + r)) (x % 4)) (x / 4)
      else mat x := by
  unfold haar2d
  by_cases hx : x < 64
  · rw [if_pos hx]
    cases inverse with
    | false =>
      simp only [Bool.false_eq_true, if_false]
      rw [rows, if_pos (by omega)]
      refine axis_congr (fun c hc => ?_) (by omega)
      rw [cols, if_pos (by omega), show (x % 2 ^ 2 + c * 2 ^ 2) / 2 ^ 2 = c by omega,
        show (x % 2 ^ 2 + c * 2 ^ 2) % 2 ^ 2 = x % 4 by omega]
      refine axis_congr (fun r hr => ?_) (by omega)
      congr 1
      omega
    | true =>
      simp only [if_true]
      rw [cols, if_pos (by omega)]
      refine axis_congr (fun r hr => ?_) (by omega)
      rw [rows, if_pos (by omega), show (r + x / 2 ^ 2 * 2 ^ 2) / 2 ^ 2 = x / 4 by omega,
        show (r + x / 2 ^ 2 * 2 ^ 2) % 2 ^ 2 = r by omega]
      refine axis_congr (fun c hc => ?_) (by omega)
      congr 1
      omega
  · rw [if_neg hx]
    cases inverse with
    | false =>
      simp only [Bool.false_eq_true, if_false]
      rw [rows, if_neg (by omega), cols, if_neg (by omega)]
    | true =>
      simp only [if_true]
      rw [cols, if_neg (by omega), rows, if_neg (by omega)]

omit [CommRing α] in
theorem Vec4.at_map (f : Lanes α → Lanes α) (v : Vec4 α) {r : Nat} (hr : r < 4) :
    Vec4.at ⟨f v.v0, f v.v1, f v.v2, f v.v3⟩ r = f (v.at r) := by interval_cases r <;> rfl

theorem haar2d4x16_eq (hlanes : t.lanes = 16) (avx2Enabled : Bool) :
    haar2d4x16 s t inverse avx2Enabled mat = haar2d s 2 4 inverse mat := by
  funext x
  rw [haar2d_four_sixteen, haar2d4x16, if_pos hlanes]
  simp only
  rw [storeInterleaved4_apply, Nat.sub_zero]
  by_cases hx : x < 64
  · have hr : x % 4 < 4 := Nat.mod_lt x (by norm_num)
    rw [if_pos (by omega), if_pos hx]
    cases inverse with
    | false =>
      simp only [Bool.not_false, if_true, Bool.false_eq_true, if_false]
      rw [Vec4.at_map (haar16InVec s t false) _ hr, haar16InVec_apply hlanes _ (by omega)]
      refine axis_congr (fun c _ => ?_) (by omega)
      rw [haar4Vec_at hr]
      refine axis_congr (fun r hr => ?_) hr
      rw [loadInterleaved4_at hr, Nat.zero_add]
    | true =>
      simp only [Bool.not_true, Bool.false_eq_true, if_false, if_true]
      rw [haar4Vec_at hr]
      refine axis_congr (fun r hr => ?_) hr
      rw [Vec4.at_map (haar16InVec s t true) _ hr, haar16InVec_apply hlanes _ (by omega)]
      refine axis_congr (fun c _ => ?_) (by omega)
      rw [loadInterleaved4_at hr, Nat.zero_add]
  · rw [if_neg (by omega), if_neg hx]

omit [CommRing α] in
/-- Row `r` of both halves is one row of sixteen. -/
theorem combine_load {r c : Nat} (hr : r < 4) :
    combine 8 ((loadInterleaved4 mat 32).at r) ((loadInterleaved4 mat 0).at r) c =
      mat (4 * c + r) := by
  unfold combine
  by_cases hc : c < 8
  · rw [if_pos hc, loadInterleaved4_at hr, Nat.zero_add]
  · rw [if_neg hc, loadInterleaved4_at hr]
    congr 1
    omega

variable (s inverse) in
/-- The four pairs of registers, and lane `c` of row `r` in the sixteen of both. -/
theorem pairs_at (a b : Vec4 α) {r c : Nat} (hr : r < 4) (hc : c < 16) :
    (if c < 8 then
      Vec4.at ⟨(haar16Pair s inverse a.v0 b.v0).1, (haar16Pair s inverse a.v1 b.v1).1,
        (haar16Pair s inverse a.v2 b.v2).1, (haar16Pair s inverse a.v3 b.v3).1⟩ r c
    else
      Vec4.at ⟨(haar16Pair s inverse a.v0 b.v0).2, (haar16Pair s inverse a.v1 b.v1).2,
        (haar16Pair s inverse a.v2 b.v2).2, (haar16Pair s inverse a.v3 b.v3).2⟩ r (c - 8)) =
      axis s inverse 4 (combine 8 (b.at r) (a.at r)) c := by
  by_cases hlow : c < 8
  · rw [if_pos hlow, ← (haar16Pair_apply s inverse (a.at r) (b.at r) hlow).1]
    interval_cases r <;> rfl
  · have hhigh : c - 8 < 8 := by omega
    have hpair := (haar16Pair_apply s inverse (a.at r) (b.at r) hhigh).2
    rw [show 8 + (c - 8) = c by omega] at hpair
    rw [if_neg hlow, ← hpair]
    interval_cases r <;> rfl

theorem haar2dAvx24x16_eq : haar2dAvx24x16 s inverse mat = haar2d s 2 4 inverse mat := by
  funext x
  rw [haar2d_four_sixteen]
  unfold haar2dAvx24x16
  by_cases hx : x < 64
  · have hr : x % 4 < 4 := Nat.mod_lt x (by norm_num)
    rw [if_pos hx]
    -- the lower half is stored first
    have hstored : ∀ lo hi : Vec4 α,
        storeInterleaved4 8 hi 32 (storeInterleaved4 8 lo 0 mat) x =
          if x / 4 < 8 then lo.at (x % 4) (x / 4) else hi.at (x % 4) (x / 4 - 8) := by
      intro lo hi
      rw [storeInterleaved4_apply, storeInterleaved4_apply, Nat.sub_zero]
      by_cases hlow : x < 32
      · rw [if_neg (by omega), if_pos (by omega), if_pos (by omega)]
      · rw [if_pos (by omega), if_neg (by omega), show (x - 32) % 4 = x % 4 by omega,
          show (x - 32) / 4 = x / 4 - 8 by omega]
    simp only
    rw [hstored]
    cases inverse with
    | false =>
      simp only [Bool.not_false, if_true, Bool.false_eq_true, if_false]
      rw [pairs_at s false _ _ hr (by omega)]
      refine axis_congr (fun c _ => ?_) (by omega)
      by_cases hlow : c < 8
      · rw [combine, if_pos hlow, haar4Vec_at hr]
        refine axis_congr (fun r hr => ?_) hr
        rw [loadInterleaved4_at hr, Nat.zero_add]
      · rw [combine, if_neg hlow, haar4Vec_at hr]
        refine axis_congr (fun r hr => ?_) hr
        rw [loadInterleaved4_at hr]
        congr 1
        omega
    | true =>
      simp only [Bool.not_true, Bool.false_eq_true, if_false, if_true]
      by_cases hlow : x / 4 < 8
      · rw [if_pos hlow, haar4Vec_at hr]
        refine axis_congr (fun r hr => ?_) hr
        have hpair := pairs_at s true (loadInterleaved4 mat 0)
          (loadInterleaved4 mat 32) hr (by omega : x / 4 < 16)
        rw [if_pos hlow] at hpair
        rw [hpair]
        exact axis_congr (fun c _ => combine_load hr) (by omega)
      · rw [if_neg hlow, haar4Vec_at hr]
        refine axis_congr (fun r hr => ?_) hr
        have hpair := pairs_at s true (loadInterleaved4 mat 0)
          (loadInterleaved4 mat 32) hr (by omega : x / 4 < 16)
        rw [if_neg hlow] at hpair
        rw [hpair]
        exact axis_congr (fun c _ => combine_load hr) (by omega)
  · rw [if_neg hx]
    simp only
    rw [storeInterleaved4_apply, storeInterleaved4_apply, if_neg (by omega), if_neg (by omega)]

end Registers

/-! ## All the variants -/

section Variants

variable {α : Type*} [CommRing α] {s : α} {inverse : Bool} {mat : Nat → α} {t : Target} {kq kn : Nat}

theorem min_two_pow_dvd (a b : Nat) : min (2 ^ a) (2 ^ b) ∣ 2 ^ b := by
  rcases Nat.le_total a b with h | h
  · rw [Nat.min_eq_left (Nat.pow_le_pow_right (by norm_num) h)]
    exact Nat.pow_dvd_pow 2 h
  · rw [Nat.min_eq_right (Nat.pow_le_pow_right (by norm_num) h)]

theorem haar2dGeneric_eq :
    haar2dGeneric s (2 ^ kq) (2 ^ kn) inverse mat = haar2d s kq kn inverse mat := by
  unfold haar2dGeneric haar2d
  simp only [columnsByLine_eq, rowsByLine_eq]

/-- The vectors of rows of a target. -/
theorem targetRows_eq {q : Nat} (hq : q = 2 ^ kq) :
    haarRowsTogether s q t.lanes (2 ^ kn) inverse mat =
      rows (axis s inverse kn) q (2 ^ kn) 0 q mat := by
  subst hq
  exact haarRowsTogether_eq (Nat.two_pow_pos _) (Nat.two_pow_pos _) (min_two_pow_dvd _ _)

theorem targetCols_eq {q n : Nat} (hq : q = 2 ^ kq) (hn : n % 8 = 0) :
    haarColsTogether s q t.lanes n inverse mat = cols (axis s inverse kq) q 0 n mat := by
  subst hq
  have hdvd : min t.lanes 8 ∣ n := (min_two_pow_dvd t.log2Lanes 3).trans (Nat.dvd_of_mod_eq_zero hn)
  exact haarColsTogether_eq (Nat.lt_min.mpr ⟨Nat.two_pow_pos _, by norm_num⟩) hdvd

theorem fastCols_eq {n : Nat} :
    fastCols s t (2 ^ kq) n inverse mat = cols (axis s inverse kq) (2 ^ kq) 0 n mat := by
  have hinj : ∀ {a : Nat}, 2 ^ kq = 2 ^ a → kq = a := fun h => Nat.pow_right_injective (le_refl 2) h
  unfold fastCols
  split_ifs with h8 h16 h4 h2
  · simp only [Bool.and_eq_true, beq_iff_eq, decide_eq_true_eq] at h8
    rw [targetCols_eq h8.1.1.2.symm h8.2, h8.1.1.2]
  · simp only [Bool.and_eq_true, beq_iff_eq, decide_eq_true_eq] at h16
    rw [targetCols_eq h16.1.1.2.symm h16.2, h16.1.1.2]
  · obtain rfl := hinj (a := 2) h4
    exact haarColsQ4_eq
  · obtain rfl := hinj (a := 1) h2
    exact haarColsQ2_eq
  · exact columnsByLine_eq

theorem fastRows_eq : fastRows s t (2 ^ kq) (2 ^ kn) inverse mat =
    rows (axis s inverse kn) (2 ^ kq) (2 ^ kn) 0 (2 ^ kq) mat := by
  unfold fastRows
  split_ifs with h8 h16 h4 h2
  · rw [targetRows_eq h8.symm, h8]
  · rw [targetRows_eq h16.symm, h16]
  · rw [targetRows_eq h4.1.symm, h4.1]
  · simp only [Bool.and_eq_true, beq_iff_eq, decide_eq_true_eq] at h2
    rw [targetRows_eq h2.1.2.symm, h2.1.2]
  · exact rowsByLine_eq

theorem haar2dFast_eq (avx2Enabled : Bool) :
    haar2dFast s t (2 ^ kq) (2 ^ kn) inverse avx2Enabled mat = haar2d s kq kn inverse mat := by
  unfold haar2dFast
  split_ifs with h hinverse
  · simp only [Bool.and_eq_true, beq_iff_eq] at h
    obtain rfl : kq = 2 := Nat.pow_right_injective (le_refl 2) h.1.2
    obtain rfl : kn = 4 := Nat.pow_right_injective (le_refl 2) h.2
    exact haar2dAvx24x16_eq
  · rw [fastCols_eq, fastRows_eq, hinverse]
    rfl
  · rw [fastCols_eq, fastRows_eq]
    simp only [Bool.not_eq_true] at hinverse
    rw [hinverse]
    rfl

theorem special_eq (avx2Enabled : Bool) :
    haar2d4x16 s t inverse avx2Enabled mat = haar2d s 2 4 inverse mat := by
  by_cases hlanes : t.lanes = 16
  · exact haar2d4x16_eq hlanes avx2Enabled
  · have hfast : haar2dFast s t (2 ^ 2) (2 ^ 4) inverse avx2Enabled mat =
        haar2d s 2 4 inverse mat := haar2dFast_eq avx2Enabled
    rw [haar2d4x16, if_neg hlanes]
    exact hfast

/-- The inverse along both axes takes the transform back. -/
theorem haar2d_inverse (hs : 2 * s ^ 2 = 1) :
    haar2d s kq kn true (haar2d s kq kn false mat) = mat := by
  have hcancel : ∀ (k : Nat) (f : Nat → α), ∀ i < 2 ^ k,
      axis s true k (axis s false k f) i = f i := fun k f i hi => inverse_transform hs hi
  have hcongr : ∀ (k : Nat) (f g : Nat → α), (∀ j < 2 ^ k, f j = g j) →
      ∀ i < 2 ^ k, axis s true k f i = axis s true k g i := fun k f g hfg i hi => axis_congr hfg hi
  unfold haar2d
  simp only [if_true, Bool.false_eq_true, if_false]
  rw [rows_cancel (Nat.two_pow_pos kq) (hcongr kn) (hcancel kn),
    cols_cancel (Nat.two_pow_pos kq) (hcongr kq) (hcancel kq)]

/-- The ways to transform a group: `special` is for 4 by 16 values only. -/
inductive Variant
  | generic
  | fast (t : Target) (avx2Enabled : Bool)
  | special (t : Target) (avx2Enabled : Bool)
  | dispatch (t : Target) (alignmentGeneric : Bool)

variable (s) in
def Variant.run (q n : Nat) (inverse : Bool) (mat : Nat → α) : Variant → Nat → α
  | generic => haar2dGeneric s q n inverse mat
  | fast t avx2Enabled => haar2dFast s t q n inverse avx2Enabled mat
  | special t avx2Enabled => haar2d4x16 s t inverse avx2Enabled mat
  | dispatch t alignmentGeneric => nlhHaar2d s t alignmentGeneric q n inverse mat

def Variant.Takes (q n : Nat) : Variant → Prop
  | special _ _ => q = 4 ∧ n = 16
  | _ => True

theorem Variant.run_spec {v : Variant} (hv : v.Takes (2 ^ kq) (2 ^ kn)) :
    v.run s (2 ^ kq) (2 ^ kn) inverse mat = haar2d s kq kn inverse mat := by
  cases v with
  | generic => exact haar2dGeneric_eq
  | fast t avx2Enabled => exact haar2dFast_eq avx2Enabled
  | special t avx2Enabled =>
    obtain rfl : kq = 2 := Nat.pow_right_injective (le_refl 2) hv.1
    obtain rfl : kn = 4 := Nat.pow_right_injective (le_refl 2) hv.2
    exact special_eq avx2Enabled
  | dispatch t alignmentGeneric =>
    unfold run nlhHaar2d
    simp only
    split_ifs with hgeneric hspecial
    · exact haar2dGeneric_eq
    · obtain rfl : kq = 2 := Nat.pow_right_injective (le_refl 2) hspecial.1
      obtain rfl : kn = 4 := Nat.pow_right_injective (le_refl 2) hspecial.2
      exact special_eq true
    · exact haar2dFast_eq true

/-- Every way to transform a group of `2 ^ kq` by `2 ^ kn` values gives the transforms along both
axes, and each one's inverse takes back what any of them gave. -/
theorem haar2d_variants (hs : 2 * s ^ 2 = 1) {v w : Variant} (hv : v.Takes (2 ^ kq) (2 ^ kn))
    (hw : w.Takes (2 ^ kq) (2 ^ kn)) (mat : Nat → α) :
    v.run s (2 ^ kq) (2 ^ kn) false mat = haar2d s kq kn false mat ∧
      v.run s (2 ^ kq) (2 ^ kn) true mat = haar2d s kq kn true mat ∧
      w.run s (2 ^ kq) (2 ^ kn) true (v.run s (2 ^ kq) (2 ^ kn) false mat) = mat := by
  refine ⟨Variant.run_spec hv, Variant.run_spec hv, ?_⟩
  rw [Variant.run_spec hv, Variant.run_spec hw, haar2d_inverse hs]

/-- Two is a scale modulo seven: registers of 16 lanes, taken back in vectors of 8. -/
theorem haar2d_variants_seven :
    Variant.run (2 : ZMod 7) (2 ^ 2) (2 ^ 4) true
      (Variant.run (2 : ZMod 7) (2 ^ 2) (2 ^ 4) false (fun x : Nat => (x : ZMod 7))
        (.special ⟨4, true, false, true⟩ true)) (.fast ⟨3, false, true, false⟩ true) =
      fun x : Nat => (x : ZMod 7) :=
  (haar2d_variants (by decide) (v := .special ⟨4, true, false, true⟩ true)
    (w := .fast ⟨3, false, true, false⟩ true) ⟨rfl, rfl⟩ trivial _).2.2

end Variants

end NssFactory.Cpu.NlhHaar

import NssFactory.Cpu.PixelMatch
import NssFactory.Lib.Keyed

/-!
# Distances, insertion and selection

The parts of `PixelMatch`: `ssdFrom` stores the distances `ssd` (`ssdFrom_apply`), `insert` and
`select_row` keep the least ones in the order of `key`, by distance and then by index
(`foldl_insertSlot`, `selectSlots_eq`).
-/

namespace NssFactory.Cpu.Pixel

open Function Bm4d

/-! ## Floats below the sentinel -/

/-- A distance, or the sentinel. -/
def Small (d : F32) : Prop := d.toNat ≤ kInf.toNat

section Floats

variable {a b d : F32}

theorem kInf_toNat : kInf.toNat = 0x7149f2ca := rfl

theorem Small.toNat_lt (h : Small d) : d.toNat < 2 ^ 31 := by
  have := kInf_toNat
  unfold Small at h
  omega

theorem value_of_sign (h : d.msb = false) : d.value = d.toNat := by
  have hlt : d.toNat < 2 ^ 31 := by
    have := d.isLt
    rw [BitVec.msb_eq_decide, decide_eq_false_iff_not] at h
    omega
  unfold F32.value
  rw [h, if_neg Bool.false_ne_true, BitVec.toNat_and]
  have hmask : (0x7fffffff#32).toNat = 2 ^ 31 - 1 := rfl
  rw [hmask, Nat.and_two_pow_sub_one_eq_mod, Nat.mod_eq_of_lt hlt]

theorem Small.sign (h : Small d) : d.msb = false := by
  have := h.toNat_lt
  rw [BitVec.msb_eq_decide, decide_eq_false_iff_not]
  omega

theorem Small.number (h : Small d) : d.isNaN = false := by
  have hfinite : d.isFiniteBits = true := by
    unfold F32.isFiniteBits
    rw [bne_iff_ne]
    intro heq
    have hle : (d &&& 0x7f800000#32).toNat ≤ d.toNat := by
      rw [BitVec.toNat_and]
      exact Nat.and_le_left
    have hbits : (0x7f800000#32).toNat = 0x7f800000 := rfl
    have := kInf_toNat
    unfold Small at h
    rw [heq, hbits] at hle
    omega
  simp [F32.isNaN, hfinite]

theorem Small.lt_iff (ha : Small a) (hb : Small b) : a.lt b = true ↔ a.toNat < b.toNat := by
  rw [Bm4d.lt_iff ha.number hb.number, value_of_sign ha.sign, value_of_sign hb.sign]
  exact Int.ofNat_lt

theorem Small.feq_iff (ha : Small a) (hb : Small b) : feq a b = true ↔ a = b := by
  simp only [feq, ha.number, hb.number, value_of_sign ha.sign, value_of_sign hb.sign]
  simp [BitVec.toNat_inj]

theorem small_kInf : Small kInf := Nat.le_refl _

/-- A sum of squares below the sentinel. -/
theorem toNat_lt_of_lt (h : Running d) (hlt : d.lt kInf = true) : d.toNat < kInf.toNat := by
  rcases h with h | h
  · simp [F32.lt, h] at hlt
  · rw [Bm4d.lt_iff h.number small_kInf.number, value_of_sign h.sign, value_of_sign small_kInf.sign] at hlt
    exact Int.ofNat_lt.mp hlt

theorem vmin_spec (ha : Small a) (hb : Small b) :
    (vmin a b = a ∨ vmin a b = b) ∧ (vmin a b).toNat ≤ a.toNat ∧ (vmin a b).toNat ≤ b.toNat := by
  unfold vmin
  split
  · rename_i h
    have := (ha.lt_iff hb).mp h
    exact ⟨.inl rfl, Nat.le_refl _, by omega⟩
  · rename_i h
    have := mt (ha.lt_iff hb).mpr h
    exact ⟨.inr rfl, by omega, Nat.le_refl _⟩

end Floats

/-! ## The distances -/

section Distances

variable {ops : Squares} {g : Group}

/-- The squared distance of row `s` from row `r`, by columns. -/
def ssd (ops : Squares) (g : Group) (r s : Nat) : F32 :=
  (List.range g.n).foldl (fun acc c =>
    let e := ops.sub (g.value (c * g.lda + s)) (g.value (r + c * g.lda))
    ops.mulAdd e e acc) F32.zero

theorem ssd_comm (r s : Nat) : ssd ops g r s = ssd ops g s r := by
  unfold ssd
  refine List.foldl_ext _ _ _ fun acc c _ => ?_
  simp only [Nat.add_comm r, Nat.add_comm s]
  exact ops.swap _ _ acc

theorem ssd_running (r s : Nat) : Running (ssd ops g r s) := by
  unfold ssd
  refine List.foldlRecOn _ _ ?_ fun acc h c _ => ops.running h
  exact .inr ⟨by decide, by decide⟩

/-- A loaded lane of an accumulator. -/
theorem accumulate_eq {lanes r s0 k i : Nat} {count : Nat → Nat} (h : i < count k) :
    accumulate ops g lanes r s0 count k i = ssd ops g r (s0 + k * lanes + i) := by
  unfold accumulate ssd
  induction List.range g.n using List.reverseRecOn with
  | nil => rfl
  | append_singleton cs c ih =>
    rw [List.foldl_append, List.foldl_append, List.foldl_cons, List.foldl_nil, List.foldl_cons, List.foldl_nil, ← ih]
    simp only [loadN, if_pos h, Nat.add_assoc]

/-- The distances of row `r` from the rows `s0` to `x` have been stored. -/
def Filled (ops : Squares) (g : Group) (r s0 x : Nat) (out out' : Nat → F32) : Prop :=
  ∀ i, out' i = if s0 ≤ i ∧ i < x then ssd ops g r i else out i

theorem Filled.storeN {r s0 x count : Nat} {out out' v : Nat → F32} (h : Filled ops g r s0 x out out') (hx : s0 ≤ x)
    (hv : ∀ i < count, v i = ssd ops g r (x + i)) : Filled ops g r s0 (x + count) out (storeN v out' x count) := by
  intro i
  unfold Pixel.storeN
  by_cases hin : x ≤ i ∧ i < x + count
  · rw [if_pos hin, if_pos (by omega), hv (i - x) (by omega), Nat.add_sub_cancel' hin.1]
  · rw [if_neg hin, h i]
    by_cases hbefore : s0 ≤ i ∧ i < x
    · rw [if_pos hbefore, if_pos (by omega)]
    · rw [if_neg hbefore, if_neg (by omega)]

/-- The stores of the first `K` accumulators. -/
theorem Filled.stores {r s0 x lanes : Nat} {out out' : Nat → F32} (acc : Nat → Nat → F32) (K : Nat)
    (h : Filled ops g r s0 x out out') (hx : s0 ≤ x)
    (hacc : ∀ k < K, ∀ i < lanes, acc k i = ssd ops g r (x + k * lanes + i)) :
    Filled ops g r s0 (x + K * lanes) out
      ((List.range K).foldl (fun out k => Pixel.storeN (acc k) out (x + k * lanes) lanes) out') := by
  induction K with
  | zero => simpa using h
  | succ K ih =>
    rw [List.range_succ, List.foldl_append, List.foldl_cons, List.foldl_nil, Nat.succ_mul, ← Nat.add_assoc]
    refine (ih fun k hk => hacc k (by omega)).storeN (by omega) fun i hi => hacc K (by omega) i hi

theorem Filled.remainder {r s0 x : Nat} {out out' : Nat → F32} (lanes K tail : Nat) (h : Filled ops g r s0 x out out')
    (hx : s0 ≤ x) : Filled ops g r s0 (x + K * lanes + tail) out (ssdRemainder ops g lanes K r x tail out') := by
  have hstores := h.stores (accumulate ops g lanes r x fun k => if k < K then lanes else tail) K hx
    fun k hk i hi => accumulate_eq (by rw [if_pos hk]; exact hi)
  unfold ssdRemainder
  dsimp only
  by_cases ht : tail = 0
  · rw [if_neg (by simpa using ht), ht, Nat.add_zero]
    rw [ht] at hstores
    exact hstores
  · rw [if_pos ht]
    refine hstores.storeN (by omega) fun i hi => accumulate_eq ?_
    rw [if_neg (Nat.lt_irrefl K)]
    exact hi

theorem ssdFrom_filled {lanes r s0 : Nat} (hs : s0 ≤ g.m) (out : Nat → F32) :
    Filled ops g r s0 g.m out (ssdFrom ops g lanes r s0 out) := by
  have hstart : Filled ops g r s0 s0 out out := fun i => by rw [if_neg (by omega)]
  have hblocks : ∀ B, Filled ops g r s0 (s0 + B * (4 * lanes)) out ((List.range B).foldl (fun out b =>
      (List.range 4).foldl (fun out k => Pixel.storeN (accumulate ops g lanes r (s0 + b * (4 * lanes)) (fun _ => lanes) k)
        out (s0 + b * (4 * lanes) + k * lanes) lanes) out) out) := by
    intro B
    induction B with
    | zero => simpa using hstart
    | succ B ih =>
      rw [List.range_succ (n := B), List.foldl_append, List.foldl_cons, List.foldl_nil, Nat.succ_mul, ← Nat.add_assoc]
      exact ih.stores _ 4 (by omega) fun k _ i hi => accumulate_eq hi
  have hle := Nat.div_mul_le_self (g.m - s0) (4 * lanes)
  unfold ssdFrom
  dsimp only
  generalize (g.m - s0) / (4 * lanes) = B at hle
  split
  · have hend : s0 + B * (4 * lanes) = g.m := by omega
    exact hend ▸ hblocks B
  · have hrest := (hblocks B).remainder lanes ((g.m - (s0 + B * (4 * lanes))) / lanes)
      ((g.m - (s0 + B * (4 * lanes))) % lanes) (by omega)
    have hdiv := Nat.div_add_mod' (g.m - (s0 + B * (4 * lanes))) lanes
    have hend : s0 + B * (4 * lanes) + (g.m - (s0 + B * (4 * lanes))) / lanes * lanes +
        (g.m - (s0 + B * (4 * lanes))) % lanes = g.m := by omega
    rw [hend] at hrest
    exact hrest

theorem ssdFrom_apply {lanes r s0 i : Nat} (hs : s0 ≤ i) (hi : i < g.m) (out : Nat → F32) :
    ssdFrom ops g lanes r s0 out i = ssd ops g r i := by
  rw [ssdFrom_filled (by omega) out i, if_pos ⟨hs, hi⟩]

end Distances

/-! ## The order of the slots -/

/-- Nearer first, and then the lower index. -/
def key (s : Slot) : Nat ×ₗ Nat := toLex (s.dist.toNat, s.index)

section Order

variable {a b x : Slot} {slots seen l : List Slot} {k r : Nat}

theorem key_lt : key a < key b ↔ a.dist.toNat < b.dist.toNat ∨ a.dist.toNat = b.dist.toNat ∧ a.index < b.index :=
  Prod.Lex.toLex_lt_toLex

theorem better_iff (ha : Small a.dist) (hb : Small b.dist) : better a b = true ↔ key a < key b := by
  rw [better, Bool.or_eq_true, Bool.and_eq_true, ha.lt_iff hb, ha.feq_iff hb, decide_eq_true_eq, key_lt,
    BitVec.toNat_inj]

/-- A slot that a distance can stand in beside those of a list. -/
structure Fits (x : Slot) (slots : List Slot) : Prop where
  small : Small x.dist
  smalls : ∀ b ∈ slots, Small b.dist
  ne : ∀ b ∈ slots, key x ≠ key b

theorem Fits.better_iff (h : Fits x slots) (hb : b ∈ slots) : better x b = true ↔ key x ≤ key b := by
  rw [Pixel.better_iff h.small (h.smalls b hb)]
  exact ⟨le_of_lt, fun hle => lt_of_le_of_ne hle (h.ne b hb)⟩

/-! ## Insertion -/

/-- `slots` with `x` in its place. -/
abbrev insertion (x : Slot) (slots : List Slot) : List Slot := slots.orderedInsert (fun a b => key a ≤ key b) x

/-- The unrolled form and the loop put `x` in its place and drop the last slot. -/
theorem insertSlot_eq {qq : Nat} (h : Fits x slots) (hsorted : slots.Pairwise fun a b => key a ≤ key b)
    (hlen : slots.length = qq - 1) : insertSlot qq slots x = (insertion x slots).take (qq - 1) := by
  unfold insertSlot
  by_cases hqq : qq ≤ 1
  · rw [if_pos hqq, show qq - 1 = 0 by omega] at *
    rw [List.length_eq_zero_iff.mp (show slots.length = 0 by omega)]
    simp
  rw [if_neg hqq]
  by_cases hfour : qq = 4
  · subst hfour
    obtain ⟨b1, b2, b3, rfl⟩ := List.length_eq_three.mp hlen
    have h1 := h.better_iff (show b1 ∈ [b1, b2, b3] by simp)
    have h2 := h.better_iff (show b2 ∈ [b1, b2, b3] by simp)
    have h3 := h.better_iff (show b3 ∈ [b1, b2, b3] by simp)
    simp only [List.pairwise_cons, List.mem_cons, List.not_mem_nil, or_false, forall_eq_or_imp, forall_eq] at hsorted
    obtain ⟨⟨h12, h13⟩, h23, -⟩ := hsorted
    simp only [insertion, List.orderedInsert_cons, List.orderedInsert_nil, if_true, Bool.not_eq_true', ← h1, ← h2, ← h3]
    cases hb3 : better x b3 with
    | false =>
      have hn3 : ¬key x ≤ key b3 := by simp [← h3, hb3]
      have hb1 : better x b1 = false := by
        rw [← Bool.not_eq_true, h1]
        exact fun hle => hn3 (hle.trans h13)
      have hb2 : better x b2 = false := by
        rw [← Bool.not_eq_true, h2]
        exact fun hle => hn3 (hle.trans h23)
      simp [hb1, hb2]
    | true => cases better x b1 <;> cases better x b2 <;> simp
  rw [if_neg hfour]
  obtain ⟨last, hget, hshift⟩ := shiftDown_full (k := qq - 2) (by omega) (fun b hb => h.better_iff hb) hsorted
  rw [hget, show qq - 1 = qq - 2 + 1 by omega, ← hshift]
  dsimp only
  cases better x last <;> rfl

/-- The slots after the distances in `seen`. -/
def padded (k r : Nat) (seen : List Slot) : List Slot := (sortBy key seen ++ List.replicate k (⟨kInf, r⟩ : Slot)).take k

theorem padded_nil : padded k r [] = List.replicate k ⟨kInf, r⟩ := by simp [padded, sortBy]

/-- Enough distances leave no sentinel. -/
theorem padded_full (h : k ≤ seen.length) : padded k r seen = (sortBy key seen).take k := by
  rw [padded, List.take_append_of_le_length]
  rw [(sortBy_perm key seen).length_eq]
  exact h

/-- Distances below the sentinel, of different rows. -/
structure Real (l : List Slot) : Prop where
  below : ∀ e ∈ l, e.dist.toNat < kInf.toNat
  nodup : (l.map key).Nodup

theorem Real.perm (h : Real l) (hp : seen.Perm l) : Real seen :=
  ⟨fun e he => h.below e (hp.mem_iff.mp he), ((hp.map key).nodup_iff).mpr h.nodup⟩

theorem key_lt_sentinel {e : Slot} (h : e.dist.toNat < kInf.toNat) : key e < key ⟨kInf, r⟩ := key_lt.mpr (.inl h)

theorem mem_padded (hb : b ∈ padded k r seen) : b ∈ seen ∨ b = ⟨kInf, r⟩ := by
  rcases List.mem_append.mp (List.mem_of_mem_take hb) with hb | hb
  · exact .inl ((sortBy_perm key seen).mem_iff.mp hb)
  · exact .inr (List.eq_of_mem_replicate hb)

theorem padded_small (h : Real seen) (hb : b ∈ padded k r seen) : Small b.dist := by
  rcases mem_padded hb with hb | rfl
  · exact (h.below b hb).le
  · exact small_kInf

theorem padded_sorted (h : Real seen) : (padded k r seen).Pairwise fun a b => key a ≤ key b := by
  refine List.Pairwise.sublist (List.take_sublist _ _) (List.pairwise_append.mpr ⟨sortBy_le key seen, ?_, ?_⟩)
  · exact List.pairwise_replicate.mpr (.inr le_rfl)
  · intro a ha b hb
    rw [List.eq_of_mem_replicate hb]
    exact (key_lt_sentinel (h.below a ((sortBy_perm key seen).mem_iff.mp ha))).le

theorem Real.left (h : Real (seen ++ l)) : Real seen := by
  refine ⟨fun e he => h.below e (List.mem_append_left _ he), ?_⟩
  have hnd := h.nodup
  rw [List.map_append] at hnd
  exact hnd.of_append_left

theorem insertSlot_padded {qq : Nat} (h : Real (seen ++ [x])) :
    insertSlot qq (padded (qq - 1) r seen) x = padded (qq - 1) r (seen ++ [x]) := by
  have hx := h.below x (by simp)
  have hfits : Fits x (padded (qq - 1) r seen) := by
    refine ⟨hx.le, fun b hb => padded_small h.left hb, fun b hb => ?_⟩
    rcases mem_padded hb with hb | rfl
    · have hnd := h.nodup
      rw [List.map_append, List.nodup_append] at hnd
      exact (hnd.2.2 _ (List.mem_map_of_mem hb) _ (by simp)).symm
    · exact (key_lt_sentinel hx).ne
  rw [insertSlot_eq hfits (padded_sorted h.left) (by simp [padded]), padded, insertion, take_orderedInsert_take,
    orderedInsert_append fun b hb => ?_, padded, sortBy_snoc h.nodup]
  rw [List.eq_of_mem_replicate hb]
  exact (key_lt_sentinel hx).le

theorem foldl_insertSlot {qq : Nat} (h : Real l) :
    l.foldl (insertSlot qq) (List.replicate (qq - 1) ⟨kInf, r⟩) = padded (qq - 1) r l := by
  induction l using List.reverseRecOn with
  | nil => exact padded_nil.symm
  | append_singleton seen x ih =>
    rw [List.foldl_append, List.foldl_cons, List.foldl_nil, ih h.left]
    exact insertSlot_padded h

end Order

/-! ## Selection -/

section Selection

variable {dist : Nat → F32} {I J : Nat → Prop} {b b' : F32} {lanes m : Nat}

/-- `b` is the least distance of the rows in `I`, or the sentinel. -/
structure Least (dist : Nat → F32) (I : Nat → Prop) (b : F32) : Prop where
  small : Small b
  le : ∀ j, I j → b.toNat ≤ (dist j).toNat
  mem : b = kInf ∨ ∃ j, I j ∧ dist j = b

theorem Least.none (h : ∀ j, ¬I j) : Least dist I kInf := ⟨small_kInf, fun j hj => absurd hj (h j), .inl rfl⟩

theorem Least.single {j : Nat} (h : Small (dist j)) : Least dist (· = j) (dist j) :=
  ⟨h, fun _ hi => hi ▸ Nat.le_refl _, .inr ⟨j, rfl, rfl⟩⟩

theorem Least.of_iff (h : Least dist I b) (hiff : ∀ j, J j ↔ I j) : Least dist J b :=
  ⟨h.small, fun j hj => h.le j ((hiff j).mp hj),
    h.mem.imp id fun ⟨j, hj, hb⟩ => ⟨j, (hiff j).mpr hj, hb⟩⟩

theorem Least.vmin (h : Least dist I b) (h' : Least dist J b') : Least dist (fun j => I j ∨ J j) (vmin b b') := by
  obtain ⟨hmem, hle, hle'⟩ := vmin_spec h.small h'.small
  refine ⟨Nat.le_trans hle h.small, ?_, ?_⟩
  · rintro j (hj | hj)
    · exact hle.trans (h.le j hj)
    · exact hle'.trans (h'.le j hj)
  · rcases hmem with heq | heq
    · rw [heq]
      exact h.mem.imp id fun ⟨j, hj, hb⟩ => ⟨j, .inl hj, hb⟩
    · rw [heq]
      exact h'.mem.imp id fun ⟨j, hj, hb⟩ => ⟨j, .inr hj, hb⟩

/-- A running minimum of one lane. -/
theorem Least.running {at_ : Nat → Nat} (h : Least dist I b) (T : Nat) (hsmall : ∀ t < T, Small (dist (at_ t))) :
    Least dist (fun j => I j ∨ ∃ t < T, j = at_ t)
      ((List.range T).foldl (fun b t => Pixel.vmin b (dist (at_ t))) b) := by
  induction T with
  | zero => exact h.of_iff fun j => by simp
  | succ T ih =>
    rw [List.range_succ, List.foldl_append, List.foldl_cons, List.foldl_nil]
    refine ((ih fun t ht => hsmall t (by omega)).vmin (Least.single (hsmall T (by omega)))).of_iff fun j => ?_
    constructor
    · rintro (hj | ⟨t, ht, rfl⟩)
      · exact .inl (.inl hj)
      · by_cases hlast : t = T
        · exact .inr (hlast ▸ rfl)
        · exact .inl (.inr ⟨t, by omega, rfl⟩)
    · rintro ((hj | ⟨t, ht, rfl⟩) | rfl)
      · exact .inl hj
      · exact .inr ⟨t, by omega, rfl⟩
      · exact .inr ⟨T, by omega, rfl⟩

/-- The rest of a row, one distance at a time. -/
theorem Least.rest {x : Nat} (h : Least dist (· < x) b) (n : Nat) (hsmall : ∀ j < x + n, Small (dist j)) :
    Least dist (· < x + n)
      ((List.range' x n).foldl (fun best j => if (dist j).lt best then dist j else best) b) := by
  induction n with
  | zero => exact h
  | succ n ih =>
    rw [List.range'_concat, List.foldl_append, List.foldl_cons, List.foldl_nil, Nat.one_mul]
    exact ((Least.single (hsmall (x + n) (by omega))).vmin (ih fun j hj => hsmall j (by omega))).of_iff fun j => by omega

theorem Least.reduceMin {v : Nat → F32} {K : Nat → Nat → Prop} (hl : 0 < lanes) (h : ∀ i < lanes, Least dist (K i) (v i)) :
    Least dist (fun j => ∃ i < lanes, K i j) (reduceMin lanes v) := by
  have hrun : ∀ n, n + 1 ≤ lanes → Least dist (fun j => ∃ i < n + 1, K i j)
      ((List.range n).foldl (fun best i => Pixel.vmin best (v (i + 1))) (v 0)) := by
    intro n
    induction n with
    | zero => exact fun _ => (h 0 hl).of_iff fun j => by simp
    | succ n ih =>
      intro hn
      rw [List.range_succ, List.foldl_append, List.foldl_cons, List.foldl_nil]
      refine ((ih (by omega)).vmin (h (n + 1) (by omega))).of_iff fun j => ?_
      constructor
      · rintro ⟨i, hi, hK⟩
        by_cases hlast : i = n + 1
        · exact .inr (hlast ▸ hK)
        · exact .inl ⟨i, by omega, hK⟩
      · rintro (⟨i, hi, hK⟩ | hK)
        · exact ⟨i, by omega, hK⟩
        · exact ⟨n + 1, by omega, hK⟩
  have hfull := hrun (lanes - 1) (by omega)
  rw [Nat.sub_add_cancel hl] at hfull
  exact hfull

theorem block_iff {T w j : Nat} (hw : 0 < w) : j < T * w ↔ ∃ t < T, ∃ i < w, j = t * w + i := by
  constructor
  · intro h
    exact ⟨j / w, (Nat.div_lt_iff_lt_mul hw).mpr h, j % w, Nat.mod_lt _ hw, (Nat.div_add_mod' j w).symm⟩
  · rintro ⟨t, ht, i, hi, rfl⟩
    have := Nat.mul_le_mul_right w (show t + 1 ≤ T from ht)
    rw [Nat.succ_mul] at this
    omega

/-- The places that the four running minima and the one after them see. -/
theorem seen_iff {T U j : Nat} (hl : 0 < lanes) : j < T * (4 * lanes) + U * lanes ↔ ∃ i < lanes,
    (((False ∨ ∃ t < T, j = t * (4 * lanes) + 0 * lanes + i) ∨ ∃ t < U, j = T * (4 * lanes) + t * lanes + i) ∨
      (False ∨ ∃ t < T, j = t * (4 * lanes) + 1 * lanes + i)) ∨
    ((False ∨ ∃ t < T, j = t * (4 * lanes) + 2 * lanes + i) ∨
      (False ∨ ∃ t < T, j = t * (4 * lanes) + 3 * lanes + i)) := by
  constructor
  · intro h
    by_cases hfour : j < T * (4 * lanes)
    · obtain ⟨t, ht, x, hx, rfl⟩ := (block_iff (by omega)).mp hfour
      obtain ⟨k, hk, i, hi, rfl⟩ := (block_iff hl).mp hx
      refine ⟨i, hi, ?_⟩
      simp only [false_or, ← Nat.add_assoc]
      obtain rfl | rfl | rfl | rfl : k = 0 ∨ k = 1 ∨ k = 2 ∨ k = 3 := by omega
      · exact .inl (.inl (.inl ⟨t, ht, rfl⟩))
      · exact .inl (.inr ⟨t, ht, rfl⟩)
      · exact .inr (.inl ⟨t, ht, rfl⟩)
      · exact .inr (.inr ⟨t, ht, rfl⟩)
    · obtain ⟨t, ht, i, hi, heq⟩ := (block_iff hl).mp (show j - T * (4 * lanes) < U * lanes by omega)
      exact ⟨i, hi, .inl (.inl (.inr ⟨t, ht, by omega⟩))⟩
  · rintro ⟨i, hi, h⟩
    have hfour : ∀ t < T, ∀ k < 4, t * (4 * lanes) + k * lanes + i < T * (4 * lanes) := by
      intro t ht k hk
      rw [Nat.add_assoc]
      exact (block_iff (by omega)).mpr ⟨t, ht, _, (block_iff hl).mpr ⟨k, hk, i, hi, rfl⟩, rfl⟩
    simp only [false_or] at h
    rcases h with ((⟨t, ht, rfl⟩ | ⟨t, ht, rfl⟩) | ⟨t, ht, rfl⟩) | ⟨t, ht, rfl⟩ | ⟨t, ht, rfl⟩
    · have := hfour t ht 0 (by omega)
      omega
    · have := (block_iff (T := U) hl).mpr ⟨t, ht, i, hi, rfl⟩
      omega
    · have := hfour t ht 1 (by omega)
      omega
    · have := hfour t ht 2 (by omega)
      omega
    · have := hfour t ht 3 (by omega)
      omega

/-- A running minimum of a lane, as a function of the lane. -/
theorem lanes_foldl (T : Nat) (at_ : Nat → Nat → Nat) (v : Nat → F32) (i : Nat) :
    (List.range T).foldl (fun v t i => Pixel.vmin (v i) (dist (at_ t i))) v i =
      (List.range T).foldl (fun b t => Pixel.vmin b (dist (at_ t i))) (v i) := by
  induction List.range T using List.reverseRecOn with
  | nil => rfl
  | append_singleton ts t ih => rw [List.foldl_append, List.foldl_append, List.foldl_cons, List.foldl_nil, ih]; rfl

theorem leastDistance_least (hl : 0 < lanes) (hsmall : ∀ j < m, Small (dist j)) :
    Least dist (· < m) (leastDistance lanes m dist) := by
  unfold leastDistance
  dsimp only
  have hfours := Nat.div_mul_le_self m (4 * lanes)
  generalize m / (4 * lanes) = T at hfours
  have hones := Nat.div_mul_le_self (m - T * (4 * lanes)) lanes
  generalize (m - T * (4 * lanes)) / lanes = U at hones
  have hfour : ∀ k < 4, ∀ i < lanes, Least dist (fun j => False ∨ ∃ t < T, j = t * (4 * lanes) + k * lanes + i)
      ((List.range T).foldl (fun v t i => Pixel.vmin (v i) (dist (t * (4 * lanes) + k * lanes + i))) (fun _ => kInf) i) := by
    intro k hk i hi
    rw [lanes_foldl T fun t i => t * (4 * lanes) + k * lanes + i]
    refine (Least.none fun _ => not_false).running T fun t ht => hsmall _ ?_
    have := (block_iff (by omega)).mpr ⟨t, ht, _, (block_iff hl).mpr ⟨k, hk, i, hi, rfl⟩, rfl⟩
    omega
  have hone : ∀ i < lanes, Least dist (fun j => (False ∨ ∃ t < T, j = t * (4 * lanes) + 0 * lanes + i) ∨
      ∃ t < U, j = T * (4 * lanes) + t * lanes + i)
      ((List.range U).foldl (fun v t i => Pixel.vmin (v i) (dist (T * (4 * lanes) + t * lanes + i)))
        ((List.range T).foldl (fun v t i => Pixel.vmin (v i) (dist (t * (4 * lanes) + 0 * lanes + i))) fun _ => kInf) i) := by
    intro i hi
    rw [lanes_foldl U fun t i => T * (4 * lanes) + t * lanes + i]
    refine (hfour 0 (by omega) i hi).running U fun t ht => hsmall _ ?_
    have := (block_iff hl).mpr ⟨t, ht, i, hi, rfl⟩
    omega
  have hvectors : Least dist (· < T * (4 * lanes) + U * lanes) _ :=
    (Least.reduceMin hl fun i hi => ((hone i hi).vmin (hfour 1 (by omega) i hi)).vmin
      ((hfour 2 (by omega) i hi).vmin (hfour 3 (by omega) i hi))).of_iff fun j => seen_iff hl
  refine (hvectors.rest (m - (T * (4 * lanes) + U * lanes)) fun j hj => hsmall j (by omega)).of_iff fun j => ?_
  rw [Nat.add_sub_cancel' (by omega)]

/-- The place found is the first one that has the least distance. -/
theorem placeOf_eq (lanes m : Nat) (dist : Nat → F32) (b : F32) :
    placeOf lanes m dist b = ((List.range m).find? fun j => feq (dist j) b).getD m := by
  have hblocks : ∀ T, (List.range T).findSome? (fun t =>
      ((List.range lanes).find? fun i => feq (dist (t * lanes + i)) b).map (t * lanes + ·)) =
      (List.range (T * lanes)).find? fun j => feq (dist j) b := by
    intro T
    induction T with
    | zero => simp
    | succ T ih =>
      rw [List.range_succ, List.findSome?_append, ih, Nat.succ_mul, List.range_add, List.find?_append, List.find?_map]
      have hlast : ∀ f : Nat → Option Nat, [T].findSome? f = f T := by
        intro f
        rw [List.findSome?_cons]
        cases f T <;> rfl
      rw [hlast]
      rfl
  have hm := Nat.div_mul_le_self m lanes
  have hsplit : List.range (m / lanes * lanes + (m - m / lanes * lanes)) =
      List.range (m / lanes * lanes) ++ List.range' (m / lanes * lanes) (m - m / lanes * lanes) := by
    rw [List.range_add, List.range'_eq_map_range]
  rw [Nat.add_sub_cancel' hm] at hsplit
  unfold placeOf
  rw [hblocks, hsplit, List.find?_append]
  cases (List.range (m / lanes * lanes)).find? fun j => feq (dist j) b <;> rfl

/-- The rows whose distance is below the sentinel. -/
def entries (m : Nat) (dist : Nat → F32) : List Slot :=
  ((List.range m).filter fun s => (dist s).toNat < kInf.toNat).map fun s => ⟨dist s, s⟩

theorem mem_entries {e : Slot} : e ∈ entries m dist ↔ e.index < m ∧ e.dist = dist e.index ∧ e.dist.toNat < kInf.toNat := by
  unfold entries
  simp only [List.mem_map, List.mem_filter, List.mem_range, decide_eq_true_eq]
  constructor
  · rintro ⟨s, ⟨hs, hlt⟩, rfl⟩
    exact ⟨hs, rfl, hlt⟩
  · rintro ⟨hs, heq, hlt⟩
    exact ⟨e.index, ⟨hs, heq ▸ hlt⟩, by rw [← heq]⟩

theorem entries_real : Real (entries m dist) := by
  refine ⟨fun e he => (mem_entries.mp he).2.2, ?_⟩
  unfold entries
  rw [List.map_map]
  refine List.Nodup.map_on ?_ (List.nodup_range.filter _)
  intro s _ s' _ heq
  simp only [Function.comp_apply, key, EmbeddingLike.apply_eq_iff_eq, Prod.mk.injEq] at heq
  exact heq.2

/-- A row whose distance is set to the sentinel is selected no more. -/
theorem entries_update {s : Nat} (hs : s < m) (hlt : (dist s).toNat < kInf.toNat) :
    (entries m dist).Perm (⟨dist s, s⟩ :: entries m (update dist s kInf)) := by
  have hmem : s ∈ (List.range m).filter fun s => (dist s).toNat < kInf.toNat := by simp [hs, hlt]
  have hnodup : ((List.range m).filter fun s => (dist s).toNat < kInf.toNat).Nodup := List.nodup_range.filter _
  have hrest : ((List.range m).filter fun s => (dist s).toNat < kInf.toNat).erase s =
      (List.range m).filter fun s' => (update dist s kInf s').toNat < kInf.toNat := by
    rw [hnodup.erase_eq_filter, List.filter_filter]
    refine List.filter_congr fun s' _ => ?_
    by_cases heq : s' = s
    · subst heq
      simp
    · simp [heq]
  unfold entries
  have hperm := (List.perm_cons_erase hmem).map fun s => (⟨dist s, s⟩ : Slot)
  rw [List.map_cons, hrest] at hperm
  refine hperm.trans (.of_eq (congrArg _ (List.map_congr_left fun s' hs' => ?_)))
  have hne : s' ≠ s := by
    rintro rfl
    simp at hs'
  rw [update_of_ne hne]

/-- Round by round the least of the distances that are left is selected. -/
theorem selectSlots_eq (hl : 0 < lanes) (k : Nat) (hsmall : ∀ j < m, Small (dist j)) :
    (selectSlots lanes m k dist).1 = (sortBy key (entries m dist)).take k := by
  induction k generalizing dist with
  | zero => rfl
  | succ k ih =>
    obtain ⟨hb, hle, hmem⟩ := leastDistance_least hl hsmall
    rw [selectSlots, placeOf_eq]
    dsimp only
    generalize leastDistance lanes m dist = best at hb hle hmem
    by_cases hlt : best.toNat < kInf.toNat
    · obtain ⟨j, hj, hjb⟩ := hmem.resolve_left (by rintro rfl; exact Nat.lt_irrefl _ hlt)
      have hfeq : ∀ j < m, feq (dist j) best = true ↔ dist j = best := fun j hj => (hsmall j hj).feq_iff hb
      have hsome : ((List.range m).find? fun j => feq (dist j) best).isSome := by
        rw [List.find?_isSome]
        exact ⟨j, List.mem_range.mpr hj, (hfeq j hj).mpr hjb⟩
      obtain ⟨s, hs⟩ := Option.isSome_iff_exists.mp hsome
      obtain ⟨hsb, hsm, hfirst⟩ := List.find?_range_eq_some.mp hs
      rw [List.mem_range] at hsm
      have hds : dist s = best := (hfeq s hsm).mp hsb
      subst hds
      rw [hs, Option.getD_some, if_neg (by simp [(hb.lt_iff small_kInf).mpr hlt, hsm])]
      have hperm := entries_update hsm hlt
      have hleast : ∀ e ∈ entries m (update dist s kInf), key ⟨dist s, s⟩ ≤ key e := by
        intro e he
        have he' := mem_entries.mp (hperm.mem_iff.mpr (List.mem_cons_of_mem _ he))
        have hdist := hle e.index he'.1
        rw [← he'.2.1] at hdist
        by_cases heq : e.dist = dist s
        · have hindex : s ≤ e.index := by
            by_contra hless
            have hnot := hfirst e.index (by omega)
            rw [Bool.not_eq_true', ← Bool.not_eq_true, hfeq _ he'.1, ← he'.2.1] at hnot
            exact hnot heq
          unfold key
          rw [Prod.Lex.toLex_le_toLex, heq]
          exact .inr ⟨rfl, hindex⟩
        · refine (key_lt.mpr (.inl (lt_of_le_of_ne hdist fun h => heq ?_))).le
          exact (BitVec.toNat_inj.mp h).symm
      have hsmall' : ∀ j < m, Small (update dist s kInf j) := by
        intro j hj
        by_cases hjs : j = s
        · rw [hjs, update_self]
          exact small_kInf
        · rw [update_of_ne hjs]
          exact hsmall j hj
      rw [sortBy_eq_of_perm (entries_real.perm hperm.symm).nodup hperm, sortBy_cons_least hleast, List.take_succ_cons,
        ← ih hsmall']
    · have hnone : entries m dist = [] := by
        rw [List.eq_nil_iff_forall_not_mem]
        intro e he
        obtain ⟨hm, hd, hlt'⟩ := mem_entries.mp he
        have := hle e.index hm
        rw [← hd] at this
        omega
      rw [if_pos, hnone]
      · rfl
      · have hnlt : best.lt kInf = false := by
          rw [← Bool.not_eq_true, hb.lt_iff small_kInf]
          exact hlt
        simp [hnlt]

end Selection

end NssFactory.Cpu.Pixel

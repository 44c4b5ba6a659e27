import NssFactory.Cpu.PixelTop
import NssFactory.Lib.Keyed

/-!
# The nearest rows of a group

What the strategies of `PixelMatch` leave for each row: `wholeRows_eq`, `pairMatrix_eq` and
`upperTriangle_eq` say that it is the rows nearest to it, in the order of their distances and then of
their indices, and `pixelMatch_nearest` that these are what is written whatever the strategy.
-/

namespace NssFactory.Cpu.Pixel

open Function Bm4d Keyed

/-- The rows other than `r`, with their distances from it. -/
def others (ops : Squares) (g : Group) (r : Nat) : List Slot :=
  ((List.range g.m).filter (· ≠ r)).map fun s => ⟨ssd ops g r s, s⟩

/-- The `k` of them that are nearest. -/
def nearest (ops : Squares) (g : Group) (k r : Nat) : List Slot := (sortBy key (others ops g r)).take k

/-- The distances of different rows are below the sentinel. -/
def Near (ops : Squares) (g : Group) : Prop := ∀ r < g.m, ∀ s < g.m, r ≠ s → (ssd ops g r s).lt kInf = true

section Rows

variable {ops : Squares} {g : Group} {target : Target} {qq r s : Nat}

theorem Near.toNat_lt (h : Near ops g) (hr : r < g.m) (hs : s < g.m) (hne : r ≠ s) :
    (ssd ops g r s).toNat < kInf.toNat := toNat_lt_of_lt (ssd_running r s) (h r hr s hs hne)

theorem others_real (h : Near ops g) (hr : r < g.m) : Real (others ops g r) := by
  refine ⟨fun e he => ?_, ?_⟩
  · simp only [others, List.mem_map, List.mem_filter, List.mem_range, decide_eq_true_eq] at he
    obtain ⟨s, ⟨hs, hne⟩, rfl⟩ := he
    exact h.toNat_lt hr hs (Ne.symm hne)
  · unfold others
    rw [List.map_map]
    refine List.Nodup.map_on ?_ (List.nodup_range.filter _)
    intro s _ s' _ heq
    simp only [Function.comp_apply, key, EmbeddingLike.apply_eq_iff_eq, Prod.mk.injEq] at heq
    exact heq.2

theorem range_split {m : Nat} (h : r < m) : List.range m = List.range r ++ r :: List.range' (r + 1) (m - (r + 1)) := by
  have hadd : List.range (r + (m - (r + 1) + 1)) = List.range r ++ List.range' r (m - (r + 1) + 1) := by
    rw [List.range_add, List.range'_eq_map_range]
  rw [show r + (m - (r + 1) + 1) = m by omega] at hadd
  rw [hadd, List.range'_succ]

/-- The rows before `r` and those behind it. -/
theorem others_split (hr : r < g.m) : others ops g r = (List.range r).map (fun s => ⟨ssd ops g r s, s⟩) ++
    (List.range' (r + 1) (g.m - (r + 1))).map fun s => ⟨ssd ops g r s, s⟩ := by
  have hbefore : (List.range r).filter (· ≠ r) = List.range r :=
    List.filter_eq_self.mpr fun s hs => decide_eq_true (Nat.ne_of_lt (List.mem_range.mp hs))
  have hbehind : (List.range' (r + 1) (g.m - (r + 1))).filter (· ≠ r) = List.range' (r + 1) (g.m - (r + 1)) := by
    refine List.filter_eq_self.mpr fun s hs => decide_eq_true ?_
    have := (List.mem_range'_1.mp hs).1
    omega
  unfold others
  rw [range_split hr, List.filter_append, List.filter_cons, if_neg (by simp), hbefore, hbehind, List.map_append]

theorem others_length (hr : r < g.m) : (others ops g r).length = g.m - 1 := by
  rw [others_split hr]
  simp
  omega

/-- Inserting all other rows leaves the nearest. -/
theorem insert_others (h : Near ops g) (hr : r < g.m) (hqq : qq ≤ g.m) :
    (others ops g r).foldl (insertSlot qq) (start qq r) = nearest ops g (qq - 1) r := by
  unfold start
  rw [foldl_insertSlot (others_real h hr), padded_full, nearest]
  rw [others_length hr]
  omega

/-! ## Selection from a row of distances -/

theorem entries_others {dist : Nat → F32} (h : Near ops g) (hr : r < g.m)
    (hdist : ∀ s < g.m, s ≠ r → dist s = ssd ops g r s) : entries g.m (update dist r kInf) = others ops g r := by
  have hfilter : ((List.range g.m).filter fun s => (update dist r kInf s).toNat < kInf.toNat) =
      (List.range g.m).filter (· ≠ r) := by
    refine List.filter_congr fun s hs => ?_
    by_cases hsr : s = r
    · subst hsr
      simp
    · have hs' := List.mem_range.mp hs
      simp [hsr, hdist s hs' hsr, h.toNat_lt hr hs' (Ne.symm hsr)]
  unfold entries others
  rw [hfilter]
  refine List.map_congr_left fun s hs => ?_
  simp only [List.mem_filter, List.mem_range, decide_eq_true_eq] at hs
  rw [update_of_ne hs.2, hdist s hs.1 hs.2]

theorem lanes_toNat_pos (target : Target) : 0 < target.lanes.toNat := by cases target <;> decide

theorem selectRow_eq {slots : List Slot} {dist : Nat → F32} (h : Near ops g) (hr : r < g.m) (hqq : qq ≤ g.m)
    (hslots : slots.length = qq - 1) (hdist : ∀ s < g.m, s ≠ r → dist s = ssd ops g r s) :
    (selectRow g target qq r slots dist).1 = nearest ops g (qq - 1) r := by
  have hentries := entries_others h hr hdist
  have hsmall : ∀ s < g.m, Small (update dist r kInf s) := by
    intro s hs
    by_cases hsr : s = r
    · rw [hsr, update_self]
      exact small_kInf
    · rw [update_of_ne hsr, hdist s hs hsr]
      exact (h.toNat_lt hr hs (Ne.symm hsr)).le
  have hplain := selectSlots_eq (lanes_toNat_pos target) (qq - 1) hsmall
  rw [hentries] at hplain
  have hlen : (nearest ops g (qq - 1) r).length = qq - 1 := by
    rw [nearest, List.length_take, (sortBy_perm key _).length_eq, others_length hr]
    omega
  have hrest : ∀ l : List Slot, l.length = qq - 1 → l ++ slots.drop l.length = l := by
    intro l hl
    rw [hl, List.drop_of_length_le (by omega), List.append_nil]
  unfold selectRow
  dsimp only
  split
  · rename_i three htop
    split at htop
    · rename_i hcond
      obtain ⟨htarget, hm, -, rfl⟩ := hcond
      have hlanes : (64 + target.lanes.toNat - 1) / target.lanes.toNat * target.lanes.toNat = 64 := by
        rcases htarget with rfl | rfl <;> rfl
      have hthree := selectTopThree64_eq (lanes_toNat_pos target) hlanes htop
      rw [← hm, hentries] at hthree
      change three ++ slots.drop (4 - 1) = nearest ops g (4 - 1) r
      rw [List.drop_of_length_le (by omega), List.append_nil]
      exact hthree
    · simp at htop
  · rw [hplain]
    exact hrest _ hlen

/-! ## Whole rows -/

/-- The rows that have been done, and those that have not. -/
def Done (ops : Squares) (g : Group) (qq k : Nat) (best : Nat → List Slot) : Prop :=
  (∀ r < k, best r = nearest ops g (qq - 1) r) ∧ ∀ r, k ≤ r → best r = start qq r

theorem Done.start : Done ops g qq 0 (start qq) := ⟨by simp, fun _ _ => rfl⟩

theorem Done.update {k : Nat} {best : Nat → List Slot} {slots : List Slot} (h : Done ops g qq k best)
    (hslots : slots = nearest ops g (qq - 1) k) : Done ops g qq (k + 1) (update best k slots) := by
  refine ⟨fun r hr => ?_, fun r hr => ?_⟩
  · by_cases hrk : r = k
    · rw [hrk, update_self, hslots]
    · rw [update_of_ne hrk]
      exact h.1 r (by omega)
  · rw [update_of_ne (by omega)]
    exact h.2 r (by omega)

theorem insertAt_foldl (l : List Slot) (best : Nat → List Slot) :
    l.foldl (fun best new => insertAt qq best r new) best = update best r (l.foldl (insertSlot qq) (best r)) := by
  induction l generalizing best with
  | nil => simp
  | cons x l ih =>
    rw [List.foldl_cons, ih, List.foldl_cons, insertAt, update_self, update_idem]

theorem wholeRow_done {k : Nat} {s : (Nat → List Slot) × (Nat → F32)} (h : Near ops g) (hk : k < g.m) (hqq : qq ≤ g.m)
    (hdone : Done ops g qq k s.1) : Done ops g qq (k + 1) (wholeRow ops g target qq s k).1 := by
  have hstart := hdone.2 k le_rfl
  have hpair : ∀ j < g.m, ssdFrom ops g target.lanes.toNat k 0 s.2 j = ssd ops g k j :=
    fun j hj => ssdFrom_apply (Nat.zero_le j) hj s.2
  unfold wholeRow
  dsimp only
  split
  · refine hdone.update (selectRow_eq h hk hqq ?_ fun j hj _ => hpair j hj)
    rw [hstart]
    simp [start]
  · have hloop : (List.range g.m).foldl (fun best s' => if s' ≠ k then insertAt qq best k
        ⟨ssdFrom ops g target.lanes.toNat k 0 s.2 s', s'⟩ else best) s.1 =
        (others ops g k).foldl (fun best new => insertAt qq best k new) s.1 := by
      unfold others
      rw [List.foldl_map, List.foldl_filter]
      refine List.foldl_ext _ _ _ fun best j hj => ?_
      rw [hpair j (List.mem_range.mp hj)]
      simp
    dsimp only
    rw [hloop, insertAt_foldl]
    refine hdone.update ?_
    rw [hstart]
    exact insert_others h hk hqq

theorem wholeRows_eq (h : Near ops g) (hqq : qq ≤ g.m) (hr : r < g.m) (pair : Nat → F32) :
    wholeRows ops g target qq pair r = nearest ops g (qq - 1) r := by
  have hrun : ∀ k ≤ g.m, Done ops g qq k ((List.range k).foldl (wholeRow ops g target qq) (start qq, pair)).1 := by
    intro k
    induction k with
    | zero => exact fun _ => Done.start
    | succ k ih =>
      intro hk
      rw [List.range_succ, List.foldl_append, List.foldl_cons, List.foldl_nil]
      exact wholeRow_done h hk hqq (ih (by omega))
  exact (hrun g.m le_rfl).1 r hr

/-! ## The matrix -/

/-- The column of the distances of a row. -/
theorem foldl_column {l : List Nat} (hr : r ∉ l) (hl : l.Nodup) (dist : Nat → Nat → F32) (s : Nat) :
    l.foldl (fun dist s => update dist s (update (dist s) r (dist r s))) dist s =
      if s ∈ l then update (dist s) r (dist r s) else dist s := by
  induction l generalizing dist with
  | nil => simp
  | cons x l ih =>
    obtain ⟨hx, hl⟩ := List.nodup_cons.mp hl
    have hrx : r ≠ x := fun heq => hr (heq ▸ List.mem_cons_self)
    rw [List.foldl_cons, ih (fun hmem => hr (List.mem_cons_of_mem _ hmem)) hl, update_of_ne hrx]
    by_cases hs : s = x
    · rw [hs, if_neg hx, update_self, if_pos List.mem_cons_self]
    · rw [update_of_ne hs]
      simp [hs]

/-- The matrix after `k` rows: these rows, and in the others the columns of these rows. -/
def Matrix (ops : Squares) (g : Group) (k : Nat) (dist : Nat → Nat → F32) : Prop :=
  ∀ r < g.m, ∀ s < g.m, s ≠ r → r < k ∨ s < k → dist r s = ssd ops g r s

theorem fillRow_matrix {k : Nat} {dist : Nat → Nat → F32} (hk : k < g.m) (h : Matrix ops g k dist) :
    Matrix ops g (k + 1) (fillRow ops g target dist k) := by
  have hrow : ∀ s < g.m, s ≠ k → update (ssdFrom ops g target.lanes.toNat k (k + 1) (dist k)) k F32.zero s = ssd ops g k s := by
    intro s hs hsk
    rw [update_of_ne hsk, ssdFrom_filled (by omega) (dist k) s]
    by_cases hbehind : k + 1 ≤ s
    · rw [if_pos ⟨hbehind, hs⟩]
    · rw [if_neg (by omega)]
      exact h k hk s hs hsk (.inr (by omega))
  intro r hr s hs hsr hdone
  unfold fillRow
  rw [foldl_column (by simp) (List.nodup_range' ..)]
  by_cases hrk : r = k
  · subst hrk
    rw [if_neg (by simp), update_self]
    exact hrow s hs hsr
  · by_cases hbehind : k + 1 ≤ r
    · rw [if_pos (List.mem_range'_1.mpr ⟨hbehind, by omega⟩), update_of_ne hrk, update_self]
      by_cases hsk : s = k
      · rw [hsk, update_self, hrow r hr hrk, ssd_comm]
      · rw [update_of_ne hsk]
        exact h r hr s hs hsr (by omega)
    · have hmem : r ∉ List.range' (k + 1) (g.m - (k + 1)) := fun hmem => hbehind (List.mem_range'_1.mp hmem).1
      rw [if_neg hmem, update_of_ne hrk]
      exact h r hr s hs hsr (.inl (by omega))

theorem pairMatrix_eq (h : Near ops g) (hqq : qq ≤ g.m) (hr : r < g.m) (dist : Nat → Nat → F32) :
    pairMatrix ops g target qq dist r = nearest ops g (qq - 1) r := by
  have hfill : ∀ k ≤ g.m, Matrix ops g k ((List.range k).foldl (fillRow ops g target) dist) := by
    intro k
    induction k with
    | zero => exact fun _ r _ s _ _ hdone => by omega
    | succ k ih =>
      intro hk
      rw [List.range_succ, List.foldl_append, List.foldl_cons, List.foldl_nil]
      exact fillRow_matrix hk (ih (by omega))
  have hmatrix := hfill g.m le_rfl
  unfold pairMatrix
  dsimp only
  generalize (List.range g.m).foldl (fillRow ops g target) dist = dist at hmatrix
  -- a row is consumed when it has been selected from, and not before
  have hrun : ∀ k ≤ g.m, ∀ s, s = (List.range k).foldl (fun (s : (Nat → List Slot) × (Nat → Nat → F32)) r =>
      (update s.1 r (selectRow g target qq r (s.1 r) (s.2 r)).1,
        update s.2 r (selectRow g target qq r (s.1 r) (s.2 r)).2)) (start qq, dist) →
      Done ops g qq k s.1 ∧ ∀ r, k ≤ r → s.2 r = dist r := by
    intro k
    induction k with
    | zero =>
      rintro - s rfl
      exact ⟨Done.start, fun _ _ => rfl⟩
    | succ k ih =>
      intro hk s hs
      obtain ⟨hdone, hrows⟩ := ih (by omega) _ rfl
      rw [List.range_succ, List.foldl_append, List.foldl_cons, List.foldl_nil] at hs
      subst hs
      refine ⟨hdone.update ?_, fun r hr => ?_⟩
      · rw [hrows k le_rfl, hdone.2 k le_rfl]
        refine selectRow_eq h (by omega) hqq (by simp [start]) fun s hs hsk => ?_
        exact hmatrix k (by omega) s hs hsk (.inl (by omega))
      · dsimp only
        rw [update_of_ne (by omega)]
        exact hrows r (by omega)
  exact (hrun g.m le_rfl _ rfl).1.1 r hr

/-! ## The upper triangle -/

/-- What row `r` of the triangle sends to the rows. -/
def messages (ops : Squares) (g : Group) (r : Nat) : List (Nat × Slot) :=
  (List.range' (r + 1) (g.m - (r + 1))).flatMap fun s => [(r, ⟨ssd ops g r s, s⟩), (s, ⟨ssd ops g r s, r⟩)]

theorem triangleRow_eq (hr : r < g.m) (s : (Nat → List Slot) × (Nat → F32)) :
    (triangleRow ops g target qq s r).1 = (messages ops g r).foldl (post (insertSlot qq)) s.1 := by
  unfold triangleRow messages
  dsimp only
  rw [List.foldl_flatMap]
  refine List.foldl_ext _ _ _ fun best j hj => ?_
  obtain ⟨hj, hj'⟩ := List.mem_range'_1.mp hj
  rw [ssdFrom_apply hj (by omega)]
  rfl

/-- Each row hears of all others, in their order. -/
theorem sent_messages {x : Nat} (hx : x < g.m) : sent x ((List.range g.m).flatMap (messages ops g)) = others ops g x := by
  have hpair : ∀ r s, r ≠ s → sent x [(r, (⟨ssd ops g r s, s⟩ : Slot)), (s, ⟨ssd ops g r s, r⟩)] =
      if r = x then [⟨ssd ops g x s, s⟩] else if s = x then [⟨ssd ops g x r, r⟩] else [] := by
    intro r s hne
    rw [sent_cons, sent_cons]
    by_cases hrx : r = x
    · subst hrx
      rw [if_pos rfl, if_neg (Ne.symm hne), if_pos rfl]
      rfl
    · rw [if_neg hrx, if_neg hrx]
      by_cases hsx : s = x
      · rw [if_pos hsx, if_pos hsx, hsx, ssd_comm]
        rfl
      · rw [if_neg hsx, if_neg hsx]
        rfl
  have hrow : ∀ r, sent x (messages ops g r) = (List.range' (r + 1) (g.m - (r + 1))).flatMap fun s =>
      if r = x then [⟨ssd ops g x s, s⟩] else if s = x then [⟨ssd ops g x r, r⟩] else [] := by
    intro r
    unfold messages
    rw [sent_flatMap]
    refine List.flatMap_congr fun s hs => hpair r s ?_
    have := (List.mem_range'_1.mp hs).1
    omega
  have hbefore : ∀ r < x, sent x (messages ops g r) = [⟨ssd ops g x r, r⟩] := by
    intro r hr
    rw [hrow, flatMap_single (a := x) (List.nodup_range' ..) (List.mem_range'_1.mpr ⟨hr, by omega⟩) fun s _ hsx => by
      rw [if_neg (by omega), if_neg hsx], if_neg (by omega), if_pos rfl]
  have hself : sent x (messages ops g x) = (List.range' (x + 1) (g.m - (x + 1))).map fun s => ⟨ssd ops g x s, s⟩ := by
    rw [hrow]
    simp only [if_true]
    exact List.map_eq_flatMap.symm
  have hbehind : ∀ r, x < r → sent x (messages ops g r) = [] := by
    intro r hr
    rw [hrow]
    refine List.flatMap_eq_nil_iff.mpr fun s hs => ?_
    have := (List.mem_range'_1.mp hs).1
    rw [if_neg (by omega), if_neg (by omega)]
  have hfirst : (List.range x).flatMap (fun r => [(⟨ssd ops g x r, r⟩ : Slot)]) =
      (List.range x).map fun r => ⟨ssd ops g x r, r⟩ := List.map_eq_flatMap.symm
  have hlast : (List.range' (x + 1) (g.m - (x + 1))).flatMap (fun r => sent x (messages ops g r)) = [] :=
    List.flatMap_eq_nil_iff.mpr fun r hr => hbehind r (List.mem_range'_1.mp hr).1
  rw [sent_flatMap, range_split hx, List.flatMap_append, List.flatMap_cons, hself, hlast, List.append_nil, others_split hx,
    List.flatMap_congr fun r hr => hbefore r (List.mem_range.mp hr), hfirst]

theorem upperTriangle_eq (h : Near ops g) (hqq : qq ≤ g.m) (hr : r < g.m) (pair : Nat → F32) :
    upperTriangle ops g target qq pair r = nearest ops g (qq - 1) r := by
  have hrun : ∀ k ≤ g.m, ((List.range k).foldl (triangleRow ops g target qq) (start qq, pair)).1 =
      ((List.range k).flatMap (messages ops g)).foldl (post (insertSlot qq)) (start qq) := by
    intro k
    induction k with
    | zero => exact fun _ => rfl
    | succ k ih =>
      intro hk
      rw [List.range_succ, List.foldl_append, List.foldl_cons, List.foldl_nil, triangleRow_eq (by omega), ih (by omega),
        List.flatMap_append, List.foldl_append, List.flatMap_singleton]
  rw [upperTriangle, hrun g.m le_rfl, foldl_post, sent_messages hr]
  exact insert_others h hr hqq

/-! ## What is written -/

/-- Each strategy writes for each row the row itself, the `min(q, m) - 1` rows nearest to it and then the row again, and
so does the function, whichever it chooses. -/
theorem pixelMatch_nearest {q : Nat} (target : Target) (hm : 1 ≤ g.m) (hn : 1 ≤ g.n) (hq : 1 ≤ q) (hlda : g.m ≤ g.lda)
    (h : Near ops g) (pair : Nat → F32) (dist : Nat → Nat → F32) :
    let row := fun r => r :: (nearest ops g (min q g.m - 1) r).map Slot.index ++ List.replicate (q - min q g.m) r
    (∀ r < g.m, written g q (wholeRows ops g target (min q g.m) pair) r = row r) ∧
    (∀ r < g.m, written g q (pairMatrix ops g target (min q g.m) dist) r = row r) ∧
    (∀ r < g.m, written g q (upperTriangle ops g target (min q g.m) pair) r = row r) ∧
    ∃ rows, pixelMatch ops g target q pair dist = some rows ∧ ∀ r < g.m, rows r = row r := by
  have hqq : min q g.m ≤ g.m := Nat.min_le_right ..
  intro row
  have hwritten : ∀ best : Nat → List Slot, ∀ r, best r = nearest ops g (min q g.m - 1) r → written g q best r = row r := by
    intro best r hbest
    rw [written, hbest]
  have hwhole : ∀ r < g.m, written g q (wholeRows ops g target (min q g.m) pair) r = row r :=
    fun r hr => hwritten _ r (wholeRows_eq h hqq hr pair)
  have hmatrix : ∀ r < g.m, written g q (pairMatrix ops g target (min q g.m) dist) r = row r :=
    fun r hr => hwritten _ r (pairMatrix_eq h hqq hr dist)
  have htriangle : ∀ r < g.m, written g q (upperTriangle ops g target (min q g.m) pair) r = row r :=
    fun r hr => hwritten _ r (upperTriangle_eq h hqq hr pair)
  refine ⟨hwhole, hmatrix, htriangle, _, if_neg (by omega), ?_⟩
  split
  · exact hwhole
  · split
    · exact hmatrix
    · exact htriangle

end Rows

/-! ## Bits -/

/-- `1.f` -/
def one : F32 := 0x3f800000#32

/-- The arithmetic of single pixels that are 0 or 1. -/
def bitSquares : Squares where
  sub a b := if a = b then F32.zero else if a = one then one else 0xbf800000#32
  mulAdd v _ acc := if v = F32.zero then acc else one
  swap a b acc := by
    by_cases hab : a = b
    · simp [hab]
    · have hone : one ≠ F32.zero := by decide
      have hminus : (0xbf800000#32 : F32) ≠ F32.zero := by decide
      simp only [hab, Ne.symm hab, if_false]
      split <;> split <;> simp_all
  running := by
    intro e acc h
    split
    · exact h
    · exact .inr ⟨by decide, by decide⟩

/-- Four pixels of one column, the second and the last of them 1. -/
def bitRows : Group := ⟨4, 1, 4, fun i => if i = 1 ∨ i = 3 then one else F32.zero⟩

theorem pixelMatch_nearest_bits : ∃ rows, pixelMatch bitSquares bitRows .avx2 5 (fun _ => F32.zero) (fun _ _ => F32.zero) =
    some rows ∧ rows 2 = [2, 0, 1, 3, 2] := by
  have hnear : Near bitSquares bitRows := by
    unfold Near
    decide
  obtain ⟨-, -, -, rows, hrows, hrow⟩ := pixelMatch_nearest (q := 5) .avx2 (show 1 ≤ bitRows.m by decide) (by decide) (by decide)
    (by decide) hnear (fun _ => F32.zero) fun _ _ => F32.zero
  refine ⟨rows, hrows, (hrow 2 (by decide)).trans ?_⟩
  decide

end NssFactory.Cpu.Pixel

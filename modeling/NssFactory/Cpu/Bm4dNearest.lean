import NssFactory.Cpu.Bm4dMatch

/-!
# What BM4D's search finds

The candidates of a reference come to its list in the order of their offsets, whatever the
bands, the batches and the vectors (`sent_allList`), and so the list holds the nearest of them
(`matchAll_finds`).
-/

namespace NssFactory.Cpu.Bm4d

open Cells Keyed Loops

/-- An offset, in the order of the scan. -/
abbrev Offset := Int ×ₗ Int ×ₗ Int

namespace Offset

def mk (dz dy dx : Int) : Offset := toLex (dz, toLex (dy, dx))

variable (o : Offset)

def dz : Int := (ofLex o).1
def dy : Int := (ofLex (ofLex o).2).1
def dx : Int := (ofLex (ofLex o).2).2

/-- All offsets of the search. -/
def scan : List Offset :=
  reach.flatMap fun dz => reach.flatMap fun dy => reach.map fun dx => mk dz dy dx

theorem reach_increasing : reach.Pairwise (· < ·) := range_pairwise _ _

theorem scan_increasing : scan.Pairwise (· < ·) := by
  have hrow : ∀ dz dy, (reach.map fun dx => mk dz dy dx).Pairwise (· < ·) := by
    intro dz dy
    rw [List.pairwise_map]
    refine reach_increasing.imp fun hlt => ?_
    exact Prod.Lex.toLex_lt_toLex.mpr (.inr ⟨rfl, Prod.Lex.toLex_lt_toLex.mpr (.inr ⟨rfl, hlt⟩)⟩)
  have hplane : ∀ dz, (reach.flatMap fun dy => reach.map fun dx => mk dz dy dx).Pairwise (· < ·) := by
    intro dz
    rw [List.pairwise_flatMap]
    refine ⟨fun dy _ => hrow dz dy, reach_increasing.imp fun hlt => ?_⟩
    intro a ha b hb
    obtain ⟨x, -, rfl⟩ := List.mem_map.mp ha
    obtain ⟨x', -, rfl⟩ := List.mem_map.mp hb
    exact Prod.Lex.toLex_lt_toLex.mpr (.inr ⟨rfl, Prod.Lex.toLex_lt_toLex.mpr (.inl hlt)⟩)
  unfold scan
  rw [List.pairwise_flatMap]
  refine ⟨fun dz _ => hplane dz, reach_increasing.imp fun hlt => ?_⟩
  intro a ha b hb
  obtain ⟨y, -, ha⟩ := List.mem_flatMap.mp ha
  obtain ⟨y', -, hb⟩ := List.mem_flatMap.mp hb
  obtain ⟨x, -, rfl⟩ := List.mem_map.mp ha
  obtain ⟨x', -, rfl⟩ := List.mem_map.mp hb
  exact Prod.Lex.toLex_lt_toLex.mpr (.inl hlt)

end Offset

/-! ## The candidates of a reference -/

/-- The first voxel of a reference cube. -/
structure Corner where
  z : Int
  y : Int
  x : Int

section Reference

variable (ops : Ops) (vol : Volume) (st : Stage) (c : Corner)

/-- The reference of an index in the grid. -/
def corner (iz iy ix : Int) : Corner :=
  ⟨position vol.t st.cube st.step iz, position vol.h st.cube st.step iy, position vol.w st.cube st.step ix⟩

/-- The cube at an offset from the reference is in the volume. -/
def Inside (o : Offset) : Prop :=
  (0 ≤ c.z + o.dz ∧ c.z + o.dz ≤ vol.t - st.cube) ∧ (0 ≤ c.y + o.dy ∧ c.y + o.dy ≤ vol.h - st.cube) ∧
    0 ≤ c.x + o.dx ∧ c.x + o.dx ≤ vol.w - st.cube

instance (o : Offset) : Decidable (Inside vol st c o) := by
  unfold Inside
  infer_instance

/-- What a place in a list stands for. -/
def stored (o : Offset) : Place := place vol (c.z + o.dz) (c.y + o.dy) (c.x + o.dx)

def candidate (o : Offset) : Entry Offset :=
  ⟨cubeDistance ops vol st ⟨c.z, o.dz, o.dy⟩ o.dx c.y c.x, o⟩

/-- The cubes of the volume around the reference, in the order of the scan. -/
def candidates : List (Entry Offset) :=
  (Offset.scan.filter fun o => o ≠ Offset.mk 0 0 0 ∧ Inside vol st c o).map (candidate ops vol st c)

/-- The messages of one offset. -/
def offered (o : Offset) : List (Entry Place) :=
  if o ≠ Offset.mk 0 0 0 ∧ Inside vol st c o then [(candidate ops vol st c o).map (stored vol c)] else []

theorem candidates_eq : (candidates ops vol st c).map (Entry.map (stored vol c)) =
    Offset.scan.flatMap (offered ops vol st c) := by
  unfold candidates
  induction Offset.scan with
  | nil => rfl
  | cons o l ih =>
    rw [List.flatMap_cons, ← ih, List.filter_cons, offered]
    by_cases h : o ≠ Offset.mk 0 0 0 ∧ Inside vol st c o
    · rw [if_pos h, if_pos (decide_eq_true h)]
      rfl
    · rw [if_neg h, if_neg (by simpa using h)]
      rfl

end Reference

/-! ## What is sent to a reference -/

section Sent

variable {ops : Ops} {vol : Volume} {st : Stage} {iz iy ix : Int}

/-- The place of a reference in `Match`'s lists. -/
def refIndex (vol : Volume) (st : Stage) (iz iy ix : Int) : Int := (iz * ny vol st + iy) * nx vol st + ix

/-- A reference of the grid. -/
structure InGrid (vol : Volume) (st : Stage) (iz iy ix : Int) : Prop where
  z : 0 ≤ iz ∧ iz < nz vol st
  y : 0 ≤ iy ∧ iy < ny vol st
  x : 0 ≤ ix ∧ ix < nx vol st

theorem refIndex_inj {iz' iy' ix' : Int} (h : InGrid vol st iz iy ix) (h' : InGrid vol st iz' iy' ix')
    (heq : refIndex vol st iz' iy' ix' = refIndex vol st iz iy ix) : iz' = iz ∧ iy' = iy ∧ ix' = ix := by
  obtain ⟨hrow, hx⟩ := pixel_inj h'.x.1 h'.x.2 h.x.1 h.x.2 heq
  obtain ⟨hz, hy⟩ := pixel_inj h'.y.1 h'.y.2 h.y.1 h.y.2 hrow
  exact ⟨hz, hy, hx⟩

/-- Each band sends to its own references. -/
theorem bandList_keys {bandLo iz' : Int} {o : Int × Entry Place} (h : Fitting vol st)
    (ho : o ∈ bandList ops vol st iz' bandLo) : ∃ iy' ix', (bandLo ≤ iy' ∧ iy' < min (ny vol st) (bandLo + kBandRows)) ∧
      (0 ≤ ix' ∧ ix' < nx vol st) ∧ o.1 = refIndex vol st iz' iy' ix' := by
  unfold bandList at ho
  obtain ⟨dz, -, ho⟩ := List.mem_flatMap.mp ho
  unfold dzList at ho
  split at ho
  · simp at ho
  obtain ⟨dy, -, ho⟩ := List.mem_flatMap.mp ho
  unfold dyList at ho
  split at ho
  · simp at ho
  obtain ⟨dx0, -, ho⟩ := List.mem_flatMap.mp ho
  obtain ⟨j, -, ho⟩ := List.mem_flatMap.mp ho
  unfold offsetList at ho
  split at ho
  · simp at ho
  split at ho
  · simp at ho
  obtain ⟨iy', hiy, ho⟩ := List.mem_flatMap.mp ho
  unfold rowList at ho
  dsimp only at ho
  split at ho
  · simp at ho
  obtain ⟨ix', hix, rfl⟩ := List.mem_map.mp ho
  obtain ⟨hlo, hhi⟩ := Int.mem_range_iff.mp hix
  exact ⟨iy', ix', Int.mem_range_iff.mp hiy, ((columns_iff h).mp ⟨hlo, hhi⟩).1, rfl⟩

/-- A row of references, of which `ix` gets its candidate. -/
theorem sent_rowList {dz dy dx : Int} (h : Fitting vol st) (hgrid : InGrid vol st iz iy ix)
    (hz : 0 ≤ (corner vol st iz iy ix).z + dz ∧ (corner vol st iz iy ix).z + dz ≤ vol.t - st.cube)
    (hzero : ¬(dz = 0 ∧ dy = 0 ∧ dx = 0)) :
    sent (refIndex vol st iz iy ix) (rowList ops vol st iz ⟨(corner vol st iz iy ix).z, dz, dy⟩ dx iy) =
      offered ops vol st (corner vol st iz iy ix) (Offset.mk dz dy dx) := by
  have hstep := h.step_eq
  have hne : Offset.mk dz dy dx ≠ Offset.mk 0 0 0 := by
    intro heq
    exact hzero ⟨congrArg Offset.dz heq, congrArg Offset.dy heq, congrArg Offset.dx heq⟩
  have hinside : Inside vol st (corner vol st iz iy ix) (Offset.mk dz dy dx) ↔
      (0 ≤ position vol.h st.cube st.step iy + dy ∧ position vol.h st.cube st.step iy + dy ≤ vol.h - st.cube) ∧
        0 ≤ position vol.w st.cube 3 ix + dx ∧ position vol.w st.cube 3 ix + dx ≤ vol.w - st.cube := by
    unfold Inside
    rw [← hstep]
    exact and_iff_right hz
  unfold rowList offered
  simp only [and_iff_right hne]
  by_cases hout : position vol.h st.cube st.step iy + dy < 0 ∨ vol.h - st.cube < position vol.h st.cube st.step iy + dy
  · rw [if_pos hout, if_neg fun hin => by have hrow := (hinside.mp hin).1; omega]
    rfl
  rw [if_neg hout]
  unfold messages refIndex
  by_cases hcol : ixLo vol st dx ≤ ix ∧ ix < ixHi vol st dx
  · rw [if_pos (hinside.mpr ⟨by omega, ((columns_iff h).mp hcol).2⟩)]
    exact sent_map (range_nodup _ _) (Int.mem_range_iff.mpr hcol) fun b _ hb => by omega
  · rw [if_neg fun hin => hcol ((columns_iff h).mpr ⟨hgrid.x, (hinside.mp hin).2⟩)]
    refine sent_none fun o ho heq => ?_
    obtain ⟨k, hk, rfl⟩ := List.mem_map.mp ho
    have hk := Int.mem_range_iff.mp hk
    have hsame : k = ix := by dsimp only at heq; omega
    exact hcol (hsame ▸ hk)

variable {bandLo bandHi : Int}

theorem sent_offsetList {dz dy dx : Int} (h : Fitting vol st) (hgrid : InGrid vol st iz iy ix)
    (hband : bandLo ≤ iy ∧ iy < bandHi) (hbands : 0 ≤ bandLo ∧ bandHi ≤ ny vol st)
    (hz : 0 ≤ (corner vol st iz iy ix).z + dz ∧ (corner vol st iz iy ix).z + dz ≤ vol.t - st.cube) :
    sent (refIndex vol st iz iy ix) (offsetList ops vol st iz bandLo bandHi ⟨(corner vol st iz iy ix).z, dz, dy⟩ dx) =
      offered ops vol st (corner vol st iz iy ix) (Offset.mk dz dy dx) := by
  have hstep := h.step_eq
  unfold offsetList
  dsimp only
  by_cases hzero : dz = 0 ∧ dy = 0 ∧ dx = 0
  · obtain ⟨rfl, rfl, rfl⟩ := hzero
    rw [if_pos ⟨rfl, rfl, rfl⟩, offered, if_neg (by simp)]
    rfl
  rw [if_neg hzero]
  by_cases hnarrow : min vol.w (vol.w - dx) - max 0 (-dx) < st.cube
  · rw [if_pos hnarrow, offered, if_neg]
    · rfl
    · rintro ⟨-, -, -, hx⟩
      have hpos := position_nonneg h.columns hgrid.x.1
      have hle : position vol.w st.cube 3 ix ≤ vol.w - st.cube := position_le
      have hcorner : (corner vol st iz iy ix).x = position vol.w st.cube 3 ix := by rw [← hstep]; rfl
      have hdx : (Offset.mk dz dy dx).dx = dx := rfl
      omega
  rw [if_neg hnarrow, sent_flatMap, flatMap_single (range_nodup _ _) (Int.mem_range_iff.mpr hband)]
  · exact sent_rowList h hgrid hz hzero
  · intro iy' hiy' hne
    have hiy' := Int.mem_range_iff.mp hiy'
    refine sent_none fun o ho heq => ?_
    unfold rowList at ho
    dsimp only at ho
    split at ho
    · simp at ho
    obtain ⟨ix', hix, rfl⟩ := List.mem_map.mp ho
    have hcol := ((columns_iff h).mp (Int.mem_range_iff.mp hix)).1
    exact hne (refIndex_inj hgrid ⟨hgrid.z, ⟨by omega, by omega⟩, hcol⟩ heq).2.1

/-- The batches go through the offsets of a row in order. -/
theorem batches_flatMap {β : Type} (g : Int → List β) :
    (batches.flatMap fun dx0 => (List.range (batchSize dx0)).flatMap fun (j : Nat) => g (dx0 + j)) = reach.flatMap g := by
  have hreach : (batches.flatMap fun dx0 => (List.range (batchSize dx0)).map fun (j : Nat) => dx0 + j) = reach := by
    decide
  rw [← hreach, List.flatMap_assoc]
  congr 1
  funext dx0
  rw [List.flatMap_map]

theorem sent_dyList {dz dy rowLo rowHi : Int} (h : Fitting vol st) (hgrid : InGrid vol st iz iy ix)
    (hband : bandLo ≤ iy ∧ iy < bandHi) (hbands : 0 ≤ bandLo ∧ bandHi ≤ ny vol st)
    (hz : 0 ≤ (corner vol st iz iy ix).z + dz ∧ (corner vol st iz iy ix).z + dz ≤ vol.t - st.cube)
    (hrows : rowLo ≤ (corner vol st iz iy ix).y ∧ (corner vol st iz iy ix).y + st.cube ≤ rowHi) :
    sent (refIndex vol st iz iy ix)
        (dyList ops vol st rowLo rowHi iz bandLo bandHi ⟨(corner vol st iz iy ix).z, dz, dy⟩) =
      reach.flatMap fun dx => offered ops vol st (corner vol st iz iy ix) (Offset.mk dz dy dx) := by
  have hstep := h.step_eq
  have hsent : ∀ dx, sent (refIndex vol st iz iy ix)
      (offsetList ops vol st iz bandLo bandHi ⟨(corner vol st iz iy ix).z, dz, dy⟩ dx) =
        offered ops vol st (corner vol st iz iy ix) (Offset.mk dz dy dx) :=
    fun dx => sent_offsetList h hgrid hband hbands hz
  unfold dyList
  by_cases hnone : (rowsOf vol rowLo rowHi dy).yHi - (rowsOf vol rowLo rowHi dy).yLo < st.cube
  · rw [if_pos hnone]
    refine (List.flatMap_eq_nil_iff.mpr fun dx _ => ?_).symm
    rw [offered, if_neg]
    rintro ⟨-, -, hy, -⟩
    have hpos := position_nonneg h.rows hgrid.y.1
    have hle : position vol.h st.cube 3 iy ≤ vol.h - st.cube := position_le
    have hcorner : (corner vol st iz iy ix).y = position vol.h st.cube 3 iy := by rw [← hstep]; rfl
    have hdy : (Offset.mk dz dy dx).dy = dy := rfl
    unfold rowsOf at hnone
    dsimp only at hnone
    omega
  · rw [if_neg hnone]
    simp only [sent_flatMap, hsent]
    exact batches_flatMap fun dx => offered ops vol st (corner vol st iz iy ix) (Offset.mk dz dy dx)

theorem sent_bandList (h : Fitting vol st) (hgrid : InGrid vol st iz iy ix)
    (hband : bandLo ≤ iy ∧ iy < bandLo + kBandRows) (hlo : 0 ≤ bandLo) :
    sent (refIndex vol st iz iy ix) (bandList ops vol st iz bandLo) =
      Offset.scan.flatMap (offered ops vol st (corner vol st iz iy ix)) := by
  have hstep := h.step_eq
  have hfirst : position vol.h st.cube st.step bandLo ≤ position vol.h st.cube st.step iy := by
    rw [hstep]
    exact position_mono hband.1
  have hlast : position vol.h st.cube st.step iy ≤
      position vol.h st.cube st.step (min (ny vol st) (bandLo + kBandRows) - 1) := by
    rw [hstep]
    exact position_mono (by have hy := hgrid.y; omega)
  have hy : (corner vol st iz iy ix).y = position vol.h st.cube st.step iy := rfl
  unfold bandList Offset.scan
  dsimp only
  rw [sent_flatMap, List.flatMap_assoc]
  congr 1
  funext dz
  rw [List.flatMap_assoc]
  unfold dzList
  by_cases hout : position vol.t st.cube st.step iz + dz < 0 ∨ vol.t - st.cube < position vol.t st.cube st.step iz + dz
  · rw [if_pos hout]
    refine (List.flatMap_eq_nil_iff.mpr fun dy _ => List.flatMap_eq_nil_iff.mpr fun o ho => ?_).symm
    obtain ⟨dx, -, rfl⟩ := List.mem_map.mp ho
    rw [offered, if_neg]
    rintro ⟨-, hz, -⟩
    have hcorner : (corner vol st iz iy ix).z = position vol.t st.cube st.step iz := rfl
    have hdz : (Offset.mk dz dy dx).dz = dz := rfl
    omega
  · rw [if_neg hout, sent_flatMap]
    congr 1
    funext dy
    rw [List.flatMap_map]
    have hz : 0 ≤ (corner vol st iz iy ix).z + dz ∧ (corner vol st iz iy ix).z + dz ≤ vol.t - st.cube := by
      have hcorner : (corner vol st iz iy ix).z = position vol.t st.cube st.step iz := rfl
      omega
    have hyr := hgrid.y
    exact sent_dyList h hgrid ⟨hband.1, by omega⟩ ⟨hlo, by omega⟩ hz ⟨by omega, by omega⟩

/-- A reference is sent its candidates, in the order of their offsets. -/
theorem sent_allList (h : Fitting vol st) (hgrid : InGrid vol st iz iy ix) :
    sent (refIndex vol st iz iy ix) (allList ops vol st) =
      (candidates ops vol st (corner vol st iz iy ix)).map (Entry.map (stored vol (corner vol st iz iy ix))) := by
  have hrows : kBandRows = 8 := rfl
  have hiy := hgrid.y
  have hmem : iy / 8 * 8 ∈ strides kBandRows (ny vol st) := by
    unfold strides
    rw [hrows]
    refine List.mem_map.mpr ⟨(iy / 8).toNat, List.mem_range.mpr ?_, ?_⟩
    · omega
    · rw [Int.toNat_of_nonneg (by omega)]
  have hnodup : (strides kBandRows (ny vol st)).Nodup := by
    unfold strides
    rw [hrows]
    exact List.nodup_range.map fun a b hab => by omega
  rw [candidates_eq]
  unfold allList
  rw [sent_flatMap, flatMap_single (range_nodup _ _) (Int.mem_range_iff.mpr hgrid.z)]
  · rw [sent_flatMap, flatMap_single hnodup hmem]
    · exact sent_bandList h hgrid ⟨by omega, by omega⟩ (by omega)
    · intro bandLo hbandLo hne
      refine sent_none fun o ho heq => ?_
      obtain ⟨iy', ix', hiy', hix', hkey⟩ := bandList_keys h ho
      obtain ⟨k, -, rfl⟩ := List.mem_map.mp hbandLo
      rw [hrows] at hiy' hne
      obtain ⟨-, hsame, -⟩ := refIndex_inj hgrid ⟨hgrid.z, ⟨by omega, by omega⟩, hix'⟩ (hkey.symm.trans heq)
      exact hne (by omega)
  · intro iz' hiz' hne
    refine sent_none fun o ho heq => ?_
    obtain ⟨bandLo, hbandLo, ho⟩ := List.mem_flatMap.mp ho
    obtain ⟨iy', ix', hiy', hix', hkey⟩ := bandList_keys h ho
    obtain ⟨hlo, -⟩ := mem_strides (by decide) hbandLo
    exact hne (refIndex_inj hgrid ⟨Int.mem_range_iff.mp hiz', ⟨by omega, by omega⟩, hix'⟩ (hkey.symm.trans heq)).1

/-! ## The list of a reference -/

/-- The list of a reference before its candidates. -/
theorem started_eq (hgrid : InGrid vol st iz iy ix) : started vol st (refIndex vol st iz iy ix) =
    Matches.start st.group (stored vol (corner vol st iz iy ix) (Offset.mk 0 0 0)) := by
  obtain ⟨⟨hz, hz'⟩, ⟨hy, hy'⟩, hx, hx'⟩ := hgrid
  have hrow : 0 ≤ iz * ny vol st + iy := by
    have := Int.mul_nonneg hz (show 0 ≤ ny vol st by omega)
    omega
  have hrow' : iz * ny vol st + iy < nz vol st * ny vol st := by
    have := Int.mul_le_mul_of_nonneg_right (show iz + 1 ≤ nz vol st by omega) (show 0 ≤ ny vol st by omega)
    rw [Int.add_mul] at this
    omega
  have hmem : refIndex vol st iz iy ix ∈ Int.range 0 (nz vol st * ny vol st * nx vol st) := by
    refine Int.mem_range_iff.mpr ⟨?_, ?_⟩ <;> unfold refIndex
    · have := Int.mul_nonneg hrow (show 0 ≤ nx vol st by omega)
      omega
    · have := Int.mul_le_mul_of_nonneg_right (show iz * ny vol st + iy + 1 ≤ nz vol st * ny vol st by omega)
        (show 0 ≤ nx vol st by omega)
      rw [Int.add_mul] at this
      omega
  have hx0 : refIndex vol st iz iy ix % nx vol st = ix := by
    unfold refIndex
    rw [Int.add_comm, Int.add_mul_emod_self_right, Int.emod_eq_of_lt hx hx']
  have hdiv : refIndex vol st iz iy ix / nx vol st = iz * ny vol st + iy := by
    unfold refIndex
    rw [Int.add_comm, Int.add_mul_ediv_right _ _ (by omega), Int.ediv_eq_zero_of_lt hx hx', Int.zero_add]
  have hy0 : refIndex vol st iz iy ix / nx vol st % ny vol st = iy := by
    rw [hdiv, Int.add_comm, Int.add_mul_emod_self_right, Int.emod_eq_of_lt hy hy']
  have hz0 : refIndex vol st iz iy ix / (ny vol st * nx vol st) = iz := by
    rw [Int.mul_comm, ← Int.ediv_ediv_of_nonneg (by omega), hdiv, Int.add_comm, Int.add_mul_ediv_right _ _ (by omega),
      Int.ediv_eq_zero_of_lt hy hy', Int.zero_add]
  have hposts : started vol st = ((Int.range 0 (nz vol st * ny vol st * nx vol st)).map fun r => (r,
      Matches.start st.group (place vol (position vol.t st.cube st.step (r / (ny vol st * nx vol st)))
        (position vol.h st.cube st.step (r / nx vol st % ny vol st))
        (position vol.w st.cube st.step (r % nx vol st))))).foldl (post fun _ m => m) fun _ => Matches.empty := by
    rw [List.foldl_map]
    rfl
  rw [hposts, foldl_post, sent_map (range_nodup _ _) hmem fun b _ h => h, hx0, hy0, hz0]
  simp [stored, corner, Offset.mk, Offset.dz, Offset.dy, Offset.dx]

end Sent

/-! ## What is found -/

section Found

variable {ops : Ops} {vol : Volume} {st : Stage} {limit : F32} {iz iy ix : Int}

/-- No slab sum of the search is a NaN. -/
def NoNaN (ops : Ops) (vol : Volume) (st : Stage) : Prop :=
  ∀ iz, 0 ≤ iz → iz < nz vol st → ∀ dz ∈ reach, ∀ dy ∈ reach, ∀ dx ∈ reach,
    (0 ≤ position vol.t st.cube st.step iz + dz ∧ position vol.t st.cube st.step iz + dz ≤ vol.t - st.cube) →
    ∀ y, 0 ≤ y ∧ y < vol.h → 0 ≤ y + dy ∧ y + dy < vol.h → ∀ x, 0 ≤ x ∧ x < vol.w → 0 ≤ x + dx ∧ x + dx < vol.w →
      (slabValue ops vol st.cube ⟨position vol.t st.cube st.step iz, dz, dy⟩ (slabOp ops vol.w dx x) dx y x).isNaN = false

/-- A slab sum stays a NaN or is a sum of squares. -/
theorem slabValue_running {op : F32 → F32 → F32 → F32} (hop : ∀ {e acc}, Running acc → Running (op e e acc)) (L : Nat)
    (s : Shift) (dx y x : Int) : Running (slabValue ops vol L s op dx y x) := by
  unfold slabValue
  have hzero : Running F32.zero := .inr ⟨by decide, by decide⟩
  generalize F32.zero = acc at hzero
  induction List.range L generalizing acc with
  | nil => exact hzero
  | cons k l ih => exact ih _ (hop hzero)

theorem slabOp_running (w dx x : Int) {e acc : F32} (h : Running acc) : Running (slabOp ops w dx x e e acc) := by
  unfold slabOp
  split
  · exact ops.mulAdd_running h
  · exact ops.fma_running h

theorem mem_scan {o : Offset} (h : o ∈ Offset.scan) : o.dz ∈ reach ∧ o.dy ∈ reach ∧ o.dx ∈ reach := by
  obtain ⟨dz, hdz, h⟩ := List.mem_flatMap.mp h
  obtain ⟨dy, hdy, h⟩ := List.mem_flatMap.mp h
  obtain ⟨dx, hdx, rfl⟩ := List.mem_map.mp h
  exact ⟨hdz, hdy, hdx⟩

/-- The distances are sums of squares. -/
theorem candidates_proper (h : Fitting vol st) (hnan : NoNaN ops vol st) (hgrid : InGrid vol st iz iy ix) :
    ∀ e ∈ candidates ops vol st (corner vol st iz iy ix), Proper e.dist := by
  intro e he
  obtain ⟨o, ho, rfl⟩ := List.mem_map.mp he
  obtain ⟨hscan, hin⟩ := List.mem_filter.mp ho
  obtain ⟨-, hz, ⟨hy, hy'⟩, hx, hx'⟩ := of_decide_eq_true hin
  obtain ⟨hdz, hdy, hdx⟩ := mem_scan hscan
  have hstep := h.step_eq
  have hcube := h.cube_eq
  have hypos := position_nonneg h.rows hgrid.y.1
  have hxpos := position_nonneg h.columns hgrid.x.1
  have hyle : position vol.h st.cube 3 iy ≤ vol.h - st.cube := position_le
  have hxle : position vol.w st.cube 3 ix ≤ vol.w - st.cube := position_le
  unfold corner at hy hy' hx hx'
  dsimp only at hy hy' hx hx'
  rw [hstep] at hy hy' hx hx'
  refine sumValue_proper (by omega) fun i hi => sumValue_proper (by omega) fun j hj => ?_
  have hnumber := hnan iz hgrid.z.1 hgrid.z.2 o.dz hdz o.dy hdy o.dx hdx hz ((corner vol st iz iy ix).y + j)
  have hcorner : (corner vol st iz iy ix).y = position vol.h st.cube 3 iy := by rw [← hstep]; rfl
  have hcorner' : (corner vol st iz iy ix).x = position vol.w st.cube 3 ix := by rw [← hstep]; rfl
  have hnumber := hnumber ⟨by omega, by omega⟩ ⟨by omega, by omega⟩ ((corner vol st iz iy ix).x + i)
    ⟨by omega, by omega⟩ ⟨by omega, by omega⟩
  rcases slabValue_running (slabOp_running vol.w o.dx ((corner vol st iz iy ix).x + i)) st.cube
    ⟨(corner vol st iz iy ix).z, o.dz, o.dy⟩ o.dx ((corner vol st iz iy ix).y + j)
    ((corner vol st iz iy ix).x + i) with hnan' | hproper
  · rw [show (corner vol st iz iy ix).z = position vol.t st.cube st.step iz from rfl, hnumber] at hnan'
    exact absurd hnan' Bool.false_ne_true
  · exact hproper

/-- The list of a reference after all loops. -/
theorem offered_list (h : Fitting vol st) (hnan : NoNaN ops vol st) (hgrid : InGrid vol st iz iy ix) :
    ((allList ops vol st).foldl (offer st limit) (started vol st) (refIndex vol st iz iy ix)).list =
      ((⟨minusOne, Offset.mk 0 0 0⟩ ::
        sortBy key ((candidates ops vol st (corner vol st iz iy ix)).filter (accepted limit))).take st.group).map
          (Entry.map (stored vol (corner vol st iz iy ix))) := by
  have horder : (candidates ops vol st (corner vol st iz iy ix)).Pairwise fun a b => a.pos < b.pos := by
    unfold candidates
    rw [List.pairwise_map]
    exact Offset.scan_increasing.filter _
  unfold offer
  rw [foldl_post, sent_allList h hgrid, started_eq hgrid, start_map, offers_map,
    ← offer_fold h.group_pos _ _ (candidates_proper h hnan hgrid) horder]
  rfl

/-- The search ends without a sum that was missing or a store beyond the planes, and the list of
each reference is the reference itself and the nearest cubes around it. -/
theorem matchAll_finds (h : Fitting vol st) (hnan : NoNaN ops vol st) :
    ∃ m, matchAll ops vol st limit = some m ∧ ∀ iz iy ix, InGrid vol st iz iy ix →
      (m (refIndex vol st iz iy ix)).list =
        ((⟨minusOne, Offset.mk 0 0 0⟩ ::
          sortBy key ((candidates ops vol st (corner vol st iz iy ix)).filter (accepted limit))).take st.group).map
            (Entry.map (stored vol (corner vol st iz iy ix))) :=
  ⟨_, matchAll_eq h, fun _ _ _ hgrid => offered_list h hnan hgrid⟩

/-! ## An infinite distance -/

theorem largeOps_lanes : (0 : Int) < 4 := by decide

/-- Vectors of four lanes; the operations as they are on zero, on one large number and its
negative, and on infinity. -/
def largeOps : Ops where
  lanes := 4
  nativeFma := true
  sub a b := if a = b then F32.zero else if b = F32.zero then a else b ^^^ 0x80000000#32
  add a b := if a = F32.zero then b else if b = F32.zero then a else hugeVal
  fma a _ acc := if a = F32.zero then acc else hugeVal
  mulAdd a _ acc := if a = F32.zero then acc else hugeVal
  lanes_pos := largeOps_lanes
  mulAdd_eq _ := rfl
  add_proper := by
    intro a b ha hb
    split
    · exact hb
    split
    · exact ha
    · exact ⟨by decide, by decide⟩
  fma_running := by
    intro e acc h
    split
    · exact h
    · exact .inr ⟨by decide, by decide⟩
  mulAdd_running := by
    intro e acc h
    split
    · exact h
    · exact .inr ⟨by decide, by decide⟩

/-- Four frames of four rows of five, whose first column is `0x1p127`. -/
def largeVolume : Volume := ⟨4, 4, 5, fun _ _ x => if x = 0 then 0x7f000000#32 else F32.zero⟩

theorem largeVolume_fitting : Fitting largeVolume kBm4dHard :=
  ⟨.inl rfl, by decide, by decide, by decide⟩

theorem largeVolume_noNaN : NoNaN largeOps largeVolume kBm4dHard := by
  intro iz _ _ dz _ dy _ dx _ _ y _ _ x _ _
  have hop : slabOp largeOps largeVolume.w dx x = largeOps.fma := if_neg (by simp [largeOps])
  rw [hop]
  have hstep : ∀ e acc, acc.isNaN = false → (largeOps.fma e e acc).isNaN = false := by
    intro e acc hacc
    dsimp only [largeOps]
    split
    · exact hacc
    · decide
  unfold slabValue
  have hzero : F32.zero.isNaN = false := by decide
  generalize F32.zero = acc at hzero
  induction List.range kBm4dHard.cube generalizing acc with
  | nil => exact hzero
  | cons k l ih => exact ih _ (hstep _ _ hzero)

theorem largeVolume_grid : InGrid largeVolume kBm4dHard 0 0 0 := ⟨by decide, by decide, by decide⟩

theorem largeVolume_candidates : candidates largeOps largeVolume kBm4dHard (corner largeVolume kBm4dHard 0 0 0) =
    [⟨hugeVal, Offset.mk 0 0 1⟩] := by
  have hcorner : corner largeVolume kBm4dHard 0 0 0 = ⟨0, 0, 0⟩ := rfl
  have hscan : (Offset.scan.filter fun o => o ≠ Offset.mk 0 0 0 ∧ Inside largeVolume kBm4dHard ⟨0, 0, 0⟩ o) =
      [Offset.mk 0 0 1] := by
    apply eq_of_increasing (Offset.scan_increasing.filter _) (List.pairwise_singleton _ _)
    intro o
    rw [List.mem_filter, decide_eq_true_eq, List.mem_singleton]
    constructor
    · rintro ⟨-, hne, hz, hy, hx⟩
      -- the cube is as large as the volume, but for one column
      change 0 ≤ 0 + o.dz ∧ 0 + o.dz ≤ 4 - 4 at hz
      change 0 ≤ 0 + o.dy ∧ 0 + o.dy ≤ 4 - 4 at hy
      change 0 ≤ 0 + o.dx ∧ 0 + o.dx ≤ 5 - 4 at hx
      have heq : o = Offset.mk o.dz o.dy o.dx := rfl
      have hz0 : o.dz = 0 := by omega
      have hy0 : o.dy = 0 := by omega
      rw [hz0, hy0] at heq
      have hx0 : o.dx = 0 ∨ o.dx = 1 := by omega
      rcases hx0 with hx0 | hx0
      · exact absurd (heq.trans (by rw [hx0])) hne
      · exact heq.trans (by rw [hx0])
    · rintro rfl
      refine ⟨List.mem_flatMap.mpr ⟨0, by decide, List.mem_flatMap.mpr ⟨0, by decide, List.mem_map.mpr ⟨1, by decide, rfl⟩⟩⟩,
        by decide, by decide⟩
  rw [candidates, hcorner, hscan]
  decide

theorem matchAll_finds_large : ∃ m, matchAll largeOps largeVolume kBm4dHard hugeVal = some m ∧
    (m (refIndex largeVolume kBm4dHard 0 0 0)).list = [⟨minusOne, 0⟩] := by
  obtain ⟨m, hrun, hlists⟩ := @matchAll_finds largeOps largeVolume kBm4dHard hugeVal largeVolume_fitting largeVolume_noNaN
  refine ⟨m, hrun, (hlists 0 0 0 largeVolume_grid).trans ?_⟩
  rw [largeVolume_candidates]
  decide

/-- A cube at an infinite distance is no match, even where the limit is infinite and the list is
not full. -/
theorem infinite_left_out : Fitting largeVolume kBm4dHard ∧ NoNaN largeOps largeVolume kBm4dHard ∧
    ¬∃ m, matchAll largeOps largeVolume kBm4dHard hugeVal = some m ∧
      ∀ iz iy ix, InGrid largeVolume kBm4dHard iz iy ix → (m (refIndex largeVolume kBm4dHard iz iy ix)).list =
        ((⟨minusOne, Offset.mk 0 0 0⟩ :: sortBy key ((candidates largeOps largeVolume kBm4dHard
          (corner largeVolume kBm4dHard iz iy ix)).filter fun e => e.dist.le hugeVal)).take kBm4dHard.group).map
            (Entry.map (stored largeVolume (corner largeVolume kBm4dHard iz iy ix))) := by
  refine ⟨largeVolume_fitting, largeVolume_noNaN, ?_⟩
  rintro ⟨m, hrun, hlists⟩
  rw [matchAll_eq largeVolume_fitting] at hrun
  obtain rfl := Option.some.inj hrun
  have hcode := @offered_list largeOps largeVolume kBm4dHard hugeVal 0 0 0 largeVolume_fitting largeVolume_noNaN
    largeVolume_grid
  rw [hlists 0 0 0 largeVolume_grid, largeVolume_candidates] at hcode
  -- the one takes the cube in, the other leaves it out
  exact absurd (congrArg List.length hcode) (by decide)

end Found

end NssFactory.Cpu.Bm4d

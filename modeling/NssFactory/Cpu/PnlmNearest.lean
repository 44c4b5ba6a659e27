import NssFactory.Cpu.PnlmMatch

/-!
# The matches of PNLM

`matchRow_nearest`: after `match_row` the keys kept for a reference are those of the patches nearest to it,
in the model's order, and each of them leads back to its patch. A displacement sends keys to the references
that have a candidate there (`displacement_offers`), the packed keys are in the order of the model
(`patchKey_lt_iff`), and the displacements meet each candidate once (`scanned_perm`).
-/

namespace NssFactory.Cpu.Pnlm

open Arrays Loops Keyed

/-! ## Keys -/

section Keys

variable {t y x bits : Int} {b pos : Nat}

theorem word_eq (h : 0 ≤ x) (h' : x < 2 ^ 32) : word x = x.toNat := by
  rw [word, Int.emod_eq_of_lt h h']

/-- The fields of a place do not overlap. -/
theorem pnlmPos_eq (ht : 0 ≤ t) (ht' : t < 64) (hy : 0 ≤ y) (hy' : y < 8192) (hx : 0 ≤ x) (hx' : x < 8192) :
    pnlmPos t y x = t.toNat * 2 ^ 26 + y.toNat * 2 ^ 13 + x.toNat := by
  unfold pnlmPos
  rw [word_eq ht (by omega), word_eq hy (by omega), word_eq hx (by omega)]
  have hT : t.toNat < 64 := by omega
  have hY : y.toNat < 8192 := by omega
  have hX : x.toNat < 8192 := by omega
  generalize t.toNat = T at hT
  generalize y.toNat = Y at hY
  generalize x.toNat = X at hX
  have hfields : T * 2 ^ 26 < 2 ^ 32 ∧ Y * 2 ^ 13 < 2 ^ 32 ∧ Y * 2 ^ 13 + X < 2 ^ 26 := by omega
  have hyx : Y <<< 13 ||| X = Y * 2 ^ 13 + X := by
    rw [← Nat.shiftLeft_add_eq_or_of_lt hX, Nat.shiftLeft_eq]
  have htyx : T <<< 26 ||| (Y * 2 ^ 13 + X) = T * 2 ^ 26 + (Y * 2 ^ 13 + X) := by
    rw [← Nat.shiftLeft_add_eq_or_of_lt hfields.2.2, Nat.shiftLeft_eq]
  have ht32 : T <<< 26 % 2 ^ 32 = T <<< 26 := by
    rw [Nat.shiftLeft_eq]
    exact Nat.mod_eq_of_lt hfields.1
  have hy32 : Y <<< 13 % 2 ^ 32 = Y <<< 13 := by
    rw [Nat.shiftLeft_eq]
    exact Nat.mod_eq_of_lt hfields.2.1
  rw [ht32, hy32, Nat.or_assoc, hyx, htyx, Nat.add_assoc]

theorem packKey_eq (h : pos < 2 ^ 32) : packKey b pos = min b infBits * 2 ^ 32 + pos := by
  unfold packKey
  rw [← Nat.shiftLeft_add_eq_or_of_lt h, Nat.shiftLeft_eq]

/-- A place leads back to frame, row and column. -/
theorem pnlmPos_decode (ht : 0 ≤ t) (ht' : t < 64) (hy : 0 ≤ y) (hy' : y < 8192) (hx : 0 ≤ x) (hx' : x < 8192) :
    (pnlmPosT (pnlmPos t y x) : Int) = t ∧ (pnlmPosY (pnlmPos t y x) : Int) = y ∧ (pnlmPosX (pnlmPos t y x) : Int) = x := by
  have hpos := pnlmPos_eq ht ht' hy hy' hx hx'
  have hmask : ∀ n : Nat, n &&& 8191 = n % 8192 := fun n => Nat.and_two_pow_sub_one_eq_mod n 13
  have hshift : ∀ n k : Nat, n >>> k = n / 2 ^ k := fun n k => Nat.shiftRight_eq_div_pow n k
  have h26 : (2 : Nat) ^ 26 = 67108864 := by norm_num
  have h13 : (2 : Nat) ^ 13 = 8192 := by norm_num
  unfold pnlmPosT pnlmPosY pnlmPosX
  rw [hmask, hmask, hshift, hshift, h26, h13]
  rw [h26, h13] at hpos
  omega

end Keys

namespace Image

variable {v : Vectors} {img : Image} {y0 x0 t dy dx : Int} {c c' : Patch}

/-! ## Insertion -/

theorem foldl_insertKey (K : Nat) {l : List Nat} (hnd : l.Nodup) :
    l.foldl (insertKey K) [] = (sortBy id l).take K := by
  induction l using List.reverseRecOn with
  | nil => simp [sortBy]
  | append_singleton seen key ih =>
    obtain ⟨hseen, -, hdisjoint⟩ := List.nodup_append.mp hnd
    have hnew : ∀ b ∈ (sortBy id seen).take K, decide (key < b) = true ↔ id key ≤ id b := by
      intro b hb
      have hmem := (sortBy_perm id seen).mem_iff.mp (List.mem_of_mem_take hb)
      have hne := hdisjoint b hmem key (by simp)
      rw [decide_eq_true_eq, id, id]
      omega
    have hsorted : ((sortBy id seen).take K).Pairwise fun a b => id a ≤ id b :=
      (sortBy_le id seen).sublist (List.take_sublist _ _)
    have hlen : ((sortBy id seen).take K).length = min K seen.length := by
      rw [List.length_take, (sortBy_perm id seen).length_eq]
    have hinsert : (((sortBy id seen).take K).orderedInsert (fun a b => id a ≤ id b) key).take K =
        ((sortBy id seen).orderedInsert (fun a b => id a ≤ id b) key).take K := take_orderedInsert_take K _
    rw [← sortBy_snoc (by simpa using hnd)] at hinsert
    rw [List.foldl_append, List.foldl_cons, List.foldl_nil, ih hseen, ← hinsert]
    unfold insertKey
    by_cases hroom : ((sortBy id seen).take K).length < K
    · have hshift : shiftDown (fun a b => decide (a < b)) key _ ((sortBy id seen).take K ++ [key]) =
          ((sortBy id seen).take K).orderedInsert (fun a b => id a ≤ id b) key ++ [] := shiftDown_eq key hnew hsorted
      rw [if_pos hroom, hshift, List.append_nil]
      refine (List.take_of_length_le ?_).symm
      rw [List.orderedInsert_length]
      omega
    · rw [if_neg hroom]
      cases K with
      | zero => simp
      | succ K =>
        have hfulllen : ((sortBy id seen).take (K + 1)).length = K + 1 := by omega
        have hfull : ∃ last, ((sortBy id seen).take (K + 1))[K]? = some last ∧
            (if decide (key < last) then shiftDown (fun a b => decide (a < b)) key K ((sortBy id seen).take (K + 1))
            else (sortBy id seen).take (K + 1)) =
              (((sortBy id seen).take (K + 1)).orderedInsert (fun a b => id a ≤ id b) key).take (K + 1) :=
          shiftDown_full (r := fun a b => decide (a < b)) hfulllen hnew hsorted
        obtain ⟨last, hget, hshift⟩ := hfull
        rw [Nat.add_sub_cancel, hget, ← hshift]
        simp

/-! ## Distances -/

/-- The patch total of a displacement is the distance of the candidate there. -/
theorem patchTotal_eq : img.patchTotal v y0 c.y c.t (c.x - x0) x0 = img.distance v y0 x0 c := by
  have hcolumn : ∀ qy j, img.columnSum v y0 c.y c.t (c.x - x0) qy (x0 + j) = img.patchColumn v y0 x0 c qy j := by
    intro qy j
    unfold columnSum columnTo patchColumn
    rw [show x0 + j + (c.x - x0) = c.x + j by omega]
  have hleft : ∀ qy, img.quarterSum v y0 c.y c.t (c.x - x0) qy x0 = img.patchQuarter v y0 x0 c qy 0 := by
    intro qy
    unfold quarterSum patchQuarter
    congr 1
    funext j
    rw [hcolumn, Int.zero_mul, Int.zero_add]
  have hright : ∀ qy, img.quarterSum v y0 c.y c.t (c.x - x0) qy (x0 + img.q) = img.patchQuarter v y0 x0 c qy 1 := by
    intro qy
    unfold quarterSum patchQuarter
    congr 1
    funext j
    rw [Int.add_assoc, hcolumn, Int.one_mul]
  unfold patchTotal distance
  rw [hleft, hleft, hright, hright]

/-! ## A displacement -/

/-- The scratch rows have their padding. -/
structure Sized (img : Image) (w : Work) : Prop where
  top : w.top.size = img.width + kPad
  bottom : w.bottom.size = img.width + kPad
  quarterTop : w.quarterTop.size = img.width + kPad
  quarterBottom : w.quarterBottom.size = img.width + kPad
  total : w.total.size = img.width + kPad

/-- The keys kept for each reference when keys have been sent to them. -/
def take (img : Image) (best : Int → List Nat) (l : List (Int × Nat)) : Int → List Nat :=
  l.foldl (post (insertKey (img.group - 1).toNat)) best

/-- The run has a result and sends the keys `l` to the references. -/
def Offers (img : Image) (run : Work → Option Work) (l : List (Int × Nat)) : Prop :=
  ∀ w, Sized img w → ∃ w', run w = some w' ∧ Sized img w' ∧ w'.best = img.take w.best l

/-- The keys of a displacement. -/
def displacementKeys (v : Vectors) (img : Image) (y0 t dy dx : Int) : List (Int × Nat) :=
  if t = img.center ∧ dx = 0 ∧ dy = 0 then []
  else (img.inside dx).map fun ix => (ix, img.patchKey v y0 (img.xs ix) ⟨t, y0 + dy, img.xs ix + dx⟩)

theorem offers_foldlM (l : List Int) (total : Arr F32) (best : Int → List Nat)
    (h : ∀ ix ∈ l, total.get (img.xs ix) = some (img.distance v y0 (img.xs ix) ⟨t, y0 + dy, img.xs ix + dx⟩)) :
    l.foldlM (img.offer t (y0 + dy) dx total) best =
      some (img.take best (l.map fun ix => (ix, img.patchKey v y0 (img.xs ix) ⟨t, y0 + dy, img.xs ix + dx⟩))) := by
  induction l generalizing best with
  | nil => rfl
  | cons ix l ih =>
    have hoffer : img.offer t (y0 + dy) dx total best ix = some (post (insertKey (img.group - 1).toNat) best
        (ix, img.patchKey v y0 (img.xs ix) ⟨t, y0 + dy, img.xs ix + dx⟩)) := by
      unfold offer
      dsimp only
      rw [h ix List.mem_cons_self]
      rfl
    rw [List.foldlM_cons, hoffer, Option.bind_eq_bind, Option.bind_some,
      ih _ fun jx hjx => h jx (List.mem_cons_of_mem _ hjx)]
    rfl

theorem displacement_offers (hrows : Rows img y0 (y0 + dy) t) :
    Offers img (fun w => img.displacement v y0 t dy w dx) (displacementKeys v img y0 t dy dx) := by
  intro w hw
  have hc : Columns img dx (max 0 (-dx)) (min img.width (img.width - dx)) := ⟨rfl, rfl⟩
  obtain ⟨top, htop, htops, htope⟩ := columns_pass (v := v) hrows hc (.inl rfl) w.top hw.top
  obtain ⟨bottom, hbottom, hbottoms, hbottome⟩ := columns_pass (v := v) hrows hc (.inr rfl) w.bottom hw.bottom
  unfold displacement
  dsimp only
  rw [htop, Option.bind_eq_bind, Option.bind_some, hbottom, Option.bind_eq_bind, Option.bind_some]
  by_cases hself : t = img.center ∧ dx = 0 ∧ dy = 0
  · rw [if_pos hself, displacementKeys, if_pos hself]
    exact ⟨_, rfl, ⟨htops, hbottoms, hw.quarterTop, hw.quarterBottom, hw.total⟩, rfl⟩
  rw [if_neg hself, displacementKeys, if_neg hself]
  obtain ⟨qt, hqt, hqts, hqte⟩ := quarters_pass hc htops hw.quarterTop htope
  obtain ⟨qb, hqb, hqbs, hqbe⟩ := quarters_pass hc hbottoms hw.quarterBottom hbottome
  obtain ⟨total, htotal, htotals, htotale⟩ := totals_pass hc hqts hqbs hw.total hqte hqbe
  have hbest : (img.inside dx).foldlM (img.offer t (y0 + dy) dx total) w.best = some (img.take w.best
      ((img.inside dx).map fun ix => (ix, img.patchKey v y0 (img.xs ix) ⟨t, y0 + dy, img.xs ix + dx⟩))) := by
    refine offers_foldlM _ total w.best fun ix hix => ?_
    obtain ⟨hix0, -, hlo, hhi⟩ := mem_inside hix
    have hx := img.xs_bounds hix0
    have hpad : kPad = 32 := rfl
    have hP : img.P = 2 * img.q := rfl
    have hq := img.q_cases
    rw [Arr.get_eq _ hx.1 (by omega), htotale _ (by omega) (by omega), ← patchTotal_eq]
    dsimp only
    rw [show img.xs ix + dx - img.xs ix = dx by omega]
  rw [hqt, Option.bind_some, hqb, Option.bind_some, htotal, Option.bind_some, hbest, Option.bind_some]
  exact ⟨_, rfl, ⟨htops, hbottoms, hqts, hqbs, htotals⟩, rfl⟩

/-! ## The loops -/

theorem Offers.loop {lo hi : Int} {body : Work → Int → Option Work} {l : Int → List (Int × Nat)}
    (h : ∀ x, lo ≤ x → x < hi → Offers img (fun w => body w x) (l x)) :
    Offers img (fun w => Arrays.loop lo hi w body) ((Int.range lo hi).flatMap l) := by
  have hlist : ∀ xs : List Int, (∀ x ∈ xs, lo ≤ x ∧ x < hi) → Offers img (fun w => xs.foldlM body w) (xs.flatMap l) := by
    intro xs
    induction xs with
    | nil => exact fun _ w hw => ⟨w, rfl, hw, rfl⟩
    | cons x xs ih =>
      intro hmem w hw
      obtain ⟨hx, hx'⟩ := hmem x List.mem_cons_self
      obtain ⟨w₁, hrun₁, hw₁, hbest₁⟩ := h x hx hx' w hw
      obtain ⟨w₂, hrun₂, hw₂, hbest₂⟩ := ih (fun y hy => hmem y (List.mem_cons_of_mem _ hy)) w₁ hw₁
      refine ⟨w₂, ?_, hw₂, ?_⟩
      · dsimp only at hrun₁ hrun₂ ⊢
        rw [List.foldlM_cons, hrun₁]
        exact hrun₂
      · rw [hbest₂, hbest₁, List.flatMap_cons]
        exact List.foldl_append.symm
  exact hlist _ fun x hx => Int.mem_range_iff.mp hx

/-- The keys of the displacements of a row. -/
def rowKeys (v : Vectors) (img : Image) (y0 t dy : Int) : List (Int × Nat) :=
  if y0 + dy < 0 ∨ y0 + dy > img.height - img.P then []
  else (Int.range (-img.a) (img.a + 1)).flatMap (displacementKeys v img y0 t dy)

/-- All keys that are sent. -/
def keys (v : Vectors) (img : Image) (y0 : Int) : List (Int × Nat) :=
  (Int.range 0 img.frames).flatMap fun t => (Int.range (-img.a) (img.a + 1)).flatMap (rowKeys v img y0 t)

theorem matchRow_offers (hy0 : 0 ≤ y0) (hy0' : y0 ≤ img.height - img.P) {w : Work} (hw : Sized img w) :
    ∃ w', img.matchRow v y0 w = some w' ∧ w'.best = img.take (fun _ => []) (keys v img y0) := by
  have hrow : ∀ t, 0 ≤ t → t < img.frames → ∀ dy, Offers img (fun w => img.rowOf v y0 t w dy) (rowKeys v img y0 t dy) := by
    intro t ht ht' dy
    by_cases hout : y0 + dy < 0 ∨ y0 + dy > img.height - img.P
    · intro w hw
      unfold rowOf rowKeys
      dsimp only
      rw [if_pos hout, if_pos hout]
      exact ⟨w, rfl, hw, rfl⟩
    · have hrows : Rows img y0 (y0 + dy) t := ⟨hy0, hy0', by omega, by omega, ht, ht'⟩
      unfold rowOf rowKeys
      simp only [if_neg hout]
      exact Offers.loop fun dx _ _ => displacement_offers hrows
  have hall : Offers img (fun w => Arrays.loop 0 img.frames w (img.frameOf v y0)) (keys v img y0) :=
    Offers.loop fun t ht ht' => Offers.loop fun dy _ _ => hrow t ht ht' dy
  obtain ⟨w', hrun, -, hbest⟩ := hall { w with best := fun _ => [] } ⟨hw.top, hw.bottom, hw.quarterTop, hw.quarterBottom, hw.total⟩
  exact ⟨w', hrun, hbest⟩

/-! ## What a reference gets -/

/-- The candidates of a reference, as the displacements meet them. -/
def scanned (img : Image) (y0 x0 : Int) : List Patch :=
  (Int.range 0 img.frames).flatMap fun t => (Int.range (-img.a) (img.a + 1)).flatMap fun dy =>
    if y0 + dy < 0 ∨ y0 + dy > img.height - img.P then []
    else (Int.range (-img.a) (img.a + 1)).flatMap fun dx =>
      if (t = img.center ∧ dx = 0 ∧ dy = 0) ∨ ¬(0 ≤ x0 + dx ∧ x0 + dx ≤ img.width - img.P) then []
      else [⟨t, y0 + dy, x0 + dx⟩]

theorem sent_displacement {ix : Int} (hix : 0 ≤ ix) (hix' : ix < img.nx) : sent ix (displacementKeys v img y0 t dy dx) =
    (if (t = img.center ∧ dx = 0 ∧ dy = 0) ∨ ¬(0 ≤ img.xs ix + dx ∧ img.xs ix + dx ≤ img.width - img.P) then []
      else [(⟨t, y0 + dy, img.xs ix + dx⟩ : Patch)]).map (img.patchKey v y0 (img.xs ix)) := by
  unfold displacementKeys
  by_cases hself : t = img.center ∧ dx = 0 ∧ dy = 0
  · rw [if_pos hself, if_pos (.inl hself)]
    rfl
  rw [if_neg hself]
  have hnodup : (img.inside dx).Nodup := by
    rw [inside_eq]
    exact (range_nodup 0 img.nx).filter _
  by_cases hin : 0 ≤ img.xs ix + dx ∧ img.xs ix + dx ≤ img.width - img.P
  · have hmem : ix ∈ img.inside dx := by
      rw [inside_eq, List.mem_filter, Int.mem_range_iff, decide_eq_true_eq]
      exact ⟨⟨hix, hix'⟩, hin⟩
    rw [if_neg (by simp [hself, hin])]
    have hsent := @sent_map Int Int Nat _ (img.inside dx) id
      (fun ix => img.patchKey v y0 (img.xs ix) ⟨t, y0 + dy, img.xs ix + dx⟩) ix hnodup hmem fun b _ heq => heq
    exact hsent
  · rw [if_pos (.inr hin)]
    refine sent_none fun o ho => ?_
    obtain ⟨jx, hjx, rfl⟩ := List.mem_map.mp ho
    rintro rfl
    exact hin (mem_inside hjx).2.2

theorem sent_keys {ix : Int} (hix : 0 ≤ ix) (hix' : ix < img.nx) :
    sent ix (keys v img y0) = (scanned img y0 (img.xs ix)).map (img.patchKey v y0 (img.xs ix)) := by
  unfold keys scanned
  rw [sent_flatMap, List.map_flatMap]
  refine List.flatMap_congr fun t _ => ?_
  rw [sent_flatMap, List.map_flatMap]
  refine List.flatMap_congr fun dy _ => ?_
  unfold rowKeys
  split
  · rfl
  · rw [sent_flatMap, List.map_flatMap]
    exact List.flatMap_congr fun dx _ => sent_displacement hix hix'

/-! ## The candidates -/

theorem mem_scanned : c ∈ scanned img y0 x0 ↔ (0 ≤ c.t ∧ c.t < img.frames) ∧ (|c.y - y0| ≤ img.a ∧ |c.x - x0| ≤ img.a) ∧
    (0 ≤ c.y ∧ c.y ≤ img.height - img.P ∧ 0 ≤ c.x ∧ c.x ≤ img.width - img.P) ∧
    ¬(c.t = img.center ∧ c.y = y0 ∧ c.x = x0) := by
  unfold scanned
  simp only [List.mem_flatMap, Int.mem_range_iff, abs_le]
  constructor
  · rintro ⟨t, ht, dy, hdy, h⟩
    split at h
    · simp at h
    obtain ⟨dx, hdx, h⟩ := List.mem_flatMap.mp h
    split at h
    · simp at h
    obtain rfl := List.mem_singleton.mp h
    rw [Int.mem_range_iff] at hdx
    dsimp only
    omega
  · rintro ⟨ht, ⟨hy, hx⟩, hin, hself⟩
    refine ⟨c.t, ht, c.y - y0, by omega, ?_⟩
    rw [if_neg (by omega), List.mem_flatMap]
    refine ⟨c.x - x0, Int.mem_range_iff.mpr (by omega), ?_⟩
    rw [if_neg (by omega), List.mem_singleton, show y0 + (c.y - y0) = c.y by omega, show x0 + (c.x - x0) = c.x by omega]

theorem mem_candidates : c ∈ img.candidates y0 x0 ↔ (0 ≤ c.t ∧ c.t < img.frames) ∧ (|c.y - y0| ≤ img.a ∧ |c.x - x0| ≤ img.a) ∧
    (0 ≤ c.y ∧ c.y ≤ img.height - img.P ∧ 0 ≤ c.x ∧ c.x ≤ img.width - img.P) ∧
    ¬(c.t = img.center ∧ c.y = y0 ∧ c.x = x0) := by
  unfold candidates
  rw [List.mem_filter, decide_eq_true_eq]
  simp only [List.mem_flatMap, List.mem_map, Int.mem_range_iff]
  constructor
  · rintro ⟨⟨t, ht, y, hy, x, hx, rfl⟩, hay, hax, hself⟩
    exact ⟨ht, ⟨hay, hax⟩, ⟨hy.1, by dsimp only; omega, hx.1, by dsimp only; omega⟩, hself⟩
  · rintro ⟨ht, ⟨hay, hax⟩, hin, hself⟩
    exact ⟨⟨c.t, ht, c.y, by omega, c.x, by omega, rfl⟩, hay, hax, hself⟩

theorem candidates_nodup : (img.candidates y0 x0).Nodup := by
  refine List.Nodup.filter _ (nodup_flatMap_key Patch.t (range_nodup ..) (fun t _ => ?_) fun t _ c hc => ?_)
  · refine nodup_flatMap_key Patch.y (range_nodup ..) (fun y _ => ?_) fun y _ c hc => ?_
    · exact (range_nodup ..).map fun x x' heq => (Patch.mk.inj heq).2.2
    · obtain ⟨x, -, rfl⟩ := List.mem_map.mp hc
      rfl
  · obtain ⟨y, -, hc⟩ := List.mem_flatMap.mp hc
    obtain ⟨x, -, rfl⟩ := List.mem_map.mp hc
    rfl

/-- The displacements meet each candidate once. -/
theorem scanned_perm : (scanned img y0 x0).Perm (img.candidates y0 x0) := by
  refine (List.perm_ext_iff_of_nodup ?_ ?_).mpr fun c => by rw [mem_scanned, mem_candidates]
  · refine nodup_flatMap_key Patch.t (range_nodup ..) (fun t _ => ?_) fun t _ c hc => ?_
    · refine nodup_flatMap_key (fun c : Patch => c.y - y0) (range_nodup ..) (fun dy _ => ?_) fun dy _ c hc => ?_
      · split
        · exact List.nodup_nil
        · refine nodup_flatMap_key (fun c : Patch => c.x - x0) (range_nodup ..) (fun dx _ => ?_) fun dx _ c hc => ?_
          · split
            · exact List.nodup_nil
            · exact List.nodup_singleton _
          · split at hc
            · simp at hc
            · rw [List.mem_singleton.mp hc]
              dsimp only
              omega
      · split at hc
        · simp at hc
        obtain ⟨dx, -, hc⟩ := List.mem_flatMap.mp hc
        split at hc
        · simp at hc
        · rw [List.mem_singleton.mp hc]
          dsimp only
          omega
    · obtain ⟨dy, -, hc⟩ := List.mem_flatMap.mp hc
      split at hc
      · simp at hc
      obtain ⟨dx, -, hc⟩ := List.mem_flatMap.mp hc
      split at hc
      · simp at hc
      · rw [List.mem_singleton.mp hc]
  · exact candidates_nodup

/-- The fields of a candidate fit the key. -/
structure Fits (c : Patch) : Prop where
  t_nonneg : 0 ≤ c.t
  t_lt : c.t < 64
  y_nonneg : 0 ≤ c.y
  y_lt : c.y < 8192
  x_nonneg : 0 ≤ c.x
  x_lt : c.x < 8192

theorem fits_of_mem (h : c ∈ img.candidates y0 x0) : Fits c := by
  obtain ⟨ht, -, hin, -⟩ := mem_candidates.mp h
  have hframes := img.frames_max
  have hheight := img.height_max
  have hwidth := img.width_max
  have hP : img.P = 2 * img.q := rfl
  have hq := img.q_cases
  exact ⟨ht.1, by omega, hin.1, by omega, hin.2.2.1, by omega⟩

theorem Fits.pos_lt (h : Fits c) : pnlmPos c.t c.y c.x < 2 ^ 32 := by
  obtain ⟨ht, ht', hy, hy', hx, hx'⟩ := h
  rw [pnlmPos_eq ht ht' hy hy' hx hx']
  omega

theorem Fits.patchKey_eq (h : Fits c) : img.patchKey v y0 x0 c =
    img.distanceBits v y0 x0 c * 2 ^ 32 + (c.t.toNat * 2 ^ 26 + c.y.toNat * 2 ^ 13 + c.x.toNat) := by
  have hpos := h.pos_lt
  obtain ⟨ht, ht', hy, hy', hx, hx'⟩ := h
  rw [patchKey, packKey_eq hpos, pnlmPos_eq ht ht' hy hy' hx hx']
  rfl

/-- A field packed above another one decides before it. -/
theorem packed_lt_iff {n a a' p p' : Nat} (hp : p < n) (hp' : p' < n) :
    a * n + p < a' * n + p' ↔ a < a' ∨ a = a' ∧ p < p' := by
  rcases Nat.lt_trichotomy a a' with ha | rfl | ha
  · have hstep := Nat.mul_le_mul_right n (Nat.succ_le_of_lt ha)
    rw [Nat.succ_mul] at hstep
    simp only [ha, true_or, iff_true]
    omega
  · simp
  · have hstep := Nat.mul_le_mul_right n (Nat.succ_le_of_lt ha)
    rw [Nat.succ_mul] at hstep
    have hne : ¬(a < a' ∨ a = a' ∧ p < p') := by omega
    simp only [hne, iff_false]
    omega

theorem toNat_lt_iff {a b : Int} (ha : 0 ≤ a) (hb : 0 ≤ b) : (a.toNat < b.toNat ↔ a < b) ∧ (a.toNat = b.toNat ↔ a = b) := by
  omega

/-- The packed keys are in the order of the model, whatever the distances are. -/
theorem patchKey_lt_iff (h : Fits c) (h' : Fits c') :
    img.patchKey v y0 x0 c < img.patchKey v y0 x0 c' ↔ img.rank v y0 x0 c < img.rank v y0 x0 c' := by
  have hpos : ∀ {c : Patch}, c.t.toNat * 2 ^ 26 + c.y.toNat * 2 ^ 13 + c.x.toNat =
      (c.t.toNat * 2 ^ 13 + c.y.toNat) * 2 ^ 13 + c.x.toNat := by
    intro c
    omega
  have hfields : ∀ {c : Patch}, Fits c → c.y.toNat < 2 ^ 13 ∧ c.x.toNat < 2 ^ 13 ∧
      (c.t.toNat * 2 ^ 13 + c.y.toNat) * 2 ^ 13 + c.x.toNat < 2 ^ 32 := by
    rintro c ⟨ht, ht', hy, hy', hx, hx'⟩
    omega
  obtain ⟨hyf, hxf, hpf⟩ := hfields h
  obtain ⟨hyf', hxf', hpf'⟩ := hfields h'
  rw [h.patchKey_eq, h'.patchKey_eq, hpos, hpos, packed_lt_iff hpf hpf', packed_lt_iff hxf hxf', packed_lt_iff hyf hyf',
    (toNat_lt_iff h.t_nonneg h'.t_nonneg).1, (toNat_lt_iff h.t_nonneg h'.t_nonneg).2,
    (toNat_lt_iff h.y_nonneg h'.y_nonneg).1, (toNat_lt_iff h.x_nonneg h'.x_nonneg).1]
  have hkey : c.t.toNat * 2 ^ 13 + c.y.toNat = c'.t.toNat * 2 ^ 13 + c'.y.toNat ↔ c.t = c'.t ∧ c.y = c'.y := by
    rw [← (toNat_lt_iff h.t_nonneg h'.t_nonneg).2, ← (toNat_lt_iff h.y_nonneg h'.y_nonneg).2]
    omega
  rw [hkey]
  unfold rank
  simp only [Prod.Lex.toLex_lt_toLex]
  simp only [and_or_left, or_assoc, and_assoc]

/-- The fields of a key lead back to the candidate. -/
theorem Fits.decode (h : Fits c) : let key := img.patchKey v y0 x0 c
    (pnlmPosT (key % 2 ^ 32) : Int) = c.t ∧ (pnlmPosY (key % 2 ^ 32) : Int) = c.y ∧ (pnlmPosX (key % 2 ^ 32) : Int) = c.x ∧
      key / 2 ^ 32 = img.distanceBits v y0 x0 c := by
  have hpos := h.pos_lt
  have hkey : img.patchKey v y0 x0 c = img.distanceBits v y0 x0 c * 2 ^ 32 + pnlmPos c.t c.y c.x := by
    rw [patchKey, packKey_eq hpos]
    rfl
  have hlow : img.patchKey v y0 x0 c % 2 ^ 32 = pnlmPos c.t c.y c.x := by
    rw [hkey, Nat.mul_add_mod_of_lt hpos]
  have hhigh : img.patchKey v y0 x0 c / 2 ^ 32 = img.distanceBits v y0 x0 c := by
    rw [hkey]
    omega
  obtain ⟨ht, ht', hy, hy', hx, hx'⟩ := h
  have hdecode := pnlmPos_decode ht ht' hy hy' hx hx'
  intro key
  rw [hlow]
  exact ⟨hdecode.1, hdecode.2.1, hdecode.2.2, hhigh⟩

theorem rank_inj (h : img.rank v y0 x0 c = img.rank v y0 x0 c') : c = c' := by
  simp only [rank, EmbeddingLike.apply_eq_iff_eq, Prod.mk.injEq] at h
  obtain ⟨-, ht, hy, hx⟩ := h
  cases c
  cases c'
  simp_all

/-- The keys of candidates sorted by rank are sorted. -/
theorem patchKeys_sorted {l : List Patch} (hfits : ∀ c ∈ l, Fits c) (hnd : l.Nodup) :
    ((sortBy (img.rank v y0 x0) l).map (img.patchKey v y0 x0)).Pairwise (· < ·) := by
  have hranks : (l.map (img.rank v y0 x0)).Nodup := hnd.map_on fun c _ c' _ heq => rank_inj heq
  have hmem : ∀ c, c ∈ sortBy (img.rank v y0 x0) l ↔ c ∈ l := fun c => (sortBy_perm _ l).mem_iff
  rw [List.pairwise_map]
  refine (sortBy_lt hranks).imp_of_mem fun {c c'} hc hc' hlt => ?_
  exact (patchKey_lt_iff (hfits c ((hmem c).mp hc)) (hfits c' ((hmem c').mp hc'))).mpr hlt

theorem patchKeys_nodup {l : List Patch} (hfits : ∀ c ∈ l, Fits c) (hnd : l.Nodup) :
    (l.map (img.patchKey v y0 x0)).Nodup :=
  (((sortBy_perm (img.rank v y0 x0) l).map _).nodup_iff).mp ((patchKeys_sorted hfits hnd).imp ne_of_lt)

/-- Sorting the keys sorts the candidates. -/
theorem sortBy_patchKey {l : List Patch} (hfits : ∀ c ∈ l, Fits c) (hnd : l.Nodup) :
    sortBy id (l.map (img.patchKey v y0 x0)) = (sortBy (img.rank v y0 x0) l).map (img.patchKey v y0 x0) := by
  have hkeys : ((l.map (img.patchKey v y0 x0)).map id).Nodup := by
    rw [List.map_id]
    exact patchKeys_nodup hfits hnd
  exact eq_of_sorted (sortBy_lt hkeys) (patchKeys_sorted hfits hnd)
    ((sortBy_perm id _).trans ((sortBy_perm _ l).symm.map _))

/-! ## The whole search -/

/-- After the search of a grid row each reference of it has the keys of the patches that are nearest to it, and it
has read nothing outside the planes and the scratch rows. -/
theorem matchRow_nearest (v : Vectors) (img : Image) {iy : Int} (hiy : 0 ≤ iy) {w : Work} (hw : Sized img w) :
    let y0 := pnlmGridPos iy img.height img.P
    ∃ w', img.matchRow v y0 w = some w' ∧ ∀ ix, 0 ≤ ix → ix < img.nx →
      w'.best ix = (img.nearest v y0 (img.xs ix)).map (img.patchKey v y0 (img.xs ix)) ∧
      (w'.best ix).Pairwise (· < ·) ∧
      ∀ c ∈ img.nearest v y0 (img.xs ix), let key := img.patchKey v y0 (img.xs ix) c
        (pnlmPosT (key % 2 ^ 32) : Int) = c.t ∧ (pnlmPosY (key % 2 ^ 32) : Int) = c.y ∧ (pnlmPosX (key % 2 ^ 32) : Int) = c.x ∧
          key / 2 ^ 32 = img.distanceBits v y0 (img.xs ix) c := by
  intro y0
  have hbounds : 0 ≤ y0 ∧ y0 ≤ img.height - img.P := gridPos_bounds img.height_le hiy
  obtain ⟨hy0, hy0'⟩ := hbounds
  obtain ⟨w', hrun, hbest⟩ := matchRow_offers (v := v) hy0 hy0' hw
  refine ⟨w', hrun, fun ix hix hix' => ?_⟩
  have hperm : (scanned img y0 (img.xs ix)).Perm (img.candidates y0 (img.xs ix)) := scanned_perm
  have hfits : ∀ c ∈ scanned img y0 (img.xs ix), Fits c := fun c hc => fits_of_mem (hperm.mem_iff.mp hc)
  have hnd : (scanned img y0 (img.xs ix)).Nodup := hperm.nodup_iff.mpr candidates_nodup
  have hranks : ((img.candidates y0 (img.xs ix)).map (img.rank v y0 (img.xs ix))).Nodup :=
    candidates_nodup.map_on fun c _ c' _ heq => rank_inj heq
  have hkept : w'.best ix = (img.nearest v y0 (img.xs ix)).map (img.patchKey v y0 (img.xs ix)) := by
    rw [hbest, take, foldl_post, sent_keys hix hix', foldl_insertKey _ (patchKeys_nodup hfits hnd), sortBy_patchKey hfits hnd,
      ← List.map_take, nearest, sortBy_eq_of_perm hranks hperm]
  refine ⟨hkept, ?_, fun c hc => ?_⟩
  · have hsorted : ((sortBy (img.rank v y0 (img.xs ix)) (img.candidates y0 (img.xs ix))).map
        (img.patchKey v y0 (img.xs ix))).Pairwise (· < ·) := patchKeys_sorted (fun c hc => fits_of_mem hc) candidates_nodup
    rw [hkept, nearest, List.map_take]
    exact hsorted.sublist (List.take_sublist _ _)
  · exact (fits_of_mem ((sortBy_perm _ _).mem_iff.mp (List.mem_of_mem_take hc))).decode

end Image

/-! ## Two black frames -/

/-- The arithmetic of zeros. -/
def zeros : Vectors := ⟨8, by decide, by decide, fun _ _ => F32.zero, fun _ _ => F32.zero, fun _ _ _ => F32.zero⟩

/-- Two frames of one patch, with a window that is larger. -/
def black : Image where
  q := 2
  width := 4
  height := 4
  q_cases := by decide
  width_le := by decide
  height_le := by decide
  frames := 2
  center := 0
  a := 9
  group := 2
  value _ _ _ := F32.zero
  width_max := by decide
  height_max := by decide
  frames_pos := by decide
  frames_max := by decide
  center_nonneg := by decide
  center_lt := by decide
  a_pos := by decide
  group_min := by decide
  group_max := by decide

def blankRow : Arr F32 := ⟨36, fun _ => F32.zero⟩

def blankWork : Work := ⟨blankRow, blankRow, blankRow, blankRow, blankRow, fun _ => []⟩

theorem Image.matchRow_nearest_black : ∃ w', black.matchRow zeros (pnlmGridPos 0 4 4) blankWork = some w' ∧ w'.best 0 = [1 <<< 26] := by
  obtain ⟨w', hrun, hbest⟩ := matchRow_nearest zeros black (show (0 : Int) ≤ 0 by decide) (w := blankWork) ⟨rfl, rfl, rfl, rfl, rfl⟩
  refine ⟨w', hrun, (hbest 0 (by decide) (by decide)).1.trans ?_⟩
  decide

end NssFactory.Cpu.Pnlm

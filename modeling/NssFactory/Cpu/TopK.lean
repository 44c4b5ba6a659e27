import Mathlib.Data.List.Induction
import NssFactory.Cpu.Match

/-!
# The top-k policies of the block matcher

The four collectors of `cpu/bm/matcher.hpp`, each with the part `[0, size)` of its storage as a
list. `StableTopK` looks for the worst element with every candidate, `CachedWorstTopK` remembers
where it is, `SortedTopK` and `SpatialSortedTopK` keep the full storage sorted and shift.

All hold the least candidates (`LeastK`) in their own arrangement, so `topK_agree`: they end
with the same list, the first `capacity` of the candidates sorted by `match_less`.
-/

namespace NssFactory.Cpu

/-- The place of an element with no greater one: the scan of `StableTopK` and
`CachedWorstTopK`. -/
def scan (storage : List Match) : Nat :=
  (List.range' 1 (storage.length - 1)).foldl
    (fun worst i =>
      match storage[worst]?, storage[i]? with
      | some a, some b => if matchLess a b then i else worst
      | _, _ => worst)
    0

namespace StableTopK

variable (capacity : Int)

def add (storage : List Match) (candidate : Match) : List Match :=
  if capacity ≤ 0 then storage
  else if (storage.length : Int) < capacity then storage ++ [candidate]
  else
    match storage[scan storage]? with
    | some worst =>
      if matchLess candidate worst then storage.set (scan storage) candidate else storage
    | none => storage

/-- The first `already` elements of the memory as the storage. -/
def adopt (memory : List Match) (already : Int) : List Match :=
  if capacity ≤ 0 then []
  else if already < 0 then []
  else memory.take (if already > capacity then capacity else already).toNat

def finish (storage : List Match) : List Match :=
  if storage.length > 1 then sortMatches storage else storage

end StableTopK

namespace SortedTopK

variable (capacity : Int)

/-- The elements above the candidate move up by one, from `pos` down. -/
def shift (candidate : Match) : Nat → List Match → List Match
  | 0, storage => storage.set 0 candidate
  | pos + 1, storage =>
    match storage[pos]? with
    | some below =>
      if matchLess candidate below then shift candidate pos (storage.set (pos + 1) below)
      else storage.set (pos + 1) candidate
    | none => storage

def add (storage : List Match) (candidate : Match) : List Match :=
  if capacity ≤ 0 then storage
  else if (storage.length : Int) < capacity then
    if ((storage ++ [candidate]).length : Int) = capacity then sortMatches (storage ++ [candidate])
    else storage ++ [candidate]
  else
    match storage[storage.length - 1]? with
    | some last =>
      if matchLess candidate last then shift candidate (storage.length - 1) storage else storage
    | none => storage

def finish (storage : List Match) : List Match :=
  if storage.length > 1 ∧ (storage.length : Int) < capacity then sortMatches storage else storage

def full (storage : List Match) : Bool := decide (capacity > 0 ∧ (storage.length : Int) = capacity)

def worstDistance (storage : List Match) : F32 :=
  match storage[storage.length - 1]? with
  | some last => last.dist
  | none => F32.zero

end SortedTopK

/-- The storage of `CachedWorstTopK` and the place of its worst element. -/
structure CachedWorstTopK where
  p : List Match
  worst : Nat

namespace CachedWorstTopK

variable (cap : Int)

def init : CachedWorstTopK := ⟨[], 0⟩

def rescan (p : List Match) : CachedWorstTopK := ⟨p, scan p⟩

def add (s : CachedWorstTopK) (m : Match) : CachedWorstTopK :=
  if cap ≤ 0 then s
  else if (s.p.length : Int) < cap then
    if ((s.p ++ [m]).length : Int) = cap then rescan (s.p ++ [m]) else { s with p := s.p ++ [m] }
  else
    match s.p[s.worst]? with
    | some w => if matchLess m w then rescan (s.p.set s.worst m) else s
    | none => s

def adopt (memory : List Match) (n : Int) : CachedWorstTopK :=
  let p := memory.take (max 0 (min n cap)).toNat
  if p.length ≠ 0 then rescan p else ⟨p, 0⟩

def finish (s : CachedWorstTopK) : List Match := sortMatches s.p

end CachedWorstTopK

namespace SpatialSortedTopK

def add (capacity : Int) : List Match → Match → List Match := SortedTopK.add capacity

def finish (capacity : Int) : List Match → List Match := SortedTopK.finish capacity

end SpatialSortedTopK

/-- The least candidates of a search, in order: what every policy is for. -/
def best (capacity : Int) (candidates : List Match) : List Match :=
  (sortMatches candidates).take capacity.toNat

/-! ## One candidate -/

open Match

variable {capacity : Int} {seen storage : List Match} {x : Match}

/-- The scan finds an element that no other one exceeds. -/
theorem scan_spec (hne : storage ≠ []) : ∃ w, storage[scan storage]? = some w ∧
    ∀ a ∈ storage, a.rank ≤ w.rank := by
  have hpos : 0 < storage.length := List.length_pos_iff.mpr hne
  have key : ∀ n, n < storage.length → ∃ w,
      storage[(List.range' 1 n).foldl (fun worst i =>
        match storage[worst]?, storage[i]? with
        | some a, some b => if matchLess a b then i else worst
        | _, _ => worst) 0]? = some w ∧
      ∀ i a, i ≤ n → storage[i]? = some a → a.rank ≤ w.rank := by
    intro n
    induction n with
    | zero =>
      intro _
      refine ⟨storage[0], List.getElem?_eq_getElem hpos, fun i a hi ha => ?_⟩
      obtain rfl := Nat.le_zero.mp hi
      rw [List.getElem?_eq_getElem hpos] at ha
      exact le_of_eq (congrArg rank (Option.some.inj ha)).symm
    | succ n ih =>
      intro hn
      obtain ⟨w, hw, hmax⟩ := ih (by omega)
      obtain ⟨b, hb⟩ : ∃ b, storage[1 + n]? = some b :=
        ⟨_, List.getElem?_eq_getElem (by omega)⟩
      rw [List.range'_1_concat, List.foldl_append, List.foldl_cons, List.foldl_nil]
      simp only [hw, hb]
      have hsplit : ∀ i a, i ≤ n + 1 → storage[i]? = some a → a.rank ≤ w.rank ∨ a = b := by
        intro i a hi ha
        rcases Nat.lt_or_eq_of_le hi with hi | rfl
        · exact .inl (hmax i a (by omega) ha)
        · rw [Nat.add_comm, hb] at ha
          exact .inr (Option.some.inj ha).symm
      cases hless : matchLess w b with
      | true =>
        refine ⟨b, by simpa using hb, fun i a hi ha => ?_⟩
        rcases hsplit i a hi ha with hle | rfl
        · exact hle.trans (le_of_lt (matchLess_iff.mp hless))
        · exact le_rfl
      | false =>
        refine ⟨w, by simpa using hw, fun i a hi ha => ?_⟩
        rcases hsplit i a hi ha with hle | rfl
        · exact hle
        · exact matchLess_false_iff.mp hless
  obtain ⟨w, hw, hmax⟩ := key (storage.length - 1) (by omega)
  refine ⟨w, hw, fun a ha => ?_⟩
  obtain ⟨i, hi⟩ := List.mem_iff_getElem?.mp ha
  have := (List.getElem?_eq_some_iff.mp hi).1
  exact hmax i a (by omega) hi

/-- A full storage against a candidate, at a worst element. -/
theorem leastK_full {k : Nat} (hnd : ((seen ++ [x]).map rank).Nodup)
    (h : LeastK rank k seen storage) (hfull : storage.length = k) {i : Nat} {w : Match}
    (hi : storage[i]? = some w) (hmax : ∀ a ∈ storage, a.rank ≤ w.rank) :
    LeastK rank k (seen ++ [x]) (if matchLess x w then storage.set i x else storage) := by
  have hseen : (seen.map rank).Nodup := by
    rw [List.map_append] at hnd
    exact hnd.of_append_left
  have hnew : ∀ a ∈ storage, a.rank ≠ x.rank := by
    intro a ha heq
    rw [List.map_append, List.nodup_append] at hnd
    exact hnd.2.2 _ (List.mem_map_of_mem (h.subset ha)) _ (by simp) heq
  obtain ⟨hlt, rfl⟩ := List.getElem?_eq_some_iff.mp hi
  have hperm : storage.Perm (storage[i] :: storage.eraseIdx i) :=
    (List.getElem_cons_eraseIdx_perm hlt).symm
  cases hless : matchLess x storage[i] with
  | true =>
    rw [if_pos rfl]
    refine (h.replace hfull hperm (fun a ha => ?_) (matchLess_iff.mp hless)).perm
      (List.set_perm_cons_eraseIdx hlt x).symm
    refine lt_of_le_of_ne (hmax a (List.mem_of_mem_eraseIdx ha)) fun heq => ?_
    have hnds := (hperm.map rank).nodup_iff.mp (h.nodup hseen)
    exact (List.nodup_cons.mp hnds).1 (heq ▸ List.mem_map_of_mem ha)
  | false =>
    refine h.keep hfull fun a ha => ?_
    exact lt_of_le_of_ne ((hmax a ha).trans (matchLess_false_iff.mp hless)) (hnew a ha)

/-- Without room every candidate is left out. -/
theorem leastK_no_room (hcap : capacity ≤ 0) (h : LeastK rank capacity.toNat seen storage) :
    LeastK rank capacity.toNat (seen ++ [x]) storage := by
  have hzero : capacity.toNat = 0 := Int.toNat_of_nonpos hcap
  have hlen := h.length_le
  rw [hzero] at h hlen ⊢
  obtain rfl : storage = [] := List.length_eq_zero_iff.mp (Nat.le_zero.mp hlen)
  exact LeastK.zero

/-- `StableTopK` holds the least candidates it has seen. -/
theorem StableTopK.add_least (hnd : ((seen ++ [x]).map rank).Nodup)
    (h : LeastK rank capacity.toNat seen storage) :
    LeastK rank capacity.toNat (seen ++ [x]) (StableTopK.add capacity storage x) := by
  have hlen := h.length_le
  unfold StableTopK.add
  split
  · exact leastK_no_room ‹_› h
  split
  · exact h.grow (by omega)
  · have hfull : storage.length = capacity.toNat := by omega
    have hne : storage ≠ [] := by
      rintro rfl
      simp only [List.length_nil] at hfull
      omega
    obtain ⟨w, hw, hmax⟩ := scan_spec hne
    rw [hw]
    exact leastK_full hnd h hfull hw hmax

/-- `CachedWorstTopK` holds them too, and knows its worst element once it is full. -/
structure CachedWorstTopK.Holds (cap : Int) (seen : List Match) (s : CachedWorstTopK) : Prop where
  least : LeastK rank cap.toNat seen s.p
  worst_eq : s.p.length = cap.toNat → s.worst = scan s.p

theorem CachedWorstTopK.Holds.add (hnd : ((seen ++ [x]).map rank).Nodup) {s : CachedWorstTopK}
    (h : s.Holds capacity seen) : (s.add capacity x).Holds capacity (seen ++ [x]) := by
  have hlen := h.least.length_le
  unfold CachedWorstTopK.add
  split
  · exact ⟨leastK_no_room ‹_› h.least, h.worst_eq⟩
  split
  · have hgrow := h.least.grow (x := x) (by omega)
    split
    · exact ⟨hgrow, fun _ => rfl⟩
    · exact ⟨hgrow, fun hfull => by simp only [List.length_append] at *; omega⟩
  · have hfull : s.p.length = capacity.toNat := by omega
    have hne : s.p ≠ [] := by
      intro h
      rw [h, List.length_nil] at hfull
      omega
    obtain ⟨w, hw, hmax⟩ := scan_spec hne
    rw [← h.worst_eq hfull] at hw
    have hleast := leastK_full hnd h.least hfull hw hmax
    simp only [hw]
    cases hless : matchLess x w with
    | true =>
      rw [hless] at hleast
      exact ⟨hleast, fun _ => rfl⟩
    | false =>
      rw [hless] at hleast
      exact ⟨hleast, h.worst_eq⟩

/-- Shifting inserts the candidate among the sorted elements below `pos`. -/
theorem SortedTopK.shift_spec {below : List Match} (above : List Match) (hole : Match)
    (hsorted : below.Pairwise fun a b => a.rank < b.rank) (hx : ∀ a ∈ below, a.rank ≠ x.rank) :
    ∃ low high, below = low ++ high ∧
      SortedTopK.shift x below.length (below ++ hole :: above) = low ++ x :: (high ++ above) ∧
      (∀ a ∈ low, a.rank < x.rank) ∧ ∀ a ∈ high, x.rank < a.rank := by
  induction below using List.reverseRecOn generalizing hole above with
  | nil => exact ⟨[], [], rfl, rfl, nofun, nofun⟩
  | append_singleton below b ih =>
    obtain ⟨hbelow, -, hb⟩ := List.pairwise_append.mp hsorted
    have hlen : (below ++ [b]).length = below.length + 1 := by simp
    have hget : (below ++ [b] ++ hole :: above)[below.length]? = some b := by simp
    have hset : ∀ m, (below ++ [b] ++ hole :: above).set (below.length + 1) m =
        below ++ b :: (m :: above) := by
      intro m
      rw [← hlen, List.set_append_right _ _ (Nat.le_refl _)]
      simp
    rw [hlen, SortedTopK.shift, hget]
    simp only [hset]
    cases hless : matchLess x b with
    | true =>
      obtain ⟨low, high, heq, hshift, hlow, hhigh⟩ :=
        ih (b :: above) b hbelow fun a ha => hx a (List.mem_append_left _ ha)
      refine ⟨low, high ++ [b], by rw [heq, List.append_assoc], ?_, hlow, fun a ha => ?_⟩
      · rw [if_pos rfl, hshift]
        simp
      · rcases List.mem_append.mp ha with ha | ha
        · exact hhigh a ha
        · rw [List.mem_singleton.mp ha]
          exact matchLess_iff.mp hless
    | false =>
      have hbx : b.rank < x.rank :=
        lt_of_le_of_ne (matchLess_false_iff.mp hless) (hx b (by simp))
      refine ⟨below ++ [b], [], by simp, by simp, fun a ha => ?_, nofun⟩
      rcases List.mem_append.mp ha with ha | ha
      · exact (hb a ha b (by simp)).trans hbx
      · rw [List.mem_singleton.mp ha]
        exact hbx

/-- `SortedTopK` holds the least candidates, sorted once it is full. -/
structure SortedTopK.Holds (capacity : Int) (seen storage : List Match) : Prop where
  least : LeastK rank capacity.toNat seen storage
  sorted : storage.length = capacity.toNat → storage.Pairwise fun a b => a.rank < b.rank

theorem SortedTopK.Holds.add (hnd : ((seen ++ [x]).map rank).Nodup)
    (h : SortedTopK.Holds capacity seen storage) :
    SortedTopK.Holds capacity (seen ++ [x]) (SortedTopK.add capacity storage x) := by
  have hlen := h.least.length_le
  unfold SortedTopK.add
  split
  · exact ⟨leastK_no_room ‹_› h.least, h.sorted⟩
  split
  · have hgrow := h.least.grow (x := x) (by omega)
    split
    · rw [sortMatches_eq]
      exact ⟨hgrow.perm (sortBy_perm rank _).symm, fun _ => sortBy_lt (hgrow.nodup hnd)⟩
    · exact ⟨hgrow, fun hfull => by simp only [List.length_append] at *; omega⟩
  · have hfull : storage.length = capacity.toNat := by omega
    have hsorted := h.sorted hfull
    obtain ⟨below, last, rfl⟩ : ∃ below last, storage = below ++ [last] :=
      ⟨_, _, (List.dropLast_append_getLast (by rintro rfl; simp at hfull; omega)).symm⟩
    have hget : (below ++ [last])[below.length]? = some last := by simp
    obtain ⟨hbelow, -, hlast⟩ := List.pairwise_append.mp hsorted
    have hmax : ∀ a ∈ below ++ [last], a.rank ≤ last.rank := by
      intro a ha
      rcases List.mem_append.mp ha with ha | ha
      · exact le_of_lt (hlast a ha last (by simp))
      · rw [List.mem_singleton.mp ha]
    have hleast := leastK_full hnd h.least hfull hget hmax
    simp only [List.length_append, List.length_singleton, Nat.add_sub_cancel, hget]
    cases hless : matchLess x last with
    | false =>
      rw [hless] at hleast
      exact ⟨hleast, h.sorted⟩
    | true =>
      have hxlast := matchLess_iff.mp hless
      have hne : ∀ a ∈ below, a.rank ≠ x.rank := by
        intro a ha heq
        rw [List.map_append, List.nodup_append] at hnd
        exact hnd.2.2 _ (List.mem_map_of_mem (h.least.subset (by simp [ha]))) _ (by simp) heq
      obtain ⟨low, high, rfl, hshift, hlow, hhigh⟩ :=
        SortedTopK.shift_spec [] last hbelow hne
      rw [if_pos rfl, hshift, List.append_nil]
      rw [hless, if_pos rfl, List.set_append_right _ _ (Nat.le_refl _)] at hleast
      refine ⟨hleast.perm ?_, fun _ => ?_⟩
      · simp only [Nat.sub_self, List.set_cons_zero, List.append_assoc]
        exact (List.perm_append_singleton x high).append_left low
      · obtain ⟨hl, hh, hlh⟩ := List.pairwise_append.mp hbelow
        refine List.pairwise_append.mpr ⟨hl, List.pairwise_cons.mpr ⟨hhigh, hh⟩, ?_⟩
        intro a ha b hb
        rcases List.mem_cons.mp hb with rfl | hb
        · exact hlow a ha
        · exact hlh a ha b hb

/-! ## Whole runs -/

variable {candidates : List Match}

/-- A storage that holds the least candidates ends as their sorted prefix. -/
theorem finish_least (hnd : (seen.map rank).Nodup) (h : LeastK rank capacity.toNat seen storage) :
    StableTopK.finish storage = best capacity seen := by
  unfold StableTopK.finish best
  rw [sortMatches_eq, sortMatches_eq]
  split
  · exact h.sort_eq hnd
  · refine h.sorted_eq hnd (List.Perm.refl _) ?_
    have hlen : storage.length ≤ 1 := by omega
    match storage, hlen with
    | [], _ => exact List.Pairwise.nil
    | [a], _ => exact List.pairwise_singleton _ a

theorem StableTopK.run_from (hnd : ((seen ++ candidates).map rank).Nodup)
    (h : LeastK rank capacity.toNat seen storage) :
    StableTopK.finish (candidates.foldl (StableTopK.add capacity) storage) =
      best capacity (seen ++ candidates) :=
  finish_least hnd (foldl_seen hnd h fun _ _ _ hx hs => StableTopK.add_least hx hs)

theorem CachedWorstTopK.run_from (hnd : ((seen ++ candidates).map rank).Nodup)
    {s : CachedWorstTopK} (h : s.Holds capacity seen) :
    (candidates.foldl (CachedWorstTopK.add capacity) s).finish =
      best capacity (seen ++ candidates) := by
  have hrun : (candidates.foldl (CachedWorstTopK.add capacity) s).Holds capacity
      (seen ++ candidates) := foldl_seen hnd h fun _ _ _ hx hs => hs.add hx
  unfold CachedWorstTopK.finish best
  rw [sortMatches_eq, sortMatches_eq]
  exact hrun.least.sort_eq hnd

theorem SortedTopK.Holds.nil : SortedTopK.Holds capacity [] [] :=
  ⟨LeastK.self (by simp), fun _ => List.Pairwise.nil⟩

theorem SortedTopK.Holds.finish_eq (hnd : (seen.map rank).Nodup)
    (h : SortedTopK.Holds capacity seen storage) :
    SortedTopK.finish capacity storage = best capacity seen := by
  have hlen := h.least.length_le
  have hstable := finish_least hnd h.least
  unfold StableTopK.finish at hstable
  unfold SortedTopK.finish
  by_cases hfull : storage.length = capacity.toNat
  · rw [if_neg (by omega)]
    unfold best
    rw [sortMatches_eq]
    exact h.least.sorted_eq hnd (List.Perm.refl _) (h.sorted hfull)
  · by_cases hone : storage.length > 1
    · rw [if_pos hone] at hstable
      rw [if_pos ⟨hone, by omega⟩, hstable]
    · rw [if_neg hone] at hstable
      rw [if_neg (fun h => hone h.1), hstable]

theorem SortedTopK.run (hnd : (candidates.map rank).Nodup) :
    SortedTopK.finish capacity (candidates.foldl (SortedTopK.add capacity) []) =
      best capacity candidates := by
  have hrun : SortedTopK.Holds capacity ([] ++ candidates)
      (candidates.foldl (SortedTopK.add capacity) []) :=
    foldl_seen hnd SortedTopK.Holds.nil fun _ _ _ hx hs => hs.add hx
  exact hrun.finish_eq hnd

/-- An adopted prefix is held in full. -/
theorem StableTopK.adopt_eq {already : Int} {memory : List Match} (hnonneg : 0 ≤ already)
    (hle : already ≤ capacity) :
    StableTopK.adopt capacity memory already = memory.take already.toNat := by
  unfold StableTopK.adopt
  split
  · obtain rfl : already = 0 := by omega
    rfl
  · rw [if_neg (by omega), if_neg (by omega)]

theorem CachedWorstTopK.holds_adopt {already : Int} {memory : List Match} (hnonneg : 0 ≤ already)
    (hle : already ≤ capacity) :
    (CachedWorstTopK.adopt capacity memory already).Holds capacity
      (memory.take already.toNat) := by
  have hclamp : (max 0 (min already capacity)).toNat = already.toNat := by omega
  have hself : LeastK rank capacity.toNat (memory.take already.toNat)
      (memory.take already.toNat) := by
    refine LeastK.self ?_
    rw [List.length_take]
    omega
  unfold CachedWorstTopK.adopt
  rw [hclamp]
  by_cases hne : (memory.take already.toNat).length ≠ 0
  · simp only [if_pos hne]
    exact ⟨hself, fun _ => rfl⟩
  · simp only [if_neg hne]
    rw [not_not, List.length_eq_zero_iff] at hne
    rw [hne] at hself ⊢
    exact ⟨hself, fun _ => rfl⟩

/-- The best candidates are the least ones, in order. -/
theorem best_least (hnd : (candidates.map rank).Nodup) :
    (best capacity candidates).length = min capacity.toNat candidates.length ∧
      (best capacity candidates).Pairwise (fun a b => matchLess a b = true) ∧
      ∀ a ∈ best capacity candidates, ∀ b ∈ candidates, b ∉ best capacity candidates →
        matchLess a b = true := by
  have hperm := sortBy_perm rank candidates
  have hsorted := sortBy_lt hnd
  unfold best
  rw [sortMatches_eq]
  simp only [matchLess_iff]
  refine ⟨by rw [List.length_take, hperm.length_eq], hsorted.sublist (List.take_sublist _ _), ?_⟩
  intro a ha b hb hout
  rw [← List.take_append_drop capacity.toNat (sortBy rank candidates)] at hsorted hperm
  have hb' := (List.mem_append.mp (hperm.mem_iff.mpr hb)).resolve_left hout
  exact (List.pairwise_append.mp hsorted).2.2 a ha b hb'

theorem best_perm {candidates' : List Match} (hnd : (candidates.map rank).Nodup)
    (h : candidates'.Perm candidates) : best capacity candidates' = best capacity candidates := by
  unfold best
  rw [sortMatches_eq, sortMatches_eq, sortBy_eq_of_perm hnd h]

/-- Every policy ends with the same list: the least candidates under `match_less`, as many as
there is room for, in order. So it does not matter in which order the candidates came, and for
the two that adopt a prefix of the memory the prefix counts as candidates. `match_less` is a
strict order, total on candidates of different places. -/
theorem topK_agree :
    (∀ (capacity : Int) (candidates : List Match), (candidates.map place).Nodup →
      StableTopK.finish (candidates.foldl (StableTopK.add capacity) []) =
          best capacity candidates ∧
        SortedTopK.finish capacity (candidates.foldl (SortedTopK.add capacity) []) =
          best capacity candidates ∧
        (candidates.foldl (CachedWorstTopK.add capacity) CachedWorstTopK.init).finish =
          best capacity candidates ∧
        SpatialSortedTopK.finish capacity
            (candidates.foldl (SpatialSortedTopK.add capacity) []) = best capacity candidates ∧
        (best capacity candidates).length = min capacity.toNat candidates.length ∧
        (best capacity candidates).Pairwise (fun a b => matchLess a b = true) ∧
        (∀ a ∈ best capacity candidates, ∀ b ∈ candidates, b ∉ best capacity candidates →
          matchLess a b = true) ∧
        ∀ candidates', candidates'.Perm candidates →
          best capacity candidates' = best capacity candidates) ∧
      (∀ (capacity already : Int) (memory candidates : List Match), 0 ≤ already →
        already ≤ capacity →
        ((memory.take already.toNat ++ candidates).map place).Nodup →
        StableTopK.finish (candidates.foldl (StableTopK.add capacity)
            (StableTopK.adopt capacity memory already)) =
          best capacity (memory.take already.toNat ++ candidates) ∧
        (candidates.foldl (CachedWorstTopK.add capacity)
            (CachedWorstTopK.adopt capacity memory already)).finish =
          best capacity (memory.take already.toNat ++ candidates)) ∧
      (∀ a, matchLess a a = false) ∧
      (∀ a b c, matchLess a b = true → matchLess b c = true → matchLess a c = true) ∧
      ∀ a b, a.place ≠ b.place → matchLess a b = true ∨ matchLess b a = true := by
  refine ⟨fun capacity candidates hplace => ?_, ?_, ?_, ?_, ?_⟩
  · have hnd := nodup_rank hplace
    obtain ⟨hlen, hsorted, hleast⟩ := @best_least capacity candidates hnd
    have hempty : LeastK rank capacity.toNat [] [] := LeastK.self (by simp)
    have hsortRun := @SortedTopK.run capacity candidates hnd
    have hnil : (([] ++ candidates).map rank).Nodup := hnd
    exact ⟨StableTopK.run_from hnil hempty, hsortRun,
      CachedWorstTopK.run_from hnil ⟨hempty, fun _ => rfl⟩,
      hsortRun, hlen, hsorted, hleast, fun _ => best_perm hnd⟩
  · intro capacity already memory candidates hnonneg hle hplace
    have hnd := nodup_rank hplace
    have hself : LeastK rank capacity.toNat (memory.take already.toNat)
        (memory.take already.toNat) := LeastK.self (by rw [List.length_take]; omega)
    rw [StableTopK.adopt_eq hnonneg hle]
    exact ⟨StableTopK.run_from hnd hself,
      CachedWorstTopK.run_from hnd (CachedWorstTopK.holds_adopt hnonneg hle)⟩
  · exact fun a => matchLess_false_iff.mpr le_rfl
  · intro a b c hab hbc
    exact matchLess_iff.mpr ((matchLess_iff.mp hab).trans (matchLess_iff.mp hbc))
  · intro a b hne
    rcases lt_or_gt_of_ne (rank_ne hne) with h | h
    · exact .inl (matchLess_iff.mpr h)
    · exact .inr (matchLess_iff.mpr h)

/-- Two of five candidates: the tie at distance 1 goes to the earlier frame, the infinity and
the NaN stay behind, and the adopted candidate of a far place is driven out. -/
theorem topK_agree_ties :
    let inf : F32 := 0x7f800000#32
    let nan : F32 := 0x7fc00000#32
    let one : F32 := 0x3f800000#32
    let adopted : Match := ⟨9, 9, 2, 0x7f7fffff#32, 81⟩
    let candidates : List Match :=
      [⟨0, 0, 1, nan, 5⟩, ⟨3, 0, 1, one, 6⟩, ⟨0, 1, 1, inf, 7⟩, ⟨3, 0, 0, one, 4⟩]
    SortedTopK.finish 2 (candidates.foldl (SortedTopK.add 2) []) =
        [⟨3, 0, 0, one, 4⟩, ⟨3, 0, 1, one, 6⟩] ∧
      StableTopK.finish (candidates.foldl (StableTopK.add 2) (StableTopK.adopt 2 [adopted] 1)) =
        [⟨3, 0, 0, one, 4⟩, ⟨3, 0, 1, one, 6⟩] := by
  intro inf nan one adopted candidates
  have hall := (topK_agree.1 2 candidates (by decide)).2.1
  have hadopt := (topK_agree.2.1 2 1 [adopted] candidates (by decide) (by decide) (by decide)).1
  rw [hall, hadopt]
  decide

end NssFactory.Cpu

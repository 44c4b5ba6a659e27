import NssFactory.Cpu.PixelSelect
import NssFactory.Lib.Loops

/-!
# The three nearest of 64 rows

`SelectTopThree64` keeps the three least of each lane and then takes the least of the lanes three
times: `selectTopThree64_eq` says that these are the three least of all. A lane holds the first
three of a sorted list (`Lane.slots`); when one is taken, one fewer of its slots is certain (`Heads`).
-/

namespace NssFactory.Cpu.Pixel

open Function Bm4d

variable {dist : Nat → F32} {lanes self T i : Nat} {seen : List Slot} {lane : Lane}

def Lane.slots (lane : Lane) : List Slot := [lane.a, lane.b, lane.c]

/-- What lane `i` has seen after `T` rounds. -/
def laneEntries (dist : Nat → F32) (lanes self i T : Nat) : List Slot :=
  (((List.range T).map (· * lanes + i)).filter (· ≠ self)).map fun s => ⟨dist s, s⟩

theorem mem_laneEntries {e : Slot} : e ∈ laneEntries dist lanes self i T ↔
    (∃ t < T, e.index = t * lanes + i) ∧ e.index ≠ self ∧ e.dist = dist e.index := by
  unfold laneEntries
  simp only [List.mem_map, List.mem_filter, List.mem_range, decide_eq_true_eq]
  constructor
  · rintro ⟨s, ⟨⟨t, ht, rfl⟩, hs⟩, rfl⟩
    exact ⟨⟨t, ht, rfl⟩, hs, rfl⟩
  · rintro ⟨⟨t, ht, hidx⟩, hs, hd⟩
    exact ⟨e.index, ⟨⟨t, ht, hidx.symm⟩, hs⟩, by rw [← hd]⟩

/-- The values of a lane come in the order of their indices, so equal distances stay in it. -/
theorem Lane.take_slots {v : F32} {index : Nat} (h : Real (seen ++ [⟨v, index⟩])) (hne : index ≠ self)
    (horder : ∀ e ∈ seen, e.index < index) (hlane : lane.slots = padded 3 64 seen) :
    (lane.take self v index).slots = padded 3 64 (seen ++ [⟨v, index⟩]) := by
  have hv : v.toNat < kInf.toNat := h.below ⟨v, index⟩ (by simp)
  have hlt : ∀ b ∈ lane.slots, better ⟨v, index⟩ b = v.lt b.dist := by
    intro b hb
    rw [hlane] at hb
    have hbs := padded_small h.left hb
    refine Bool.eq_iff_iff.mpr ?_
    rw [better_iff (show Small (⟨v, index⟩ : Slot).dist from hv.le) hbs, Small.lt_iff (show Small v from hv.le) hbs, key_lt]
    rcases mem_padded hb with hb | rfl
    · have := horder b hb
      exact or_iff_left fun hboth => by have := hboth.2; dsimp only at this; omega
    · exact or_iff_left fun hboth => Nat.lt_irrefl _ (hboth.1 ▸ hv)
  have hmono : ∀ b ∈ lane.slots, ∀ c ∈ lane.slots, key b ≤ key c → v.lt b.dist = true → v.lt c.dist = true := by
    intro b hb c hc hbc
    rw [hlane] at hb hc
    rw [Small.lt_iff hv.le (padded_small h.left hb), Small.lt_iff hv.le (padded_small h.left hc)]
    rcases Prod.Lex.toLex_le_toLex.mp hbc with hbc | hbc <;> dsimp only at hbc <;> omega
  have hsorted := hlane ▸ padded_sorted (k := 3) (r := 64) h.left
  simp only [Lane.slots, List.pairwise_cons, List.mem_cons, List.not_mem_nil, or_false, forall_eq_or_imp,
    forall_eq] at hsorted hlt hmono
  obtain ⟨⟨hab, -⟩, hbc, -⟩ := hsorted
  obtain ⟨ha, hb, hc⟩ := hlt
  have hfirst := hmono.1.2.1 hab
  have hsecond := hmono.2.1.2.2 hbc
  have hinsert : insertSlot 4 (padded 3 64 seen) ⟨v, index⟩ = padded 3 64 (seen ++ [⟨v, index⟩]) := insertSlot_padded h
  rw [← hinsert, ← hlane]
  simp only [insertSlot, Lane.slots, Lane.take, ha, hb, hc, if_neg hne]
  cases h1 : v.lt lane.a.dist with
  | true => simp [hfirst h1, hsecond (hfirst h1)]
  | false => cases h2 : v.lt lane.b.dist <;> cases h3 : v.lt lane.c.dist <;> simp_all

/-- The row itself changes nothing. -/
theorem Lane.take_self {v : F32} {index : Nat} (hself : index = self) (hsmall : ∀ b ∈ lane.slots, Small b.dist) :
    (lane.take self v index).slots = lane.slots := by
  have hlt : ∀ b ∈ lane.slots, kInf.lt b.dist = false := by
    intro b hb
    rw [← Bool.not_eq_true, small_kInf.lt_iff (hsmall b hb)]
    exact Nat.not_lt.mpr (hsmall b hb)
  simp only [Lane.slots, List.mem_cons, List.not_mem_nil, or_false, forall_eq_or_imp, forall_eq] at hlt
  obtain ⟨ha, hb, hc⟩ := hlt
  simp [Lane.take, Lane.slots, hself, ha, hb, hc]

/-- Lane `i` after `T` rounds. -/
def laneRun (dist : Nat → F32) (lanes self i T : Nat) : Lane :=
  (List.range T).foldl (fun lane t => lane.take self (dist (t * lanes + i)) (t * lanes + i)) ⟨absent, absent, absent, true⟩

theorem laneRun_succ : laneRun dist lanes self i (T + 1) =
    (laneRun dist lanes self i T).take self (dist (T * lanes + i)) (T * lanes + i) := by
  unfold laneRun
  rw [List.range_succ, List.foldl_append, List.foldl_cons, List.foldl_nil]

theorem laneRun_bounded : (laneRun dist lanes self i T).bounded = true ↔
    ∀ t < T, (dist (t * lanes + i)).toNat < kInf.toNat := by
  induction T with
  | zero => simp [laneRun]
  | succ T ih =>
    rw [laneRun_succ]
    simp only [Lane.take, Bool.and_eq_true, decide_eq_true_eq, ih]
    exact ⟨fun ⟨h, hT⟩ t ht => (Nat.lt_succ_iff_lt_or_eq.mp ht).elim (h t) (· ▸ hT),
      fun h => ⟨fun t ht => h t (by omega), h T (by omega)⟩⟩

theorem laneEntries_succ : laneEntries dist lanes self i (T + 1) = laneEntries dist lanes self i T ++
    if T * lanes + i = self then [] else [⟨dist (T * lanes + i), T * lanes + i⟩] := by
  unfold laneEntries
  rw [List.range_succ, List.map_append, List.filter_append, List.map_append]
  congr 1
  by_cases h : T * lanes + i = self <;> simp [h]

theorem laneEntries_real (hl : 0 < lanes) (h : ∀ t < T, (dist (t * lanes + i)).toNat < kInf.toNat) :
    Real (laneEntries dist lanes self i T) := by
  refine ⟨fun e he => ?_, ?_⟩
  · obtain ⟨⟨t, ht, hidx⟩, -, hd⟩ := mem_laneEntries.mp he
    rw [hd, hidx]
    exact h t ht
  · unfold laneEntries
    rw [List.map_map]
    refine List.Nodup.map_on ?_ ((List.Nodup.map_on ?_ List.nodup_range).filter _)
    · intro s _ s' _ heq
      simp only [Function.comp_apply, key, EmbeddingLike.apply_eq_iff_eq, Prod.mk.injEq] at heq
      exact heq.2
    · intro t _ t' _ heq
      exact Nat.eq_of_mul_eq_mul_right hl (by omega)

theorem laneRun_slots (hl : 0 < lanes) (h : ∀ t < T, (dist (t * lanes + i)).toNat < kInf.toNat) :
    (laneRun dist lanes self i T).slots = padded 3 64 (laneEntries dist lanes self i T) := by
  induction T with
  | zero => rfl
  | succ T ih =>
    have hrun := ih fun t ht => h t (by omega)
    have hreal : Real (laneEntries dist lanes self i (T + 1)) := laneEntries_real hl h
    rw [laneRun_succ, laneEntries_succ] at *
    by_cases hself : T * lanes + i = self
    · rw [if_pos hself, List.append_nil] at *
      rw [Lane.take_self hself fun b hb => padded_small hreal (hrun ▸ hb), hrun]
    · rw [if_neg hself] at *
      refine Lane.take_slots hreal hself (fun e he => ?_) hrun
      obtain ⟨⟨t, ht, hidx⟩, -⟩ := mem_laneEntries.mp he
      have := Nat.mul_le_mul_right lanes (show t + 1 ≤ T from ht)
      rw [Nat.succ_mul] at this
      omega

/-! ## The lanes together -/

/-- The first `n` slots of each lane are those of its sorted list. -/
def Heads (lanes n : Nat) (lane : Nat → Lane) (rest : Nat → List Slot) : Prop :=
  ∀ i < lanes, (lane i).slots.take n = (rest i ++ [absent, absent, absent]).take n

/-- The sorted lists of what the lanes still hold. -/
structure Sorted (lanes : Nat) (rest : Nat → List Slot) : Prop where
  sorted : ∀ i < lanes, (rest i).Pairwise fun a b => key a ≤ key b
  below : ∀ i < lanes, ∀ e ∈ rest i, e.dist.toNat < kInf.toNat
  index : ∀ i < lanes, ∀ e ∈ rest i, e.index < 64 ∧ e.index % lanes = i

theorem foldl_min {f : Nat → Nat} {n : Nat} : ∃ i < n + 1, (List.range n).foldl (fun x i => min x (f (i + 1))) (f 0) = f i ∧
    ∀ j < n + 1, f i ≤ f j := by
  induction n with
  | zero => exact ⟨0, by omega, rfl, fun j hj => by rw [show j = 0 by omega]⟩
  | succ n ih =>
    obtain ⟨i, hi, heq, hle⟩ := ih
    rw [List.range_succ, List.foldl_append, List.foldl_cons, List.foldl_nil, heq]
    by_cases hmin : f i ≤ f (n + 1)
    · refine ⟨i, by omega, Nat.min_eq_left hmin, fun j hj => ?_⟩
      by_cases hlast : j = n + 1
      · rw [hlast]
        exact hmin
      · exact hle j (by omega)
    · refine ⟨n + 1, by omega, Nat.min_eq_right (by omega), fun j hj => ?_⟩
      by_cases hlast : j = n + 1
      · rw [hlast]
      · exact (Nat.le_of_not_le hmin).trans (hle j (by omega))

section Take

variable {n : Nat} {rest : Nat → List Slot} {lane : Nat → Lane}

/-- The first slot of a lane. -/
theorem Heads.first (h : Heads lanes (n + 1) lane rest) (hi : i < lanes) :
    (rest i = [] ∧ (lane i).a = absent) ∨ ∃ x r, rest i = x :: r ∧ (lane i).a = x := by
  have hheads := h i hi
  rw [Lane.slots, List.take_succ_cons] at hheads
  cases hr : rest i with
  | nil =>
    rw [hr, List.nil_append, List.take_succ_cons] at hheads
    exact .inl ⟨rfl, (List.cons.inj hheads).1⟩
  | cons x r =>
    rw [hr, List.cons_append, List.take_succ_cons] at hheads
    exact .inr ⟨x, r, rfl, (List.cons.inj hheads).1⟩

/-- The lane of the slot taken moves up, and no other lane has a slot of its index. -/
theorem Heads.move {x : Slot} {r : List Slot} (h : Heads lanes (n + 1) lane rest) (hs : Sorted lanes rest) (hn : n ≤ 2)
    (hi : i < lanes) (hr : rest i = x :: r) (ha : (lane i).a = x) :
    Heads lanes n (fun j => if (lane j).a.index = (lane i).a.index then
      { lane j with a := (lane j).b, b := (lane j).c, c := absent } else lane j) (update rest i r) := by
  obtain ⟨hx, hxi⟩ := hs.index i hi x (by simp [hr])
  intro j hj
  have hheads := h j hj
  dsimp only
  by_cases hji : j = i
  · subst hji
    rw [if_pos rfl, update_self]
    rw [hr, Lane.slots, List.take_succ_cons, List.cons_append, List.take_succ_cons] at hheads
    have htwo : ([(lane j).b, (lane j).c, absent] : List Slot).take n = [(lane j).b, (lane j).c].take n := by
      obtain rfl | rfl | rfl : n = 0 ∨ n = 1 ∨ n = 2 := by omega
      all_goals rfl
    exact htwo.trans (List.cons.inj hheads).2
  · have hother : ¬(lane j).a.index = (lane i).a.index := by
      rw [ha]
      rcases h.first hj with ⟨-, hj'⟩ | ⟨y, r', hr', hy⟩
      · rw [hj']
        intro h64
        have : absent.index = 64 := rfl
        omega
      · rw [hy]
        intro heq
        have := (hs.index j hj y (by simp [hr'])).2
        rw [heq, hxi] at this
        exact hji this.symm
    rw [if_neg hother, update_of_ne hji]
    have htake := congrArg (List.take n) hheads
    rw [List.take_take, List.take_take, Nat.min_eq_left (Nat.le_succ n)] at htake
    exact htake

theorem takeSlot_spec (hl : 0 < lanes) (h : Heads lanes (n + 1) lane rest) (hs : Sorted lanes rest) (hn : n ≤ 2)
    (hsome : ∃ i < lanes, rest i ≠ []) : ∃ i < lanes, ∃ x r, rest i = x :: r ∧ (takeSlot lanes lane).1 = x ∧
      (∀ j < lanes, ∀ e ∈ rest j, key x ≤ key e) ∧ Heads lanes n (takeSlot lanes lane).2 (update rest i r) := by
  have hsmall : ∀ i < lanes, Small (lane i).a.dist := by
    intro i hi
    rcases h.first hi with ⟨-, ha⟩ | ⟨x, r, hr, ha⟩
    · rw [ha]
      exact small_kInf
    · rw [ha]
      exact (hs.below i hi x (by simp [hr])).le
  obtain ⟨hb, hle, hmem⟩ := Least.reduceMin (K := fun i j => j = i) hl
    fun i hi => @Least.single (fun i => (lane i).a.dist) i (hsmall i hi)
  unfold takeSlot
  dsimp only
  generalize reduceMin lanes (fun i => (lane i).a.dist) = best at hb hle hmem
  have hleast : ∀ i < lanes, best.toNat ≤ (lane i).a.dist.toNat := fun i hi => hle i ⟨i, hi, rfl⟩
  obtain ⟨i₁, hi₁, hne⟩ := hsome
  have hbest : best.toNat < kInf.toNat := by
    rcases h.first hi₁ with ⟨hnil, -⟩ | ⟨x, r, hr, ha⟩
    · exact absurd hnil hne
    · have hx := hs.below i₁ hi₁ x (by simp [hr])
      have := hleast i₁ hi₁
      rw [ha] at this
      omega
  have hreal : ∀ j < lanes, (lane j).a.dist = best → ∃ x r, rest j = x :: r ∧ (lane j).a = x := by
    intro j hj hjb
    refine (h.first hj).resolve_left fun ⟨_, ha⟩ => ?_
    rw [ha] at hjb
    rw [← hjb] at hbest
    exact Nat.lt_irrefl _ hbest
  obtain ⟨i₂, ⟨_, hi₂, rfl⟩, hi₂b⟩ := hmem.resolve_left (by rintro rfl; exact Nat.lt_irrefl _ hbest)
  have htied : ∀ i < lanes, feq (lane i).a.dist best = true ↔ (lane i).a.dist = best := fun i hi => (hsmall i hi).feq_iff hb
  -- the lane of the least index among those with the least distance
  obtain ⟨i, hi, heq, hmin⟩ := @foldl_min (fun i => if feq (lane i).a.dist best then (lane i).a.index else 64) (lanes - 1)
  rw [Nat.sub_add_cancel hl] at hi hmin
  rw [heq]
  have hib : (lane i).a.dist = best := by
    by_contra hib
    obtain ⟨x, r, hr, ha⟩ := hreal i₂ hi₂ hi₂b
    have hx := (hs.index i₂ hi₂ x (by simp [hr])).1
    have := hmin i₂ hi₂
    rw [if_neg (mt (htied i hi).mp hib), if_pos ((htied i₂ hi₂).mpr hi₂b), ha] at this
    omega
  rw [if_pos ((htied i hi).mpr hib)] at hmin ⊢
  obtain ⟨x, r, hr, ha⟩ := hreal i hi hib
  refine ⟨i, hi, x, r, hr, by rw [← ha, ← hib], ?_, h.move hs hn hi hr ha⟩
  intro j hj e he
  obtain ⟨y, r', hr', hy⟩ := (h.first hj).resolve_left fun ⟨hnil, _⟩ => by simp [hnil] at he
  have hye : key y ≤ key e := by
    have hsorted := hs.sorted j hj
    rw [hr'] at he hsorted
    rcases List.mem_cons.mp he with rfl | he
    · exact le_rfl
    · exact (List.pairwise_cons.mp hsorted).1 e he
  refine le_trans ?_ hye
  unfold key
  rw [Prod.Lex.toLex_le_toLex, ← ha, hib, ← hy]
  by_cases hjb : (lane j).a.dist = best
  · have := hmin j hj
    rw [if_pos ((htied j hj).mpr hjb)] at this
    exact .inr ⟨by rw [hjb], this⟩
  · refine .inl (lt_of_le_of_ne (hleast j hj) fun heq' => hjb ?_)
    exact (BitVec.toNat_inj.mp heq').symm

/-- All that the lanes hold. -/
def held (lanes : Nat) (rest : Nat → List Slot) : List Slot := (List.range lanes).flatMap rest

theorem held_move {x : Slot} {r : List Slot} (hi : i < lanes) (hr : rest i = x :: r) :
    (held lanes rest).Perm (x :: held lanes (update rest i r)) := by
  have hsplit : List.range lanes = List.range i ++ i :: List.range' (i + 1) (lanes - (i + 1)) := by
    have hadd : List.range (i + (lanes - (i + 1) + 1)) = List.range i ++ List.range' i (lanes - (i + 1) + 1) := by
      rw [List.range_add, List.range'_eq_map_range]
    rw [show i + (lanes - (i + 1) + 1) = lanes by omega] at hadd
    rw [hadd, List.range'_succ]
  have hother : ∀ l : List Nat, i ∉ l → l.flatMap (update rest i r) = l.flatMap rest := by
    intro l hl
    refine List.flatMap_congr fun j hj => update_of_ne ?_ _ _
    rintro rfl
    exact hl hj
  unfold held
  rw [hsplit, List.flatMap_append, List.flatMap_append, List.flatMap_cons, List.flatMap_cons, update_self, hr,
    hother _ (by simp), hother _ (by simp), List.cons_append]
  exact List.perm_middle

theorem Sorted.move {x : Slot} {r : List Slot} (h : Sorted lanes rest) (hr : rest i = x :: r) :
    Sorted lanes (update rest i r) := by
  have hsub : ∀ j, (update rest i r j).Sublist (rest j) := by
    intro j
    by_cases hji : j = i
    · rw [hji, update_self, hr]
      exact List.sublist_cons_self x r
    · rw [update_of_ne hji]
  exact ⟨fun j hj => (h.sorted j hj).sublist (hsub j), fun j hj e he => h.below j hj e ((hsub j).subset he),
    fun j hj e he => h.index j hj e ((hsub j).subset he)⟩

/-- One slot taken is the least of all that are held. -/
theorem takeSlot_held (hl : 0 < lanes) (h : Heads lanes (n + 1) lane rest) (hs : Sorted lanes rest) (hn : n ≤ 2)
    (hreal : Real (held lanes rest)) (hsome : held lanes rest ≠ []) : ∃ rest',
      sortBy key (held lanes rest) = (takeSlot lanes lane).1 :: sortBy key (held lanes rest') ∧
      (held lanes rest).length = (held lanes rest').length + 1 ∧ Real (held lanes rest') ∧
      Heads lanes n (takeSlot lanes lane).2 rest' ∧ Sorted lanes rest' := by
  have hlane : ∃ i < lanes, rest i ≠ [] := by
    by_contra hnone
    push Not at hnone
    exact hsome (List.flatMap_eq_nil_iff.mpr fun i hi => hnone i (List.mem_range.mp hi))
  obtain ⟨i, hi, x, r, hr, hx, hleast, hheads⟩ := takeSlot_spec hl h hs hn hlane
  have hperm := held_move hi hr
  have hreal' := hreal.perm hperm.symm
  refine ⟨update rest i r, ?_, hperm.length_eq, ?_, hheads, hs.move hr⟩
  · rw [hx, sortBy_eq_of_perm hreal'.nodup hperm, sortBy_cons_least]
    intro e he
    obtain ⟨j, hj, he⟩ := List.mem_flatMap.mp (hperm.mem_iff.mpr (List.mem_cons_of_mem _ he))
    exact hleast j (List.mem_range.mp hj) e he
  · exact ⟨fun e he => hreal'.below e (List.mem_cons_of_mem _ he), (List.nodup_cons.mp hreal'.nodup).2⟩

/-- Three slots taken are the three least. -/
theorem takeSlot_three (hl : 0 < lanes) (h : Heads lanes 3 lane rest) (hs : Sorted lanes rest)
    (hreal : Real (held lanes rest)) (hlen : 3 ≤ (held lanes rest).length) :
    [(takeSlot lanes lane).1, (takeSlot lanes (takeSlot lanes lane).2).1,
      (takeSlot lanes (takeSlot lanes (takeSlot lanes lane).2).2).1] = (sortBy key (held lanes rest)).take 3 := by
  obtain ⟨rest₁, hsort₁, hlen₁, hreal₁, h₁, hs₁⟩ := takeSlot_held hl h hs (by omega) hreal (List.ne_nil_of_length_pos (by omega))
  obtain ⟨rest₂, hsort₂, hlen₂, hreal₂, h₂, hs₂⟩ :=
    takeSlot_held hl h₁ hs₁ (by omega) hreal₁ (List.ne_nil_of_length_pos (by omega))
  obtain ⟨rest₃, hsort₃, -⟩ := takeSlot_held hl h₂ hs₂ (by omega) hreal₂ (List.ne_nil_of_length_pos (by omega))
  rw [hsort₁, hsort₂, hsort₃]
  rfl

end Take

/-! ## The whole selection -/

theorem lanes_run (T : Nat) (i : Nat) : (List.range T).foldl (fun (lane : Nat → Lane) t i =>
    (lane i).take self (dist (t * lanes + i)) (t * lanes + i)) (fun _ => ⟨absent, absent, absent, true⟩) i =
    laneRun dist lanes self i T := by
  unfold laneRun
  induction List.range T using List.reverseRecOn with
  | nil => rfl
  | append_singleton ts t ih => rw [List.foldl_append, List.foldl_append, List.foldl_cons, List.foldl_nil, ih]; rfl

theorem mem_entries_self (hbelow : ∀ j < 64, (dist j).toNat < kInf.toNat) {e : Slot} :
    e ∈ entries 64 (update dist self kInf) ↔ e.index < 64 ∧ e.index ≠ self ∧ e.dist = dist e.index := by
  rw [mem_entries]
  by_cases hs : e.index = self
  · rw [hs, update_self]
    constructor
    · rintro ⟨-, hd, hlt⟩
      rw [hd] at hlt
      exact absurd hlt (Nat.lt_irrefl _)
    · exact fun h => absurd rfl h.2.1
  · rw [update_of_ne hs]
    constructor
    · exact fun ⟨h, hd, _⟩ => ⟨h, hs, hd⟩
    · exact fun ⟨h, _, hd⟩ => ⟨h, hd, hd ▸ hbelow _ h⟩

/-- The lanes have seen all rows but the row itself. -/
theorem held_perm (hl : 0 < lanes) (hT : T * lanes = 64) (hbelow : ∀ j < 64, (dist j).toNat < kInf.toNat) :
    (held lanes fun i => sortBy key (laneEntries dist lanes self i T)).Perm (entries 64 (update dist self kInf)) := by
  have hmem : ∀ e, e ∈ held lanes (fun i => sortBy key (laneEntries dist lanes self i T)) ↔
      e ∈ entries 64 (update dist self kInf) := by
    intro e
    simp only [held, List.mem_flatMap, List.mem_range, (sortBy_perm key _).mem_iff, mem_laneEntries, mem_entries_self hbelow]
    have hblock := block_iff (T := T) (j := e.index) hl
    rw [hT] at hblock
    constructor
    · rintro ⟨i, hi, ⟨t, ht, hidx⟩, hs, hd⟩
      exact ⟨hblock.mpr ⟨t, ht, i, hi, hidx⟩, hs, hd⟩
    · rintro ⟨hidx, hs, hd⟩
      obtain ⟨t, ht, i, hi, heq⟩ := hblock.mp hidx
      exact ⟨i, hi, ⟨t, ht, heq⟩, hs, hd⟩
  have hplace : ∀ i < lanes, ∀ t < T, t * lanes + i < 64 := fun i hi t ht => hT ▸ (block_iff hl).mpr ⟨t, ht, i, hi, rfl⟩
  refine (List.perm_ext_iff_of_nodup ?_ ?_).mpr hmem
  · refine Loops.nodup_flatMap_key (fun e : Slot => e.index % lanes) List.nodup_range (fun i hi => ?_) fun i hi e he => ?_
    · have hi' := List.mem_range.mp hi
      have hreal : Real (laneEntries dist lanes self i T) :=
        laneEntries_real hl fun t ht => hbelow _ (hplace i hi' t ht)
      exact (sortBy_perm key _).nodup_iff.mpr hreal.nodup.of_map
    · obtain ⟨⟨t, -, hidx⟩, -⟩ := mem_laneEntries.mp ((sortBy_perm key _).mem_iff.mp he)
      rw [hidx, Nat.mul_add_mod_of_lt (List.mem_range.mp hi)]
  · exact entries_real.nodup.of_map

/-- At least 63 rows are left. -/
theorem entries_self_length (hbelow : ∀ j < 64, (dist j).toNat < kInf.toNat) :
    63 ≤ (entries 64 (update dist self kInf)).length := by
  have hfilter : ((List.range 64).filter fun s => (update dist self kInf s).toNat < kInf.toNat) = (List.range 64).erase self := by
    rw [List.nodup_range.erase_eq_filter]
    refine List.filter_congr fun s hs => ?_
    by_cases heq : s = self
    · subst heq
      simp
    · simp [heq, hbelow s (List.mem_range.mp hs)]
  unfold entries
  rw [hfilter, List.length_map]
  have hle : (List.range 64).length - 1 ≤ ((List.range 64).erase self).length := List.le_length_erase
  rw [List.length_range] at hle
  exact hle

theorem selectTopThree64_eq {three : List Slot} (hl : 0 < lanes) (hT : (64 + lanes - 1) / lanes * lanes = 64)
    (h : selectTopThree64 lanes dist self = some three) :
    three = (sortBy key (entries 64 (update dist self kInf))).take 3 := by
  unfold selectTopThree64 at h
  dsimp only at h
  have hruns : (List.range ((64 + lanes - 1) / lanes)).foldl (fun (lane : Nat → Lane) t i =>
      (lane i).take self (dist (t * lanes + i)) (t * lanes + i)) (fun _ => ⟨absent, absent, absent, true⟩) =
      fun i => laneRun dist lanes self i ((64 + lanes - 1) / lanes) := funext fun i => lanes_run _ i
  rw [hruns] at h
  generalize (64 + lanes - 1) / lanes = T at h hT
  split at h
  · simp at h
  rename_i hall
  have hbounded : ∀ i < lanes, ∀ t < T, (dist (t * lanes + i)).toNat < kInf.toNat := by
    intro i hi
    rw [Bool.not_eq_true', Bool.not_eq_false, List.all_eq_true] at hall
    exact laneRun_bounded.mp (hall i (List.mem_range.mpr hi))
  have hbelow : ∀ j < 64, (dist j).toNat < kInf.toNat := by
    intro j hj
    rw [← hT] at hj
    obtain ⟨t, ht, i, hi, rfl⟩ := (block_iff hl).mp hj
    exact hbounded i hi t ht
  have hperm : (held lanes fun i => sortBy key (laneEntries dist lanes self i T)).Perm (entries 64 (update dist self kInf)) :=
    held_perm hl hT hbelow
  have hreal : Real (held lanes fun i => sortBy key (laneEntries dist lanes self i T)) := entries_real.perm hperm
  have hlen : 63 ≤ (entries 64 (update dist self kInf)).length := entries_self_length hbelow
  rw [← hperm.length_eq] at hlen
  have hheads : Heads lanes 3 (fun i => laneRun dist lanes self i T) fun i => sortBy key (laneEntries dist lanes self i T) := by
    intro i hi
    rw [laneRun_slots hl (hbounded i hi), padded, List.take_take]
    rfl
  have hsorted : Sorted lanes fun i => sortBy key (laneEntries dist lanes self i T) := by
    refine ⟨fun i _ => sortBy_le key _, fun i hi e he => ?_, fun i hi e he => ?_⟩
    · exact (laneEntries_real hl (hbounded i hi)).below e ((sortBy_perm key _).mem_iff.mp he)
    · obtain ⟨⟨t, ht, hidx⟩, -⟩ := mem_laneEntries.mp ((sortBy_perm key _).mem_iff.mp he)
      have hlt := (block_iff hl).mpr ⟨t, ht, i, hi, hidx⟩
      rw [hT] at hlt
      exact ⟨hlt, by rw [hidx, Nat.mul_add_mod_of_lt hi]⟩
  have hthree := takeSlot_three hl hheads hsorted hreal (by omega)
  rw [← Option.some.inj h, hthree, sortBy_eq_of_perm entries_real.nodup hperm]

end NssFactory.Cpu.Pixel

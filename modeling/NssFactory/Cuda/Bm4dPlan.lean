import NssFactory.Cuda.Bm4dStores

/-!
# The stores that the memory plan of CUDA BM4D counts

* `stores_bounded`: in every run at most `kCacheLimit + kPrefetchers + kComputers` stores are
  alive, and at most `kOutputs` requests fill their frame.
* `stores_within_plan`: they are no more than the chunks of the clip either, in every run that
  never computes a chunk again while a request holds a store of it that the cache dropped.
-/

namespace NssFactory.Cuda.Bm4d

/-! ## The stores outside the cache -/

/-- The store that a thread holds outside the cache, or is about to allocate. -/
def Thread.outside (stores : List Nat) (t : Thread) : Bool :=
  t.allocates || t.own.any fun st => st ∉ stores

/-- A thread in the loop of `finish_chunk` whose chunk the cache has dropped already. -/
def Thread.lost (stores : List Nat) (t : Thread) : Bool :=
  t.evicts && t.own.any fun st => st ∉ stores

/-- The stores in the cache, in `spare` and outside of both. -/
def State.size (s : State) : Nat :=
  s.cache.length + s.spare.length + s.threads.countP (Thread.outside s.stores)

/-- The cache is over its limit only by the chunks of threads that are in the loop of
`finish_chunk`. -/
def Room (s : State) : Prop :=
  s.cache.length + s.threads.countP (Thread.lost s.stores) ≤ kCacheLimit + s.threads.countP Thread.evicts

section Counts

variable {s s' : State} {i : Nat} {t t' : Thread} {v : Entry} {st numFrames : Nat} {A B : List Nat} {k : Option Nat}

theorem any_mono (hsub : ∀ st ∈ A, st ∈ B) {o : Option Nat} (h : (o.any fun st => st ∉ B) = true) :
    (o.any fun st => st ∉ A) = true := by
  cases o with
  | none => cases h
  | some st =>
    simp only [Option.any_some, decide_eq_true_eq] at h ⊢
    exact fun hmem => h (hsub st hmem)

theorem outside_mono (hsub : ∀ st ∈ A, st ∈ B) (h : t.outside B = true) : t.outside A = true := by
  rw [Thread.outside, Bool.or_eq_true] at h ⊢
  exact h.imp_right (any_mono hsub)

theorem lost_mono (hsub : ∀ st ∈ A, st ∈ B) (h : t.lost B = true) : t.lost A = true := by
  rw [Thread.lost, Bool.and_eq_true] at h ⊢
  exact ⟨h.1, any_mono hsub h.2⟩

theorem any_less (hown : ∀ st, t'.own = some st → t.own = some st) (h : (t'.own.any fun st => st ∉ A) = true) :
    (t.own.any fun st => st ∉ A) = true := by
  cases ho : t'.own with
  | none =>
    rw [ho] at h
    cases h
  | some st =>
    rw [ho] at h
    rw [hown st ho]
    exact h

/-- A step after which thread `i` counts only if it did. -/
theorem countP_set_le {l : List Thread} {p : Thread → Bool} (ht : l[i]? = some t) (hp : p t' = true → p t = true) :
    (l.set i t').countP p ≤ l.countP p := by
  have hcount := Calls.countP_set (y := t') (p := p) ht
  split at hcount <;> split at hcount
  · omega
  · omega
  · rename_i hno hyes
    exact absurd (hp hyes) hno
  · omega

theorem evict_threads : (s.evict v).threads = s.threads := rfl

theorem evict_length (hv : s.victim = some v) : (s.evict v).cache.length < s.cache.length :=
  List.length_filter_lt_length_iff_exists.mpr ⟨v, (victim_mem hv).1, by simp⟩

/-- A store outside the cache after an eviction was outside before, or is the victim's. -/
theorem any_evict {o : Option Nat} (h : (o.any fun st => st ∉ (s.evict v).stores) = true) :
    (o.any fun st => st ∉ s.stores) = true ∨ o = some v.store := by
  cases o with
  | none => cases h
  | some st =>
    simp only [Option.any_some, decide_eq_true_eq, mem_evict_stores, not_and, not_not] at h ⊢
    by_cases hmem : st ∈ s.stores
    · exact .inr (congrArg some (h hmem))
    · exact .inl hmem

theorem countP_or_le (l : List Thread) (p q r : Thread → Bool) (h : ∀ t ∈ l, p t = true → q t = true ∨ r t = true) :
    l.countP p ≤ l.countP q + l.countP r := by
  induction l with
  | nil => simp
  | cons t l ih =>
    have hrest := ih fun u hu => h u (List.mem_cons_of_mem t hu)
    have ht := h t List.mem_cons_self
    simp only [List.countP_cons]
    cases hp : p t <;> cases hq : q t <;> cases hr : r t <;> simp_all <;> omega

theorem countP_lt {l : List Thread} {p q : Thread → Bool} (ht : t ∈ l) (hpq : ∀ u ∈ l, p u = true → q u = true)
    (hp : p t = false) (hq : q t = true) : l.countP p < l.countP q := by
  have hsame : l.countP p = (l.filter q).countP p := by
    rw [List.countP_filter]
    refine List.countP_congr fun u hu => ?_
    rw [Bool.and_eq_true]
    exact ⟨fun hpu => ⟨hpu, hpq u hu hpu⟩, fun hpu => hpu.1⟩
  rw [hsame, List.countP_eq_length_filter (p := q)]
  exact List.countP_lt_length_iff.mpr ⟨t, List.mem_filter.mpr ⟨ht, hq⟩, hp⟩

theorem evict_outside (h : Owned s) : s.threads.countP (Thread.outside (s.evict v).stores) ≤
    s.threads.countP (Thread.outside s.stores) + 1 := by
  refine Nat.le_trans (countP_or_le _ _ _ (fun t => t.own = some v.store) fun t _ hout => ?_)
    (Nat.add_le_add_left (h.alone.countP_le_one v.store) _)
  rw [Thread.outside, Bool.or_eq_true] at hout ⊢
  rcases hout with halloc | hany
  · exact .inl (.inl halloc)
  · exact (any_evict hany).imp .inr decide_eq_true

theorem Room.evict (hroom : Room s) (h : Owned s) (hv : s.victim = some v) : Room (s.evict v) := by
  have hlen := evict_length hv
  have hlost : s.threads.countP (Thread.lost (s.evict v).stores) ≤ s.threads.countP (Thread.lost s.stores) + 1 := by
    refine Nat.le_trans (countP_or_le _ _ _ (fun t => t.own = some v.store) fun t _ hl => ?_)
      (Nat.add_le_add_left (h.alone.countP_le_one v.store) _)
    rw [Thread.lost, Bool.and_eq_true] at hl ⊢
    exact (any_evict hl.2).imp (fun hany => ⟨hl.1, hany⟩) decide_eq_true
  unfold Room at hroom ⊢
  simp only [evict_threads]
  omega

/-- An eviction leaves the victim's store to the thread that holds it, or to `spare`. -/
theorem size_evict (h : Owned s) (hv : s.victim = some v) : (s.evict v).size ≤ s.size := by
  have hlen := evict_length hv
  by_cases hheld : (s.threads.any fun t => t.holds = some v.store) = true
  · have hspare : (s.evict v).spare = s.spare := if_pos hheld
    have hout := evict_outside (v := v) h
    simp only [State.size, evict_threads, hspare]
    omega
  · have hspare : (s.evict v).spare = v.store :: s.spare := if_neg hheld
    have hout : s.threads.countP (Thread.outside (s.evict v).stores) ≤
        s.threads.countP (Thread.outside s.stores) := by
      refine List.countP_mono_left fun t ht hout => ?_
      rw [Thread.outside, Bool.or_eq_true] at hout ⊢
      refine hout.imp_right fun hany => (any_evict hany).resolve_right fun hown => ?_
      exact hheld (List.any_eq_true.mpr ⟨t, ht, by simp [holds_of_own hown]⟩)
    simp only [State.size, evict_threads, hspare, List.length_cons]
    omega

/-- What holds of the loop of `finish_chunk` when every eviction keeps it. -/
theorem trimLoop_induct {P : State → Prop} (hP : P s) (h : Owned s)
    (keeps : ∀ s v, Owned s → s.victim = some v → P s → P (s.evict v)) (fuel : Nat) : P (s.trimLoop fuel) := by
  induction fuel generalizing s with
  | zero => exact hP
  | succ fuel ih =>
    rw [State.trimLoop]
    split
    · exact hP
    · cases hv : s.victim with
      | none => exact hP
      | some v => exact ih (keeps s v h hv hP) (h.evict hv)

theorem Room.trim (hroom : Room s) (h : Owned s) : Room s.trim :=
  trimLoop_induct hroom h (fun _ _ ho hv hr => hr.evict ho hv) _

theorem size_trim (h : Owned s) : s.trim.size ≤ s.size :=
  trimLoop_induct (P := fun s' => s'.size ≤ s.size) (Nat.le_refl _) h
    (fun _ _ ho hv hle => Nat.le_trans (size_evict ho hv) hle) _

theorem lost_less (hless : Less t' t) (hevicts : t'.evicts = t.evicts) (h : t'.lost A = true) : t.lost A = true := by
  rw [Thread.lost, Bool.and_eq_true] at h ⊢
  exact ⟨hevicts ▸ h.1, any_less hless.own h.2⟩

theorem outside_of (hown : ∀ st, t'.own = some st → t.own = some st)
    (halloc : t'.allocates = true → t.allocates = true) (h : t'.outside A = true) : t.outside A = true := by
  rw [Thread.outside, Bool.or_eq_true] at h ⊢
  exact h.imp halloc (any_less hown)

theorem outside_less (hless : Less t' t) (h : t'.outside A = true) : t.outside A = true :=
  outside_of hless.own hless.allocates h

theorem Room.set (h : Room s) (ht : s.threads[i]? = some t) (hlost : t'.lost s.stores = true → t.lost s.stores = true)
    (hevicts : t'.evicts = t.evicts) (c : Finset Nat) (spare : List Nat) (fresh p : Nat) :
    Room ⟨s.cache, c, spare, fresh, p, s.threads.set i t'⟩ := by
  have hle := countP_set_le (p := Thread.lost s.stores) ht hlost
  have hsame := Calls.countP_set_same (p := Thread.evicts) ht hevicts
  unfold Room at h ⊢
  simp only [State.stores, hsame] at h hle ⊢
  omega

theorem Room.join (h : Room s) (ht : Blank t) : Room (s.join t) := by
  unfold Room at h ⊢
  simp only [State.join, State.stores, List.countP_append, List.countP_singleton, Thread.lost, ht.evicts,
    Bool.false_and, Bool.false_eq_true, if_false, Nat.add_zero] at h ⊢
  exact h

theorem Room.publish (h : Room s) (ht : s.threads[i]? = some t) (hst : t.stage = .filling st) {o : Option Nat}
    (ho : ∀ st', o = some st' → st' = st) : Room ((s.publish t.first st).setStage i t (.evicting o)) := by
  have hlost : (⟨t.role, t.first, .evicting o⟩ : Thread).lost (st :: s.stores) = false := by
    cases o with
    | none => rfl
    | some st' => simp [Thread.lost, Thread.own, ho st' rfl]
  have hle : (s.threads.set i ⟨t.role, t.first, .evicting o⟩).countP (Thread.lost (st :: s.stores)) ≤
      s.threads.countP (Thread.lost s.stores) :=
    Nat.le_trans (countP_set_le ht (by simp [hlost]))
      (List.countP_mono_left fun u _ => lost_mono fun _ => List.mem_cons_of_mem st)
  have hone := Calls.countP_set (y := ⟨t.role, t.first, .evicting o⟩) (p := Thread.evicts) ht
  have hevicts : t.evicts = false := by simp [Thread.evicts, hst]
  have hevicts' : (⟨t.role, t.first, .evicting o⟩ : Thread).evicts = true := rfl
  rw [hevicts, hevicts'] at hone
  simp only [Bool.false_eq_true, if_false, if_true, Nat.add_zero] at hone
  unfold Room at h ⊢
  simp only [State.setStage, State.publish, State.unclaim, State.stores, List.map_cons, List.length_cons] at h hle ⊢
  rw [hone]
  omega

/-- A thread leaves the loop when the cache is within its limit. -/
theorem Room.exit (hfits : s.cache.length ≤ kCacheLimit) : Room s := by
  have hmono : s.threads.countP (Thread.lost s.stores) ≤ s.threads.countP Thread.evicts :=
    List.countP_mono_left fun t _ hl => (Bool.and_eq_true _ _ ▸ hl : _ ∧ _).1
  unfold Room
  omega

theorem hit_threads {e : Entry} : (s.hit e).threads = s.threads := rfl

theorem Room.turn (hroom : Room s) (h : Owned s) (hturn : Turn numFrames s k s') : Room s' := by
  cases hturn with
  | keep ht hless hevicts => exact hroom.set ht (lost_less hless hevicts) hevicts _ _ _ _
  | claim ht hless hevicts => exact hroom.set ht (lost_less hless hevicts) hevicts _ _ _ _
  | unclaim ht hless hevicts => exact hroom.set ht (lost_less hless hevicts) hevicts _ _ _ _
  | join hblank => exact hroom.join hblank
  | spawn ht hless hevicts _ _ _ _ hblank =>
    exact (hroom.set ht (lost_less hless hevicts) hevicts _ _ _ _).join hblank
  | take ht hst hspare =>
    exact hroom.set ht (by simp [Thread.lost, Thread.evicts]) (by simp [Thread.evicts, hst]) _ _ _ _
  | ask ht hst => exact hroom.set ht (by simp [Thread.lost, Thread.evicts]) (by simp [Thread.evicts, hst]) _ _ _ _
  | allocate ht hst => exact hroom.set ht (by simp [Thread.lost, Thread.evicts]) (by simp [Thread.evicts, hst]) _ _ _ _
  | publish ht hst ho => exact hroom.publish ht hst ho
  | @abort i t ht hst =>
    have hone := Calls.countP_set (y := ⟨t.role, t.first, .evicting none⟩) (p := Thread.evicts) ht
    have hlost : (⟨t.role, t.first, .evicting none⟩ : Thread).lost s.stores = true → t.lost s.stores = true := by
      simp [Thread.lost, Thread.own]
    have hle := countP_set_le ht hlost
    have hevicts : t.evicts = false := by simp [Thread.evicts, hst]
    have hevicts' : (⟨t.role, t.first, .evicting none⟩ : Thread).evicts = true := rfl
    rw [hevicts, hevicts'] at hone
    simp only [Bool.false_eq_true, if_false, if_true, Nat.add_zero] at hone
    unfold Room at hroom ⊢
    simp only [State.setStage, State.unclaim, State.stores] at hroom hle ⊢
    rw [hone]
    omega
  | trim ht hless _ _ hevicts =>
    rw [← trimLoop_threads] at ht
    rcases hevicts with hevicts | hfits
    · exact (hroom.trim h).set ht (lost_less hless hevicts) hevicts _ _ _ _
    · exact .exit hfits
  | @hit i t e ht hst he =>
    have hevicts : (⟨t.role, t.first, .holding true e.store⟩ : Thread).evicts = t.evicts := by simp [Thread.evicts, hst]
    have hsame := Calls.countP_set_same (p := Thread.evicts) ht hevicts
    have hle : (s.threads.set i ⟨t.role, t.first, .holding true e.store⟩).countP (Thread.lost (s.hit e).stores) ≤
        s.threads.countP (Thread.lost s.stores) :=
      Nat.le_trans (countP_set_le ht (by simp [Thread.lost, Thread.evicts]))
        (List.countP_mono_left fun u _ => lost_mono fun st hmem => (mem_hit_stores he).mpr hmem)
    have hlen := hit_length h he
    unfold Room at hroom ⊢
    simp only [State.setStage, State.stores, hit_threads] at hroom hle ⊢
    omega
  | @unread i t st ht hst =>
    have hevicts : (⟨t.role, t.first, .ended⟩ : Thread).evicts = t.evicts := by simp [Thread.evicts, hst]
    have hroom' : Room (s.unread st) := by
      unfold Room at hroom ⊢
      rw [unread_stores]
      simpa [State.unread] using hroom
    exact hroom'.set ht (by simp [Thread.lost, Thread.evicts]) hevicts _ _ _ _

/-- A step of a thread that holds no more outside the cache than before. -/
theorem size_set (ht : s.threads[i]? = some t) (hout : t'.outside s.stores = true → t.outside s.stores = true)
    (c : Finset Nat) (fresh p : Nat) : (⟨s.cache, c, s.spare, fresh, p, s.threads.set i t'⟩ : State).size ≤ s.size := by
  have hle := countP_set_le (p := Thread.outside s.stores) ht hout
  simp only [State.size, State.stores] at hle ⊢
  omega

theorem size_join (ht : Blank t) : (s.join t).size = s.size := by
  simp [State.size, State.join, State.stores, Thread.outside, ht.own, ht.allocates]

theorem size_publish (h : Owned s) (ht : s.threads[i]? = some t) (hst : t.stage = .filling st) {o : Option Nat}
    (ho : ∀ st', o = some st' → st' = st) : ((s.publish t.first st).setStage i t (.evicting o)).size ≤ s.size := by
  have hnew := h.filled t (List.mem_of_getElem? ht) st (by simp [Thread.fill, hst])
  have hout : t.outside s.stores = true := by simp [Thread.outside, Thread.own, hst, hnew]
  have hin : (⟨t.role, t.first, .evicting o⟩ : Thread).outside (st :: s.stores) = false := by
    cases o with
    | none => rfl
    | some st' => simp [Thread.outside, Thread.allocates, Thread.own, ho st' rfl]
  have hle : (s.threads.set i ⟨t.role, t.first, .evicting o⟩).countP (Thread.outside (st :: s.stores)) <
      s.threads.countP (Thread.outside s.stores) := by
    refine Nat.lt_of_le_of_lt (countP_set_le ht (by simp [hin])) (countP_lt (List.mem_of_getElem? ht) ?_ ?_ hout)
    · exact fun u _ => outside_mono fun _ => List.mem_cons_of_mem st
    · simp [Thread.outside, Thread.allocates, Thread.own, hst]
  simp only [State.size, State.setStage, State.publish, State.unclaim, State.stores, List.map_cons,
    List.length_cons] at hle ⊢
  omega

/-- Only a thread that finds `spare` empty adds a store. -/
theorem size_turn (h : Owned s) (hturn : Turn numFrames s k s') : s'.size ≤ s.size ∨ s'.spare = [] := by
  cases hturn with
  | keep ht hless => exact .inl (size_set ht (outside_less hless) _ _ _)
  | claim ht hless => exact .inl (size_set ht (outside_less hless) _ _ _)
  | unclaim ht hless => exact .inl (size_set ht (outside_less hless) _ _ _)
  | join hblank => exact .inl (Nat.le_of_eq (size_join hblank))
  | spawn ht hless _ _ _ _ _ hblank =>
    exact .inl (Nat.le_trans (Nat.le_of_eq (size_join hblank)) (size_set ht (outside_less hless) _ _ _))
  | @take i t st rest ht hst hspare =>
    have hcount := Calls.countP_set (y := ⟨t.role, t.first, .filling st⟩) (p := Thread.outside s.stores) ht
    have hout : t.outside s.stores = false := by simp [Thread.outside, Thread.allocates, Thread.own, hst]
    rw [hout] at hcount
    simp only [Bool.false_eq_true, if_false, Nat.add_zero] at hcount
    have hle : (s.threads.set i ⟨t.role, t.first, .filling st⟩).countP (Thread.outside s.stores) ≤
        s.threads.countP (Thread.outside s.stores) + 1 := by
      rw [hcount]
      split <;> omega
    simp only [State.size, State.setStage, State.stores, hspare, List.length_cons] at hle ⊢
    exact .inl (by omega)
  | ask ht hst hspare => exact .inr hspare
  | allocate ht hst =>
    exact .inl (size_set ht (fun _ => by simp [Thread.outside, Thread.allocates, hst]) _ _ _)
  | publish ht hst ho => exact .inl (size_publish h ht hst ho)
  | abort ht hst =>
    exact .inl (size_set ht (by simp [Thread.outside, Thread.allocates, Thread.own]) _ _ _)
  | trim ht hless =>
    rw [← trimLoop_threads] at ht
    exact .inl (Nat.le_trans (size_set ht (outside_less hless) _ _ _) (size_trim h))
  | @hit i t e ht hst he =>
    have hle : (s.threads.set i ⟨t.role, t.first, .holding true e.store⟩).countP (Thread.outside (s.hit e).stores) ≤
        s.threads.countP (Thread.outside s.stores) :=
      Nat.le_trans (countP_set_le ht (by simp [Thread.outside, Thread.allocates, Thread.own]))
        (List.countP_mono_left fun u _ => outside_mono fun st hmem => (mem_hit_stores he).mpr hmem)
    have hlen := hit_length h he
    have hspare : (s.hit e).spare = s.spare := rfl
    simp only [State.size, State.setStage, State.stores, hit_threads, hspare] at hle ⊢
    exact .inl (by omega)
  | @unread i t st ht hst =>
    have hsize : (s.unread st).size = s.size := by
      rw [State.size, State.size, unread_stores]
      simp [State.unread]
    refine .inl (Nat.le_trans (size_set (s := s.unread st) ht ?_ _ _ _) (Nat.le_of_eq hsize))
    simp [Thread.outside, Thread.allocates, Thread.own]

/-- A store alive is in the cache, in `spare`, or with the thread that computed it. -/
theorem alive_le_size (h : Owned s) : s.alive ≤ s.size := by
  let out : Thread → Option Nat := fun t => t.own.filter fun st => st ∉ s.stores
  have hsub : (s.stores ++ s.spare ++ s.threads.filterMap Thread.holds).dedup ⊆
      s.stores ++ s.spare ++ s.threads.filterMap out := by
    intro st hst
    rw [List.mem_dedup, List.mem_append] at hst
    rw [List.mem_append]
    by_cases hin : st ∈ s.stores
    · exact .inl (List.mem_append_left _ hin)
    · refine hst.imp_right fun hmem => ?_
      obtain ⟨t, ht, hholds⟩ := List.mem_filterMap.mp hmem
      rcases own_or_reads hholds with hown | hread
      · exact List.mem_filterMap.mpr ⟨t, ht, by simp [out, hown, hin]⟩
      · exact absurd (h.read t ht st hread) hin
  have hcount : (s.threads.filterMap out).length ≤ s.threads.countP (Thread.outside s.stores) := by
    rw [List.length_filterMap_eq_countP]
    refine List.countP_mono_left fun t _ hout => ?_
    rw [Thread.outside, Bool.or_eq_true]
    refine .inr ?_
    cases ho : t.own with
    | none => simp [out, ho] at hout
    | some st => simpa [out, ho, Option.filter] using hout
  have hlen := (List.subperm_of_subset (List.nodup_dedup _) hsub).length_le
  simp only [List.length_append, State.stores, List.length_map] at hlen hcount
  unfold State.alive State.size
  simp only [State.stores]
  omega

end Counts

/-! ## The permits -/

/-- Who may hold a store, or fill an output frame. -/
structure Permits (threads : List Thread) (prefetching : Nat) : Prop where
  requests : ∀ t ∈ threads, t.early = true → t.role = .request
  computers : threads.countP Thread.computes ≤ kComputers
  outputs : threads.countP Thread.outputs ≤ kOutputs
  prefetchers : threads.countP Thread.prefetches ≤ prefetching
  reserved : prefetching ≤ kPrefetchers

section Permits

variable {s s' : State} {i : Nat} {t t' : Thread} {l : List Thread} {p : Nat} {ev : Event} {numFrames : Nat}

theorem countP_set_le_succ {q : Thread → Bool} (ht : l[i]? = some t) :
    (l.set i t').countP q ≤ l.countP q + 1 := by
  have hcount := Calls.countP_set (y := t') (p := q) ht
  split at hcount <;> split at hcount <;> omega

theorem requests_set (h : Permits l p) (ht : l[i]? = some t) (hrole : t'.role = t.role)
    (hearly : t'.early = true → t.early = true) : ∀ u ∈ l.set i t', u.early = true → u.role = .request :=
  Calls.forall_set (fun he => hrole.trans (h.requests t (List.mem_of_getElem? ht) (hearly he))) h.requests

theorem Permits.set (h : Permits l p) (ht : l[i]? = some t) (hrole : t'.role = t.role)
    (hearly : t'.early = true → t.early = true) (hcomp : t'.computes = true → t.computes = true)
    (hout : t'.outputs = true → t.outputs = true) (hpre : t'.prefetches = true → t.prefetches = true) :
    Permits (l.set i t') p :=
  ⟨requests_set h ht hrole hearly, Nat.le_trans (countP_set_le ht hcomp) h.computers,
    Nat.le_trans (countP_set_le ht hout) h.outputs, Nat.le_trans (countP_set_le ht hpre) h.prefetchers, h.reserved⟩

theorem Permits.join (h : Permits l p) (hrole : t.early = true → t.role = .request) (hcomp : t.computes = false)
    (hout : t.outputs = false) (hpre : t.prefetches = false) : Permits (l ++ [t]) p := by
  constructor
  · intro u hu
    rcases List.mem_append.mp hu with hu | hu
    · exact h.requests u hu
    · rw [List.mem_singleton.mp hu]
      exact hrole
  · simpa [List.countP_append, hcomp] using h.computers
  · simpa [List.countP_append, hout] using h.outputs
  · simpa [List.countP_append, hpre] using h.prefetchers
  · exact h.reserved

theorem trimLoop_prefetching (fuel : Nat) : (s.trimLoop fuel).prefetching = s.prefetching := by
  induction fuel generalizing s with
  | zero => rfl
  | succ fuel ih =>
    rw [State.trimLoop]
    split
    · rfl
    · cases s.victim with
      | none => rfl
      | some v => exact ih

theorem Permits.trim (h : Permits s.threads s.prefetching) : Permits s.trim.threads s.trim.prefetching := by
  rw [State.trim, trimLoop_threads, trimLoop_prefetching]
  exact h

/-- A request reserves a prefetch thread. -/
theorem Permits.reserve (h : Permits l p) (ht : l[i]? = some t) (hrole : t'.role = t.role)
    (hearly : t'.early = true → t.early = true) (hcomp : t'.computes = true → t.computes = true)
    (hout : t'.outputs = true → t.outputs = true) (hfree : p < kPrefetchers) : Permits (l.set i t') (p + 1) where
  requests := requests_set h ht hrole hearly
  computers := Nat.le_trans (countP_set_le ht hcomp) h.computers
  outputs := Nat.le_trans (countP_set_le ht hout) h.outputs
  prefetchers := Nat.le_trans (countP_set_le_succ ht) (Nat.succ_le_succ h.prefetchers)
  reserved := hfree

/-- A prefetch thread, or the reservation of one, is given back. -/
theorem Permits.giveBack (h : Permits l p) (ht : l[i]? = some t) (hrole : t'.role = t.role)
    (hearly : t'.early = true → t.early = true) (hcomp : t'.computes = true → t.computes = true)
    (hout : t'.outputs = true → t.outputs = true) (hpre : t.prefetches = true) (hpre' : t'.prefetches = false) :
    Permits (l.set i t') (p - 1) where
  requests := requests_set h ht hrole hearly
  computers := Nat.le_trans (countP_set_le ht hcomp) h.computers
  outputs := Nat.le_trans (countP_set_le ht hout) h.outputs
  prefetchers := by
    have hcount := Calls.countP_set (y := t') (p := Thread.prefetches) ht
    simp only [hpre, hpre', Bool.false_eq_true, if_false, if_true, Nat.add_zero] at hcount
    have := h.prefetchers
    omega
  reserved := Nat.le_trans (Nat.sub_le _ _) h.reserved

/-- A request hands its reservation to the prefetch thread it starts. -/
theorem Permits.spawn (h : Permits l p) (ht : l[i]? = some t) (hrole : t'.role = t.role)
    (hearly : t'.early = true → t.early = true) (hcomp : t'.computes = true → t.computes = true)
    (hout : t'.outputs = true → t.outputs = true) (hpre : t.prefetches = true) (hpre' : t'.prefetches = false)
    (first : Nat) : Permits (l.set i t' ++ [⟨.prefetch, first, .starting⟩]) p where
  requests u hu hu' := by
    rcases List.mem_append.mp hu with hu | hu
    · exact requests_set h ht hrole hearly u hu hu'
    · rw [List.mem_singleton.mp hu] at hu'
      cases hu'
  computers := by
    have := Nat.le_trans (countP_set_le ht hcomp) h.computers
    simpa [List.countP_append, Thread.computes] using this
  outputs := by
    have := Nat.le_trans (countP_set_le ht hout) h.outputs
    simpa [List.countP_append, Thread.outputs] using this
  prefetchers := by
    have hcount := Calls.countP_set (y := t') (p := Thread.prefetches) ht
    simp only [hpre, hpre', Bool.false_eq_true, if_false, if_true, Nat.add_zero] at hcount
    simp only [List.countP_append, List.countP_singleton, Thread.prefetches, if_true]
    exact hcount ▸ h.prefetchers
  reserved := h.reserved

/-- A request acquires a compute permit. -/
theorem Permits.compute (h : Permits l p) (ht : l[i]? = some t) (hrole : t'.role = t.role)
    (hearly : t'.early = true → t.early = true) (hfree : l.countP Thread.computes < kComputers)
    (hout : t'.outputs = true → t.outputs = true) (hpre : t'.prefetches = true → t.prefetches = true) :
    Permits (l.set i t') p where
  requests := requests_set h ht hrole hearly
  computers := Nat.le_trans (countP_set_le_succ ht) hfree
  outputs := Nat.le_trans (countP_set_le ht hout) h.outputs
  prefetchers := Nat.le_trans (countP_set_le ht hpre) h.prefetchers
  reserved := h.reserved

/-- A request acquires an output permit. -/
theorem Permits.output (h : Permits l p) (ht : l[i]? = some t) (hrole : t'.role = t.role)
    (hearly : t'.early = true → t.early = true) (hfree : l.countP Thread.outputs < kOutputs)
    (hcomp : t'.computes = true → t.computes = true) (hpre : t'.prefetches = true → t.prefetches = true) :
    Permits (l.set i t') p where
  requests := requests_set h ht hrole hearly
  computers := Nat.le_trans (countP_set_le ht hcomp) h.computers
  outputs := Nat.le_trans (countP_set_le_succ ht) hfree
  prefetchers := Nat.le_trans (countP_set_le ht hpre) h.prefetchers
  reserved := h.reserved

theorem Permits.go (h : Permits s.threads s.prefetching) (ht : s.threads[i]? = some t) (hgo : s.go i t = some s') :
    Permits s'.threads s'.prefetching := by
  obtain ⟨role, first, stage⟩ := t
  cases stage with
  | ahead =>
    simp only [State.go] at hgo
    split at hgo <;> rename_i hfree <;> cases hgo
    · exact h.reserve ht rfl (by simp [Thread.early]) (by simp [Thread.computes]) (by simp [Thread.outputs]) hfree
    · exact h.set ht rfl (by simp [Thread.early]) (by simp [Thread.computes]) (by simp [Thread.outputs])
        (by cases role <;> simp [Thread.prefetches])
  | reserved =>
    simp only [State.go] at hgo
    split at hgo <;> cases hgo <;>
      exact h.set ht rfl (by simp [Thread.early]) (by simp [Thread.computes]) (by simp [Thread.outputs])
        (by cases role <;> simp [Thread.prefetches])
  | gathering =>
    cases hgo
    have hrequest : role = .request := h.requests _ (List.mem_of_getElem? ht) rfl
    subst hrequest
    have hrole : (⟨.request, first, .lookup⟩ : Thread).role = Role.request := rfl
    exact h.spawn ht hrole (by simp [Thread.early]) (by simp [Thread.computes]) (by simp [Thread.outputs]) rfl rfl _
  | unstarted =>
    cases hgo
    rw [← trimLoop_threads] at ht
    split <;> exact h.trim.set ht rfl (by simp [Thread.early]) (by simp [Thread.computes]) (by simp [Thread.outputs])
      (by cases role <;> simp [Thread.prefetches])
  | returning =>
    cases hgo
    cases role
    · exact h.giveBack ht rfl (by simp [Thread.early]) (by simp [Thread.computes]) (by simp [Thread.outputs]) rfl rfl
    · exact h.giveBack ht rfl (by simp [Thread.early]) (by simp [Thread.computes]) (by simp [Thread.outputs]) rfl rfl
  | lookup =>
    simp only [State.go] at hgo
    split at hgo
    · cases hgo
      exact h.set ht rfl (by simp [Thread.early]) (by simp [Thread.computes]) (by simp [Thread.outputs])
        (by cases role <;> simp [Thread.prefetches])
    · split at hgo <;> cases hgo
      exact h.set ht rfl (by simp [Thread.early]) (by simp [Thread.computes]) (by simp [Thread.outputs])
        (by cases role <;> simp [Thread.prefetches])
  | claimed =>
    simp only [State.go] at hgo
    split at hgo <;> rename_i hfree <;> cases hgo
    exact h.compute ht rfl (by simp [Thread.early]) hfree (by simp [Thread.outputs])
      (by cases role <;> simp [Thread.prefetches])
  | starting =>
    simp only [State.go] at hgo
    split at hgo <;> cases hgo <;>
      exact h.set ht rfl (by simp [Thread.early]) (by cases role <;> simp [Thread.computes]) (by simp [Thread.outputs])
        (by cases role <;> simp [Thread.prefetches])
  | allocating | failing | filling =>
    cases hgo
    exact h.set ht rfl (by simp [Thread.early]) (by cases role <;> simp [Thread.computes]) (by simp [Thread.outputs])
      (by cases role <;> simp [Thread.prefetches])
  | evicting store =>
    cases hgo
    rw [← trimLoop_threads] at ht
    dsimp only
    split
    · cases role <;> cases store <;>
        exact h.trim.set ht rfl (by simp [Thread.early, State.afterFinish]) (by simp [Thread.computes])
          (by simp [Thread.outputs, State.afterFinish])
          (by simp [Thread.prefetches, State.afterFinish])
    · exact h.trim.set ht rfl (by simp [Thread.early]) (by cases role <;> simp [Thread.computes])
        (by simp [Thread.outputs])
        (by cases role <;> simp [Thread.prefetches])
  | holding hit store =>
    simp only [State.go] at hgo
    split at hgo <;> rename_i hfree <;> cases hgo
    exact h.output ht rfl (by simp [Thread.early]) hfree (by cases role <;> cases hit <;> simp [Thread.computes])
      (by cases role <;> simp [Thread.prefetches])
  | copying hit store =>
    cases hgo
    exact h.set ht rfl (by simp [Thread.early]) (by cases role <;> cases hit <;> simp [Thread.computes])
      (by simp [Thread.outputs])
      (by cases role <;> simp [Thread.prefetches])
  | copied hit store =>
    cases hgo
    exact h.set ht rfl (by simp [Thread.early]) (by cases role <;> cases hit <;> simp [Thread.computes])
      (by simp [Thread.outputs])
      (by cases role <;> simp [Thread.prefetches])
  | leaving entry =>
    cases entry <;> cases hgo <;>
      exact h.set ht rfl (by simp [Thread.early]) (by simp [Thread.computes]) (by simp [Thread.outputs])
        (by cases role <;> simp [Thread.prefetches])
  | ended => cases hgo

theorem Permits.fail (h : Permits s.threads s.prefetching) (ht : s.threads[i]? = some t)
    (hfail : s.fail i t = some s') :
    Permits s'.threads s'.prefetching := by
  obtain ⟨role, first, stage⟩ := t
  cases stage with
  | copying hit store =>
    cases hfail
    exact h.set ht rfl (by simp [Thread.early]) (by cases role <;> cases hit <;> simp [Thread.computes])
      (by simp [Thread.outputs]) (by cases role <;> simp [Thread.prefetches])
  | ahead | reserved | gathering | unstarted | lookup | starting | allocating | filling =>
    cases hfail
    exact h.set ht rfl (by simp [Thread.early]) (by cases role <;> simp [Thread.computes])
      (by simp [Thread.outputs]) (by cases role <;> simp [Thread.prefetches])
  | _ => cases hfail

theorem Permits.refuse (h : Permits s.threads s.prefetching) (ht : s.threads[i]? = some t)
    (hrefuse : s.refuse i t = some s') : Permits s'.threads s'.prefetching := by
  obtain ⟨role, first, stage⟩ := t
  cases stage with
  | gathering =>
    cases hrefuse
    exact h.set ht rfl (by simp [Thread.early]) (by simp [Thread.computes]) (by simp [Thread.outputs])
      (by cases role <;> simp [Thread.prefetches])
  | _ => cases hrefuse

theorem Permits.request {n : Nat} (h : Permits s.threads s.prefetching) (hreq : s.request numFrames n = some s') :
    Permits s'.threads s'.prefetching := by
  rw [State.request] at hreq
  split at hreq
  · split at hreq <;> cases hreq <;> exact h.join (fun _ => rfl) rfl rfl rfl
  · cases hreq

theorem Permits.step (h : Permits s.threads s.prefetching) (hstep : s.step numFrames ev = some s') :
    Permits s'.threads s'.prefetching := by
  cases ev with
  | request n => exact h.request hstep
  | go i =>
    obtain ⟨t, ht, hgo⟩ := Option.bind_eq_some_iff.mp hstep
    exact h.go ht hgo
  | fail i =>
    obtain ⟨t, ht, hfail⟩ := Option.bind_eq_some_iff.mp hstep
    exact h.fail ht hfail
  | refuse i =>
    obtain ⟨t, ht, hrefuse⟩ := Option.bind_eq_some_iff.mp hstep
    exact h.refuse ht hrefuse

/-- Whoever holds a store outside the cache, or is in the loop of `finish_chunk`, holds a permit
or counts in `prefetching`. -/
theorem computes_or_prefetches {A : List Nat} (h : t.outside A = true ∨ t.evicts = true) :
    t.computes = true ∨ t.prefetches = true := by
  obtain ⟨role, first, stage⟩ := t
  cases role
  · left
    cases stage with
    | holding hit store | copying hit store | copied hit store =>
      cases hit <;> simp_all [Thread.outside, Thread.own, Thread.allocates, Thread.evicts, Thread.computes]
    | _ => simp_all [Thread.outside, Thread.own, Thread.allocates, Thread.evicts, Thread.computes]
  · right
    cases stage <;> simp_all [Thread.outside, Thread.own, Thread.allocates, Thread.evicts, Thread.prefetches]

/-- The stores that are not in `spare`, at a moment when it is empty. -/
theorem size_le_of_spare_nil (h : Permits s.threads s.prefetching) (hroom : Room s) (hspare : s.spare = []) :
    s.size ≤ kCacheLimit + kPrefetchers + kComputers := by
  have hsplit : s.threads.countP (Thread.outside s.stores) + s.threads.countP Thread.evicts ≤
      s.threads.countP (Thread.lost s.stores) + s.threads.countP fun t => t.outside s.stores || t.evicts := by
    generalize s.threads = l
    induction l with
    | nil => simp
    | cons t l ih =>
      simp only [List.countP_cons]
      have hlost : t.evicts = true → t.outside s.stores = true → t.lost s.stores = true := by
        intro hev hout
        obtain ⟨role, first, stage⟩ := t
        cases stage <;> simp_all [Thread.evicts, Thread.outside, Thread.lost, Thread.allocates]
      cases ho : t.outside s.stores <;> cases he : t.evicts <;> simp_all <;> omega
  have hheld : (s.threads.countP fun t => t.outside s.stores || t.evicts) ≤
      s.threads.countP Thread.computes + s.threads.countP Thread.prefetches := by
    refine countP_or_le _ _ _ _ fun t _ hor => ?_
    rw [Bool.or_eq_true] at hor
    exact computes_or_prefetches hor
  have hcomp := h.computers
  have hpre := h.prefetchers
  have hres := h.reserved
  unfold Room at hroom
  unfold State.size
  rw [hspare, List.length_nil]
  omega

end Permits

/-! ## The chunks of the stores -/

/-- The chunk of a store outside the cache. -/
def Thread.outKey (stores : List Nat) (t : Thread) : Option Nat :=
  if t.outside stores then some t.first else none

/-- While no chunk is computed again that a request still holds, the chunks in the cache and
outside of it are distinct, and the claimed ones are neither but for the claiming thread's. -/
structure Keys (s : State) : Prop where
  firsts : (s.cache.map (·.first)).Nodup
  absent : ∀ e ∈ s.cache, e.first ∉ s.computing
  claimed : ∀ t ∈ s.threads, ∀ k, t.claim = some k → k ∈ s.computing
  claims : Calls.Alone Thread.claim s.threads
  apart : ∀ t ∈ s.threads, t.outside s.stores = true →
    (∀ e ∈ s.cache, e.first ≠ t.first) ∧ (t.first ∈ s.computing → t.claim = some t.first)
  alone : Calls.Alone (Thread.outKey s.stores) s.threads
  entry : ∀ t ∈ s.threads, ∀ e ∈ s.cache, t.own = some e.store → e.first = t.first

section Keys

variable {s s' : State} {i k : Nat} {t t' u : Thread} {e v : Entry} {A B : List Nat} {c : Finset Nat} {p fresh : Nat}
  {spare : List Nat}

theorem outKey_eq_some {m : Nat} : t.outKey A = some m ↔ t.outside A = true ∧ t.first = m := by
  unfold Thread.outKey
  cases t.outside A with
  | false => simp
  | true => simp

theorem outKey_mono (hsub : ∀ st ∈ A, st ∈ B) {m : Nat} (h : t.outKey B = some m) : t.outKey A = some m := by
  rw [outKey_eq_some] at h ⊢
  exact ⟨outside_mono hsub h.1, h.2⟩

theorem claim_of_allocates (h : t.allocates = true) : t.claim = some t.first := by
  obtain ⟨role, first, stage⟩ := t
  cases stage <;> simp_all [Thread.allocates, Thread.claim]

theorem outside_idle (hown : t.own = none) (halloc : t.allocates = false) : t.outside A = false := by
  simp [Thread.outside, hown, halloc]

/-- Two threads at different places do not hold the same claim. -/
theorem Keys.claim_ne (h : Keys s) (ht : s.threads[i]? = some t) (hk : t.claim = some k) {j : Nat} (hj : j ≠ i)
    (hu : s.threads[j]? = some u) : u.claim ≠ some k := fun huk => hj (h.claims j i u t k hu ht huk hk)

theorem Keys.put (h : Keys s) (ht : s.threads[i]? = some t) (hfirst : t'.first = t.first)
    (hown : ∀ st, t'.own = some st → t.own = some st) (halloc : t'.allocates = true → t.allocates = true)
    (hclaim : t'.claim = t.claim ∨ t'.claim = none ∧ t'.own = none ∧ t'.allocates = false) :
    Keys ⟨s.cache, s.computing, spare, fresh, p, s.threads.set i t'⟩ := by
  have hmem := List.mem_of_getElem? ht
  have hclaims : ∀ k, t'.claim = some k → t.claim = some k := by
    intro k hk
    rcases hclaim with hsame | ⟨hnone, -⟩
    · rw [← hsame, hk]
    · rw [hnone] at hk
      cases hk
  constructor
  · exact h.firsts
  · exact h.absent
  · exact Calls.forall_set (fun k hk => h.claimed t hmem k (hclaims k hk)) h.claimed
  · exact h.claims.same ht hclaims
  · refine Calls.forall_set (fun hout => ?_) h.apart
    obtain ⟨hne, hcomp⟩ := h.apart t hmem (outside_of hown halloc hout)
    rw [hfirst]
    refine ⟨hne, fun hin => ?_⟩
    rcases hclaim with hsame | ⟨-, hnone, hnot⟩
    · rw [hsame]
      exact hcomp hin
    · rw [outside_idle hnone hnot] at hout
      cases hout
  · refine h.alone.same ht fun m hm => ?_
    rw [outKey_eq_some] at hm ⊢
    exact ⟨outside_of hown halloc hm.1, hfirst ▸ hm.2⟩
  · refine Calls.forall_set (fun e he hst => ?_) h.entry
    rw [hfirst]
    exact h.entry t hmem e he (hown _ hst)

theorem Keys.set (h : Keys s) (ht : s.threads[i]? = some t) (hless : Less t' t)
    (hclaim : t'.claim = t.claim ∨ t'.claim = none ∧ t'.own = none ∧ t'.allocates = false) :
    Keys ⟨s.cache, s.computing, spare, fresh, p, s.threads.set i t'⟩ :=
  h.put ht hless.first hless.own hless.allocates hclaim

/-- A chunk is claimed that is neither cached, nor claimed, nor held outside the cache. -/
theorem Keys.claim (h : Keys s) (ht : s.threads[i]? = some t) (hclaim : t'.claim = some k) (hown : t'.own = none)
    (halloc : t'.allocates = false) (hknown : ¬ s.chunkKnown k)
    (hfree : ∀ u ∈ s.threads, u.first = k → u.own = none) :
    Keys { s.claimChunk k with threads := s.threads.set i t' } := by
  have hcomp : k ∉ s.computing := fun hin => hknown (.inr hin)
  have hcache : ∀ e ∈ s.cache, e.first ≠ k := by
    intro e he heq
    refine hknown (.inl (List.find?_isSome.mpr ⟨e, he, ?_⟩))
    simpa using heq
  constructor
  · exact h.firsts
  · intro e he
    rw [State.claimChunk, Finset.mem_insert, not_or]
    exact ⟨hcache e he, h.absent e he⟩
  · refine Calls.forall_set (fun m hm => ?_) fun u hu m hm => Finset.mem_insert_of_mem (h.claimed u hu m hm)
    obtain rfl := Option.some.inj (hclaim.symm.trans hm)
    exact Finset.mem_insert_self _ _
  · refine h.claims.set ht fun m j u hm _ hu hum => ?_
    obtain rfl := Option.some.inj (hclaim.symm.trans hm)
    exact hcomp (h.claimed u (List.mem_of_getElem? hu) _ hum)
  · refine Calls.forall_set (fun hout => ?_) fun u hu hout => ?_
    · rw [outside_idle hown halloc] at hout
      cases hout
    · obtain ⟨hne, hclaimed⟩ := h.apart u hu hout
      refine ⟨hne, fun hin => ?_⟩
      rcases Finset.mem_insert.mp hin with hk | hin
      · refine claim_of_allocates ?_
        simpa [Thread.outside, hfree u hu hk] using hout
      · exact hclaimed hin
  · refine h.alone.same ht fun m hm => ?_
    rw [outKey_eq_some, outside_idle hown halloc] at hm
    cases hm.1
  · refine Calls.forall_set (fun e he hst => ?_) h.entry
    rw [hown] at hst
    cases hst

theorem Keys.claimed_erase (h : Keys s) (ht : s.threads[i]? = some t) (hclaim : t.claim = some k)
    (hclaim' : t'.claim = none) :
    ∀ u ∈ s.threads.set i t', ∀ m, u.claim = some m → m ∈ s.computing.erase k := by
  intro u hu m hm
  obtain ⟨j, hj⟩ := List.mem_iff_getElem?.mp hu
  rcases (Calls.getElem?_set_iff ht).mp hj with ⟨-, rfl⟩ | ⟨hne, hju⟩
  · rw [hclaim'] at hm
    cases hm
  · refine Finset.mem_erase.mpr ⟨?_, h.claimed u (List.mem_of_getElem? hju) m hm⟩
    rintro rfl
    exact h.claim_ne ht hclaim hne hju hm

/-- A thread gives its claim back, and holds nothing. -/
theorem Keys.unclaim (h : Keys s) (ht : s.threads[i]? = some t) (hfirst : t.claim = some k) (hclaim : t'.claim = none)
    (hown : t'.own = none) (halloc : t'.allocates = false) :
    Keys { s.unclaim k with threads := s.threads.set i t' } := by
  constructor
  · exact h.firsts
  · exact fun e he hin => h.absent e he (Finset.mem_of_mem_erase hin)
  · exact h.claimed_erase ht hfirst hclaim
  · refine h.claims.same ht fun m hm => ?_
    rw [hclaim] at hm
    cases hm
  · refine Calls.forall_set (fun hout => ?_) fun u hu hout => ?_
    · rw [outside_idle hown halloc] at hout
      cases hout
    · obtain ⟨hne, hcomp⟩ := h.apart u hu hout
      exact ⟨hne, fun hin => hcomp (Finset.mem_of_mem_erase hin)⟩
  · refine h.alone.same ht fun m hm => ?_
    rw [outKey_eq_some, outside_idle hown halloc] at hm
    cases hm.1
  · refine Calls.forall_set (fun e he hst => ?_) h.entry
    rw [hown] at hst
    cases hst

theorem Keys.join (h : Keys s) (hblank : Blank u)
    (hclaim : ∀ k, u.claim = some k → k ∈ s.computing ∧ ∀ t ∈ s.threads, t.claim ≠ some k) : Keys (s.join u) := by
  have happ : ∀ {P : Thread → Prop}, P u → (∀ t ∈ s.threads, P t) → ∀ t ∈ s.threads ++ [u], P t := by
    intro P hP hall t ht
    rcases List.mem_append.mp ht with ht | ht
    · exact hall t ht
    · rw [List.mem_singleton.mp ht]
      exact hP
  have hout : ∀ A, u.outside A = false := fun A => outside_idle hblank.own hblank.allocates
  constructor
  · exact h.firsts
  · exact h.absent
  · exact happ (fun k hk => (hclaim k hk).1) h.claimed
  · exact h.claims.join fun k hk => (hclaim k hk).2
  · exact happ (fun ho => absurd ho (by simp [hout])) h.apart
  · exact h.alone.snoc (by simp [Thread.outKey, hout])
  · exact happ (by simp [hblank.own]) h.entry

/-- A request hands its claim to the prefetch thread it starts. -/
theorem Keys.spawn (h : Keys s) (ht : s.threads[i]? = some t) (hless : Less t' t) (hclaim : t.claim = some u.first)
    (hclaim' : t'.claim = none) (hown : t'.own = none) (halloc : t'.allocates = false) (hblank : Blank u)
    (hu : u.claim = some u.first) : Keys ({ s with threads := s.threads.set i t' }.join u) := by
  refine (h.set ht hless (.inr ⟨hclaim', hown, halloc⟩)).join hblank fun k hk => ?_
  obtain rfl := Option.some.inj (hu.symm.trans hk)
  refine ⟨h.claimed t (List.mem_of_getElem? ht) _ hclaim, fun b hb hbk => ?_⟩
  obtain ⟨j, hj⟩ := List.mem_iff_getElem?.mp hb
  rcases (Calls.getElem?_set_iff ht).mp hj with ⟨-, rfl⟩ | ⟨hne, hjb⟩
  · rw [hclaim'] at hbk
    cases hbk
  · exact h.claim_ne ht hclaim hne hjb hbk

/-- A thread that has claimed its chunk takes a store, or is about to allocate one. -/
theorem Keys.takes (h : Keys s) (ht : s.threads[i]? = some t) (hfirst : t'.first = t.first)
    (hclaim : t.claim = some t.first) (hclaim' : t'.claim = some t.first)
    (hown : ∀ st, t'.own = some st → st ∉ s.stores) :
    Keys ⟨s.cache, s.computing, spare, fresh, p, s.threads.set i t'⟩ := by
  have hin := h.claimed t (List.mem_of_getElem? ht) _ hclaim
  constructor
  · exact h.firsts
  · exact h.absent
  · refine Calls.forall_set (fun k hk => ?_) h.claimed
    exact h.claimed t (List.mem_of_getElem? ht) k (by rw [hclaim, ← hclaim', hk])
  · exact h.claims.same ht fun k hk => by rw [hclaim, ← hclaim', hk]
  · refine Calls.forall_set (fun _ => ?_) h.apart
    rw [hfirst]
    refine ⟨fun e he heq => h.absent e he (by rw [heq]; exact hin), fun _ => hclaim'⟩
  · refine h.alone.set ht fun m j b hm hj hb hbm => ?_
    obtain ⟨-, rfl⟩ := outKey_eq_some.mp hm
    obtain ⟨hout, hfirst'⟩ := outKey_eq_some.mp hbm
    rw [hfirst] at hfirst'
    have hb' := (h.apart b (List.mem_of_getElem? hb) hout).2 (by rw [hfirst']; exact hin)
    rw [hfirst'] at hb'
    exact h.claim_ne ht hclaim hj hb hb'
  · refine Calls.forall_set (fun e he hst => ?_) h.entry
    exact absurd (mem_stores.mpr ⟨e, he, rfl⟩) (hown _ hst)

theorem Keys.publish {st : Nat} (h : Keys s) (howned : Owned s) (ht : s.threads[i]? = some t)
    (hst : t.stage = .filling st) {o : Option Nat} (ho : ∀ st', o = some st' → st' = st) :
    Keys ((s.publish t.first st).setStage i t (.evicting o)) := by
  have hmem := List.mem_of_getElem? ht
  have hown : t.own = some st := by simp [Thread.own, hst]
  have hclaim : t.claim = some t.first := by simp [Thread.claim, hst]
  have hnew := howned.filled t hmem st (by simp [Thread.fill, hst])
  have hin := h.claimed t hmem _ hclaim
  have hout : t.outKey s.stores = some t.first :=
    outKey_eq_some.mpr ⟨by simp [Thread.outside, hown, hnew], rfl⟩
  have hnone : (⟨t.role, t.first, .evicting o⟩ : Thread).outside (st :: s.stores) = false := by
    cases o with
    | none => rfl
    | some st' => simp [Thread.outside, Thread.allocates, Thread.own, ho st' rfl]
  have hsub : ∀ st' ∈ s.stores, st' ∈ st :: s.stores := fun _ => List.mem_cons_of_mem st
  have hothers : ∀ u ∈ s.threads.set i ⟨t.role, t.first, .evicting o⟩, u.outside (st :: s.stores) = true →
      ∃ j, j ≠ i ∧ s.threads[j]? = some u := by
    intro u hu hou
    obtain ⟨j, hj⟩ := List.mem_iff_getElem?.mp hu
    rcases (Calls.getElem?_set_iff ht).mp hj with ⟨-, rfl⟩ | ⟨hne, hju⟩
    · rw [hnone] at hou
      cases hou
    · exact ⟨j, hne, hju⟩
  constructor
  · refine List.nodup_cons.mpr ⟨fun hmem' => ?_, h.firsts⟩
    obtain ⟨e, he, heq⟩ := List.mem_map.mp hmem'
    exact h.absent e he (by rw [heq]; exact hin)
  · intro e he
    rcases List.mem_cons.mp he with rfl | he
    · exact Finset.notMem_erase _ _
    · exact fun hin' => h.absent e he (Finset.mem_of_mem_erase hin')
  · exact h.claimed_erase ht hclaim rfl
  · exact h.claims.same ht (by simp [Thread.claim])
  · intro u hu hou
    obtain ⟨j, hne, hju⟩ := hothers u hu hou
    obtain ⟨hfirst, hcomp⟩ := h.apart u (List.mem_of_getElem? hju) (outside_mono hsub hou)
    refine ⟨fun e he heq => ?_, fun hin' => hcomp (Finset.mem_of_mem_erase hin')⟩
    rcases List.mem_cons.mp he with rfl | he
    · have huk := outKey_eq_some.mpr ⟨outside_mono hsub hou, heq.symm⟩
      exact hne (h.alone j i u t _ hju ht huk hout)
    · exact hfirst e he heq
  · refine Calls.Alone.same (h.alone.mono fun u _ m => outKey_mono hsub) ht fun m hm => ?_
    rw [outKey_eq_some] at hm
    exact absurd (hm.1.symm.trans hnone) (Bool.false_ne_true ∘ Eq.symm)
  · intro u hu e he hue
    obtain ⟨j, hj⟩ := List.mem_iff_getElem?.mp hu
    rcases (Calls.getElem?_set_iff ht).mp hj with ⟨-, rfl⟩ | ⟨hne, hju⟩
    · rcases List.mem_cons.mp he with rfl | he
      · rfl
      · exact absurd (mem_stores.mpr ⟨e, he, ho _ hue⟩) hnew
    · rcases List.mem_cons.mp he with rfl | he
      · exact absurd (howned.alone j i u t _ hju ht hue hown) hne
      · exact h.entry u (List.mem_of_getElem? hju) e he hue

theorem Keys.evict (h : Keys s) (howned : Owned s) (hv : s.victim = some v) : Keys (s.evict v) := by
  have hvmem := (victim_mem hv).1
  have hsub : ∀ e ∈ (s.evict v).cache, e ∈ s.cache ∧ e.store ≠ v.store := fun e he => by
    simpa using List.mem_filter.mp he
  have hfirst : ∀ e ∈ (s.evict v).cache, e.first ≠ v.first := by
    intro e he heq
    obtain ⟨hmem, hne⟩ := hsub e he
    exact hne (congrArg _ (List.inj_on_of_nodup_map h.firsts hmem hvmem heq))
  -- What is outside the cache now was so before, or is the victim of the thread that computed it.
  have hcases : ∀ t ∈ s.threads, t.outside (s.evict v).stores = true →
      t.outside s.stores = true ∨ t.own = some v.store ∧ v.first = t.first := by
    intro t ht hout
    rw [Thread.outside, Bool.or_eq_true] at hout ⊢
    rcases hout with halloc | hany
    · exact .inl (.inl halloc)
    · rcases any_evict hany with hany | hown
      · exact .inl (.inr hany)
      · exact .inr ⟨hown, h.entry t ht v hvmem hown⟩
  constructor
  · exact (List.filter_sublist.map _).nodup h.firsts
  · exact fun e he => h.absent e (hsub e he).1
  · exact h.claimed
  · exact h.claims
  · intro t ht hout
    rcases hcases t ht hout with hout | ⟨-, heq⟩
    · exact ⟨fun e he => (h.apart t ht hout).1 e (hsub e he).1, (h.apart t ht hout).2⟩
    · rw [← heq]
      exact ⟨hfirst, fun hin => absurd hin (h.absent v hvmem)⟩
  · intro i j t u m ht hu htm hum
    obtain ⟨houtt, rfl⟩ := outKey_eq_some.mp htm
    obtain ⟨houtu, heq⟩ := outKey_eq_some.mp hum
    have htmem := List.mem_of_getElem? ht
    have humem := List.mem_of_getElem? hu
    rcases hcases t htmem houtt with ht' | ⟨hownt, hvt⟩ <;> rcases hcases u humem houtu with hu' | ⟨hownu, hvu⟩
    · exact h.alone i j t u _ ht hu (outKey_eq_some.mpr ⟨ht', rfl⟩) (outKey_eq_some.mpr ⟨hu', heq⟩)
    · exact absurd (hvu.trans heq) ((h.apart t htmem ht').1 v hvmem)
    · exact absurd (hvt.trans heq.symm) ((h.apart u humem hu').1 v hvmem)
    · exact howned.alone i j t u _ ht hu hownt hownu
  · exact fun t ht e he => h.entry t ht e (hsub e he).1

theorem Keys.trim (h : Keys s) (howned : Owned s) : Keys s.trim :=
  trimLoop_induct h howned (fun _ _ ho hv hk => hk.evict ho hv) _

/-- The entries change places, or counts. -/
theorem Keys.entries {cache : List Entry} (h : Keys s) (hfirsts : (cache.map (·.first)).Nodup)
    (hmem : ∀ e ∈ cache, ∃ f ∈ s.cache, f.first = e.first ∧ f.store = e.store)
    (hstores : ∀ st ∈ s.stores, st ∈ cache.map (·.store)) : Keys { s with cache := cache } := by
  constructor
  · exact hfirsts
  · intro e he
    obtain ⟨f, hf, heq, -⟩ := hmem e he
    rw [← heq]
    exact h.absent f hf
  · exact h.claimed
  · exact h.claims
  · intro t ht hout
    obtain ⟨hne, hcomp⟩ := h.apart t ht (outside_mono hstores hout)
    refine ⟨fun e he => ?_, hcomp⟩
    obtain ⟨f, hf, heq, -⟩ := hmem e he
    rw [← heq]
    exact hne f hf
  · exact h.alone.mono fun t _ m => outKey_mono hstores
  · intro t ht e he hown
    obtain ⟨f, hf, heq, hstore⟩ := hmem e he
    rw [← heq]
    exact h.entry t ht f hf (by rw [hown, hstore])

theorem Keys.hit (h : Keys s) (he : e ∈ s.cache) : Keys (s.hit e) := by
  have hrest : ∀ f ∈ s.cache.filter fun f => f.store ≠ e.store, f ∈ s.cache ∧ f.store ≠ e.store := fun f hf => by
    simpa using List.mem_filter.mp hf
  refine h.entries (List.nodup_cons.mpr ⟨fun hin => ?_, (List.filter_sublist.map _).nodup h.firsts⟩) (fun f hf => ?_)
    fun st hst => (mem_hit_stores he).mpr hst
  · obtain ⟨f, hf, heq⟩ := List.mem_map.mp hin
    obtain ⟨hmem, hne⟩ := hrest f hf
    exact hne (congrArg _ (List.inj_on_of_nodup_map h.firsts hmem he heq))
  · rcases List.mem_cons.mp hf with rfl | hf
    · exact ⟨e, he, rfl, rfl⟩
    · exact ⟨f, (hrest f hf).1, rfl, rfl⟩

theorem Keys.unread (h : Keys s) (st : Nat) : Keys (s.unread st) := by
  refine h.entries ?_ (fun e he => ?_) fun st' hst' => ?_
  · rw [List.map_map]
    refine (congrArg _ (List.map_congr_left fun e _ => ?_)).mpr h.firsts
    simp only [Function.comp_apply]
    split <;> rfl
  · obtain ⟨f, hf, rfl⟩ := List.mem_map.mp he
    exact ⟨f, hf, by split <;> rfl, by split <;> rfl⟩
  · have hstores : st' ∈ (s.unread st).stores := by rwa [unread_stores]
    exact hstores

/-- A step keeps the chunks apart, unless it claims one of which a thread holds a store. -/
theorem Keys.turn {numFrames : Nat} {o : Option Nat} (h : Keys s) (howned : Owned s)
    (hturn : Turn numFrames s o s') (hfree : ∀ k ∈ o, ∀ t ∈ s.threads, t.first = k → t.own = none) : Keys s' := by
  cases hturn with
  | keep ht hless _ hclaim => exact h.set ht hless hclaim
  | claim ht _ _ _ hclaim hown halloc hknown => exact h.claim ht hclaim hown halloc hknown (hfree _ rfl)
  | unclaim ht _ _ hclaim hclaim' hown halloc => exact h.unclaim ht hclaim hclaim' hown halloc
  | join hblank hclaim => exact h.join hblank (by simp [hclaim])
  | spawn ht hless _ hclaim hclaim' hown halloc hblank hu =>
    exact h.spawn ht hless hclaim hclaim' hown halloc hblank hu
  | @take i t st rest ht hst hspare =>
    refine h.takes ht rfl (by simp [Thread.claim, hst]) rfl fun st' hst' hin => ?_
    obtain rfl : st = st' := Option.some.inj hst'
    exact (List.nodup_append.mp howned.nodup).2.2 st hin st (by simp [hspare]) rfl
  | ask ht hst => exact h.takes ht rfl (by simp [Thread.claim, hst]) rfl (by simp [Thread.own])
  | @allocate i t ht hst =>
    refine h.takes ht rfl (by simp [Thread.claim, hst]) rfl fun st' hst' hin => ?_
    obtain rfl : s.fresh = st' := Option.some.inj hst'
    exact Nat.lt_irrefl _ (howned.old _ (List.mem_append_left _ hin))
  | publish ht hst ho => exact h.publish howned ht hst ho
  | abort ht hst => exact h.unclaim ht (by simp [Thread.claim, hst]) rfl rfl rfl
  | trim ht hless hclaim hclaim' =>
    rw [← trimLoop_threads] at ht
    exact (h.trim howned).set ht hless (.inl (hclaim'.trans hclaim.symm))
  | hit ht hst he =>
    exact (h.hit he).put ht rfl (by simp [Thread.own]) (by simp [Thread.allocates]) (.inl (by simp [Thread.claim, hst]))
  | @unread i t st ht hst =>
    exact (h.unread st).put (s := s.unread st) ht rfl (by simp [Thread.own]) (by simp [Thread.allocates])
      (.inl (by simp [Thread.claim, hst]))

end Keys

/-! ## Every run -/

/-- The chunks of the threads and of the cache are chunks of the clip. -/
structure Starts (numFrames : Nat) (s : State) : Prop where
  threads : ∀ t ∈ s.threads, IsStart numFrames t.first
  nexts : ∀ t ∈ s.threads, t.early = true → IsStart numFrames t.next
  entries : ∀ e ∈ s.cache, IsStart numFrames e.first

section Runs

variable {numFrames i : Nat} {s s' : State} {t t' : Thread} {o : Option Nat} {es : List Event} {ev : Event}

theorem Starts.put (h : Starts numFrames s) (ht : s.threads[i]? = some t) (hfirst : t'.first = t.first)
    (hearly : t'.early = false ∨ t.early = true) (c : Finset Nat) (spare : List Nat) (fresh p : Nat) :
    Starts numFrames ⟨s.cache, c, spare, fresh, p, s.threads.set i t'⟩ := by
  have hmem := List.mem_of_getElem? ht
  refine ⟨Calls.forall_set (by rw [hfirst]; exact h.threads t hmem) h.threads, ?_, h.entries⟩
  refine Calls.forall_set (fun he => ?_) h.nexts
  rcases hearly with hno | hyes
  · rw [hno] at he
    cases he
  · have hnext : t'.next = t.next := congrArg (· + kBm4dChunk) hfirst
    rw [hnext]
    exact h.nexts t hmem hyes

theorem Starts.stage (h : Starts numFrames s) (ht : s.threads[i]? = some t) (stage : Stage)
    (hearly : (⟨t.role, t.first, stage⟩ : Thread).early = false) (c : Finset Nat) (spare : List Nat) (fresh p : Nat) :
    Starts numFrames ⟨s.cache, c, spare, fresh, p, s.threads.set i ⟨t.role, t.first, stage⟩⟩ := by
  have hfirst : (⟨t.role, t.first, stage⟩ : Thread).first = t.first := rfl
  exact h.put ht hfirst (.inl hearly) c spare fresh p

theorem Starts.join (h : Starts numFrames s) (hfirst : IsStart numFrames t.first)
    (hnext : t.early = true → IsStart numFrames t.next) : Starts numFrames (s.join t) := by
  refine ⟨fun u hu => ?_, fun u hu => ?_, h.entries⟩ <;> rcases List.mem_append.mp hu with hu | hu
  · exact h.threads u hu
  · rw [List.mem_singleton.mp hu]
    exact hfirst
  · exact h.nexts u hu
  · rw [List.mem_singleton.mp hu]
    exact hnext

theorem Starts.entriesOf {cache : List Entry} (h : Starts numFrames s)
    (hmem : ∀ e ∈ cache, ∃ f ∈ s.cache, f.first = e.first) : Starts numFrames { s with cache := cache } := by
  refine ⟨h.threads, h.nexts, fun e he => ?_⟩
  obtain ⟨f, hf, heq⟩ := hmem e he
  rw [← heq]
  exact h.entries f hf

theorem Starts.trim (h : Starts numFrames s) (howned : Owned s) : Starts numFrames s.trim :=
  trimLoop_induct h howned
    (fun _ _ _ _ hs => ⟨hs.threads, hs.nexts, fun e he => hs.entries e (List.mem_filter.mp he).1⟩) _

theorem Starts.turn (h : Starts numFrames s) (howned : Owned s) (hturn : Turn numFrames s o s') :
    Starts numFrames s' := by
  cases hturn with
  | keep ht hless => exact h.put ht hless.first hless.early _ _ _ _
  | claim ht hless => exact h.put ht hless.first hless.early _ _ _ _
  | unclaim ht hless => exact h.put ht hless.first hless.early _ _ _ _
  | join _ _ hfirst hnext => exact h.join hfirst hnext
  | @spawn i t t' u ht hless _ _ _ _ _ _ _ hearly hfirst hnot =>
    refine (h.put ht hless.first hless.early _ _ _ _).join ?_ fun he => ?_
    · rw [hfirst]
      exact h.nexts t (List.mem_of_getElem? ht) hearly
    · rw [hnot] at he
      cases he
  | @take i t st rest ht hst hspare => exact h.stage ht (.filling st) rfl _ _ _ _
  | ask ht hst hspare => exact h.stage ht .allocating rfl _ _ _ _
  | allocate ht hst => exact h.stage ht (.filling s.fresh) rfl _ _ _ _
  | @publish i t st o ht hst ho =>
    have hput := h.stage ht (.evicting o) rfl (s.computing.erase t.first) s.spare s.fresh s.prefetching
    refine ⟨hput.threads, hput.nexts, fun e he => ?_⟩
    rcases List.mem_cons.mp he with rfl | he
    · exact h.threads t (List.mem_of_getElem? ht)
    · exact h.entries e he
  | abort ht hst => exact h.stage ht (.evicting none) rfl _ _ _ _
  | trim ht hless =>
    rw [← trimLoop_threads] at ht
    exact (h.trim howned).put ht hless.first hless.early _ _ _ _
  | @hit i t e ht hst he =>
    have hhit : Starts numFrames (s.hit e) := h.entriesOf fun f hf => by
      rcases List.mem_cons.mp hf with rfl | hf
      · exact ⟨e, he, rfl⟩
      · exact ⟨f, (List.mem_filter.mp hf).1, rfl⟩
    exact hhit.stage ht (.holding true e.store) rfl _ _ _ _
  | @unread i t st ht hst =>
    have hunread : Starts numFrames (s.unread st) := h.entriesOf fun e he => by
      obtain ⟨f, hf, rfl⟩ := List.mem_map.mp he
      exact ⟨f, hf, by split <;> rfl⟩
    exact hunread.stage ht .ended rfl _ _ _ _

/-- Distinct chunks of the clip are no more than it has. -/
theorem length_le_chunks {l : List Nat} (hnodup : l.Nodup) (hstart : ∀ k ∈ l, IsStart numFrames k) :
    l.length ≤ chunks numFrames := by
  have hinj : ∀ a ∈ l, ∀ b ∈ l, a / kBm4dChunk = b / kBm4dChunk → a = b := by
    intro a ha b hb hab
    rw [← Nat.div_add_mod a kBm4dChunk, ← Nat.div_add_mod b kBm4dChunk, hab, (hstart a ha).mod_eq, (hstart b hb).mod_eq]
  have hsub : l.map (· / kBm4dChunk) ⊆ List.range (chunks numFrames) := by
    intro q hq
    obtain ⟨k, hk, rfl⟩ := List.mem_map.mp hq
    have hlt := (hstart k hk).lt
    rw [List.mem_range]
    unfold chunks kBm4dChunk
    omega
  have hlen := (List.subperm_of_subset (List.Nodup.map_on hinj hnodup) hsub).length_le
  rwa [List.length_map, List.length_range] at hlen

/-- The stores that are not in `spare`, at a moment when it is empty, are of distinct chunks. -/
theorem size_le_chunks (h : Keys s) (hstarts : Starts numFrames s) (hspare : s.spare = []) :
    s.size ≤ chunks numFrames := by
  have hlen : (s.cache.map (·.first) ++ s.threads.filterMap (Thread.outKey s.stores)).length = s.size := by
    rw [List.length_append, List.length_map, List.length_filterMap_eq_countP, State.size, hspare, List.length_nil,
      Nat.add_zero]
    refine congrArg _ (List.countP_congr fun t _ => ?_)
    unfold Thread.outKey
    cases t.outside s.stores <;> simp
  rw [← hlen]
  refine length_le_chunks (List.nodup_append.mpr ⟨h.firsts, h.alone.nodup, ?_⟩) fun k hk => ?_
  · intro a ha b hb hab
    obtain ⟨e, he, rfl⟩ := List.mem_map.mp ha
    obtain ⟨t, ht, hkey⟩ := List.mem_filterMap.mp hb
    obtain ⟨hout, hfirst⟩ := outKey_eq_some.mp hkey
    exact (h.apart t ht hout).1 e he (hab.trans hfirst.symm)
  · rcases List.mem_append.mp hk with hk | hk
    · obtain ⟨e, he, rfl⟩ := List.mem_map.mp hk
      exact hstarts.entries e he
    · obtain ⟨t, ht, hkey⟩ := List.mem_filterMap.mp hk
      rw [← (outKey_eq_some.mp hkey).2]
      exact hstarts.threads t ht

/-- What holds in every state of a run, whatever it claims. -/
structure Bounded (numFrames : Nat) (s : State) : Prop where
  owned : Owned s
  room : Room s
  permits : Permits s.threads s.prefetching
  starts : Starts numFrames s
  size_le : s.size ≤ kCacheLimit + kPrefetchers + kComputers

theorem Bounded.init : Bounded numFrames State.init where
  owned := .init
  room := Nat.zero_le _
  permits := ⟨nofun, Nat.zero_le _, Nat.zero_le _, Nat.zero_le _, Nat.zero_le _⟩
  starts := ⟨nofun, nofun, nofun⟩
  size_le := Nat.zero_le _

theorem Bounded.step (h : Bounded numFrames s) (hstep : s.step numFrames ev = some s') : Bounded numFrames s' := by
  have hturn := step_turn hstep
  have hroom := h.room.turn h.owned hturn
  have hpermits := h.permits.step hstep
  refine ⟨h.owned.turn hturn, hroom, hpermits, h.starts.turn h.owned hturn, ?_⟩
  rcases size_turn h.owned hturn with hle | hspare
  · exact Nat.le_trans hle h.size_le
  · exact size_le_of_spare_nil hpermits hroom hspare

/-- In every run the stores alive are at most one for each place of the cache, each prefetch
thread and each compute permit, and the output frames being filled at most `kOutputs`. -/
theorem stores_bounded (hrun : Path (fun s ev s' => s.step numFrames ev = some s') State.init es s) :
    s.alive ≤ kCacheLimit + kPrefetchers + kComputers ∧ s.threads.countP Thread.outputs ≤ kOutputs := by
  have h : Bounded numFrames s := hrun.invariant .init fun _ _ _ hstep h => h.step hstep
  exact ⟨Nat.le_trans (alive_le_size h.owned) h.size_le, h.permits.outputs⟩

/-- The clip has chunks for every store that the plan allows, or the step does not claim a chunk
of which a thread still holds a store. -/
def Meets (numFrames : Nat) (s : State) (ev : Event) : Prop :=
  kCacheLimit + kPrefetchers + kComputers ≤ chunks numFrames ∨ ¬ s.recomputes ev

instance : Decidable (Meets numFrames s ev) := inferInstanceAs (Decidable (_ ∨ _))

/-- While every step meets the condition, the stores are no more than the chunks. -/
structure Fits (numFrames : Nat) (s : State) : Prop where
  bounded : Bounded numFrames s
  chunks_le : s.size ≤ chunks numFrames
  keys : kCacheLimit + kPrefetchers + kComputers ≤ chunks numFrames ∨ Keys s

theorem Fits.init : Fits numFrames State.init where
  bounded := .init
  chunks_le := Nat.zero_le _
  keys := .inr ⟨List.nodup_nil, nofun, nofun, .nil, nofun, .nil, nofun⟩

theorem Fits.step (h : Fits numFrames s) (hstep : s.step numFrames ev = some s') (hmeets : Meets numFrames s ev) :
    Fits numFrames s' := by
  have hbounded := h.bounded.step hstep
  rcases h.keys with hmany | hkeys
  · exact ⟨hbounded, Nat.le_trans hbounded.size_le hmany, .inl hmany⟩
  · rcases hmeets with hmany | hfree
    · exact ⟨hbounded, Nat.le_trans hbounded.size_le hmany, .inl hmany⟩
    · have hturn := step_turn hstep
      have hnone : ∀ k ∈ s.claims ev, ∀ t ∈ s.threads, t.first = k → t.own = none := by
        intro k hk t ht hfirst
        by_contra hown
        exact hfree ⟨k, hk, t, ht, hfirst, Option.isSome_iff_ne_none.mpr hown⟩
      have hkeys' := hkeys.turn h.bounded.owned hturn hnone
      refine ⟨hbounded, ?_, .inr hkeys'⟩
      rcases size_turn h.bounded.owned hturn with hle | hspare
      · exact Nat.le_trans hle h.chunks_le
      · exact size_le_chunks hkeys' hbounded.starts hspare

/-- In every run whose steps meet the condition, the stores alive are those of the memory plan. -/
theorem stores_within_plan
    (hrun : Path (fun s ev s' => s.step numFrames ev = some s' ∧ Meets numFrames s ev) State.init es s) :
    s.alive ≤ plannedStores numFrames ∧ s.threads.countP Thread.outputs ≤ kOutputs := by
  have h : Fits numFrames s := hrun.invariant .init fun _ _ _ hstep h => h.step hstep.1 hstep.2
  have halive := alive_le_size h.bounded.owned
  exact ⟨Nat.le_min.mpr ⟨Nat.le_trans halive h.bounded.size_le, Nat.le_trans halive h.chunks_le⟩,
    h.bounded.permits.outputs⟩

/-- Three requests of three chunks. The first one holds its store when the third drops its chunk. -/
def threeRequests : List Event :=
  .request 0 :: List.replicate 6 (.go 0) ++ .request 32 :: List.replicate 10 (.go 1) ++
    .request 64 :: List.replicate 10 (.go 2)

/-- A step that is taken only where it meets the condition. -/
def meetingStep (numFrames : Nat) (s : State) (ev : Event) : Option State :=
  if Meets numFrames s ev then s.step numFrames ev else none

theorem meetingStep_eq_some (h : meetingStep numFrames s ev = some s') :
    s.step numFrames ev = some s' ∧ Meets numFrames s ev := by
  rw [meetingStep] at h
  split at h
  · exact ⟨h, ‹_›⟩
  · cases h

theorem stores_within_plan_three : ∃ s, threeRequests.foldlM (meetingStep 96) State.init = some s ∧
    s.alive ≤ plannedStores 96 ∧ s.threads.countP Thread.outputs ≤ kOutputs :=
  ⟨_, rfl, stores_within_plan ((Path.of_foldlM (rfl : threeRequests.foldlM (meetingStep 96) State.init = some _)).mono
    fun _ _ _ => meetingStep_eq_some)⟩

theorem stores_bounded_three : ∃ s, threeRequests.foldlM (fun s ev => s.step 96 ev) State.init = some s ∧
    s.alive ≤ kCacheLimit + kPrefetchers + kComputers ∧ s.threads.countP Thread.outputs ≤ kOutputs :=
  ⟨_, rfl, stores_bounded (.of_foldlM (rfl : threeRequests.foldlM (fun s ev => s.step 96 ev) State.init = some _))⟩

/-- The first chunk is asked for again meanwhile: four stores of three chunks. -/
theorem stores_exceed_plan : ∃ s, Path (fun s ev s' => s.step 96 ev = some s') State.init
    (threeRequests ++ .request 1 :: List.replicate 4 (.go 3)) s ∧ plannedStores 96 < s.alive :=
  ⟨_, .of_foldlM rfl, by decide⟩

end Runs

end NssFactory.Cuda.Bm4d

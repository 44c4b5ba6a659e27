import Mathlib.Data.Finset.Basic
import Mathlib.Data.List.Basic

/-!
# The calls of a concurrent system

The calls in flight, of any number of threads, are a list; a new call goes to its end and a
step of call `k` replaces entry `k`. The lemmas say who is at which place afterwards, and how a
count of calls changes. `Marked` is a set of marks that the calls hold, each by one call.
-/

namespace NssFactory.Calls

variable {α : Type*} {l : List α} {j k : Nat} {x y c : α}

theorem getElem?_snoc_iff : (l ++ [y])[j]? = some x ↔ l[j]? = some x ∨ j = l.length ∧ x = y := by
  rcases Nat.lt_trichotomy j l.length with h | h | h
  · rw [List.getElem?_append_left h]
    simp [Nat.ne_of_lt h]
  · subst h
    simp [eq_comm]
  · rw [List.getElem?_eq_none (by simp; omega), List.getElem?_eq_none (by omega)]
    simp [Nat.ne_of_gt h]

theorem getElem?_set_iff (h : l[k]? = some c) :
    (l.set k y)[j]? = some x ↔ j = k ∧ x = y ∨ j ≠ k ∧ l[j]? = some x := by
  have hlt := (List.getElem?_eq_some_iff.mp h).1
  by_cases hj : j = k
  · subst hj
    simp [List.getElem?_set_self hlt, eq_comm]
  · simp [hj, List.getElem?_set_ne (Ne.symm hj)]

theorem forall_set {P : α → Prop} (hy : P y) (hl : ∀ x ∈ l, P x) : ∀ x ∈ l.set k y, P x := by
  intro x hx
  rcases List.mem_or_eq_of_mem_set hx with hx | rfl
  · exact hl x hx
  · exact hy

theorem mem_set (h : l[k]? = some c) : y ∈ l.set k y :=
  List.mem_of_getElem? ((getElem?_set_iff h).mpr (.inl ⟨rfl, rfl⟩))

/-- A call that is not the one that stepped is still there. -/
theorem mem_set_of_ne (h : l[k]? = some c) (hx : x ∈ l) (hne : x ≠ c) : x ∈ l.set k y := by
  obtain ⟨j, hj⟩ := List.mem_iff_getElem?.mp hx
  refine List.mem_of_getElem? ((getElem?_set_iff h).mpr (.inr ⟨?_, hj⟩))
  rintro rfl
  rw [h] at hj
  exact hne (Option.some.inj hj).symm

theorem countP_set {p : α → Bool} (h : l[k]? = some c) :
    (l.set k y).countP p + (if p c then 1 else 0) = l.countP p + if p y then 1 else 0 := by
  obtain ⟨hlt, hc⟩ := List.getElem?_eq_some_iff.mp h
  have hpos : p c = true → 0 < l.countP p := fun hp =>
    List.countP_pos_iff.mpr ⟨c, List.mem_of_getElem? h, hp⟩
  rw [List.countP_set hlt, hc]
  split
  · have := hpos ‹_›
    omega
  · omega

/-- A step that does not change what is counted. -/
theorem countP_set_same {p : α → Bool} (h : l[k]? = some c) (hp : p y = p c) :
    (l.set k y).countP p = l.countP p := by
  have := countP_set (y := y) (p := p) h
  rw [hp] at this
  omega

/-- A step of a call, up to the order of the list. -/
theorem set_perm (h : l[k]? = some c) :
    ∃ rest, l.Perm (c :: rest) ∧ ∀ y, (l.set k y).Perm (y :: rest) := by
  obtain ⟨hlt, hc⟩ := List.getElem?_eq_some_iff.mp h
  refine ⟨l.eraseIdx k, ?_, fun y => List.set_perm_cons_eraseIdx hlt y⟩
  rw [← hc]
  exact (List.getElem_cons_eraseIdx_perm hlt).symm

/-- What the calls hold, before and after a step of call `k`. -/
theorem filterMap_set {β : Type*} (f : α → Option β) (h : l[k]? = some c) (y : α) :
    ((f c).toList ++ (l.set k y).filterMap f).Perm ((f y).toList ++ l.filterMap f) := by
  obtain ⟨rest, hperm, hset⟩ := set_perm h
  have hcons : ∀ x, (x :: rest).filterMap f = (f x).toList ++ rest.filterMap f := by
    intro x
    cases hx : f x <;> simp [hx]
  have hold := hperm.filterMap f
  have hnew := (hset y).filterMap f
  rw [hcons] at hold hnew
  have hswap : ((f c).toList ++ ((f y).toList ++ rest.filterMap f)).Perm
      ((f y).toList ++ ((f c).toList ++ rest.filterMap f)) := List.perm_append_comm_assoc _ _ _
  exact ((hnew.append_left _).trans hswap).trans (hold.symm.append_left _)

/-- A step that keeps what the call held. -/
theorem filterMap_set_same {β : Type*} {f : α → Option β} (h : l[k]? = some c) (hf : f y = f c) :
    ((l.set k y).filterMap f).Perm (l.filterMap f) := by
  have hperm := filterMap_set f h y
  rw [hf] at hperm
  exact (List.perm_append_left_iff _).mp hperm

/-! ## Marks -/

/-- No two calls hold the same mark. -/
def Alone {κ : Type*} (key : α → Option κ) (l : List α) : Prop :=
  ∀ (j k : Nat) (b c : α) (m : κ), l[j]? = some b → l[k]? = some c → key b = some m →
    key c = some m → j = k

/-- The marks are those that the calls hold, each held by one call. -/
structure Marked {κ : Type*} (key : α → Option κ) (l : List α) (marks : Finset κ) : Prop where
  mem_iff : ∀ m, m ∈ marks ↔ ∃ c ∈ l, key c = some m
  alone : Alone key l

section Marks

variable {κ : Type*} {key : α → Option κ} {marks : Finset κ} {m : κ}

theorem Alone.nil : Alone key ([] : List α) := by
  intro j k b c m hb
  simp at hb

/-- A new call with a mark that nobody holds. -/
theorem Alone.join (h : Alone key l) (hy : ∀ m, key y = some m → ∀ b ∈ l, key b ≠ some m) :
    Alone key (l ++ [y]) := by
  intro i j a b m ha hb hma hmb
  rcases getElem?_snoc_iff.mp ha with hal | ⟨hi, rfl⟩ <;> rcases getElem?_snoc_iff.mp hb with hbl | ⟨hj, rfl⟩
  · exact h i j a b m hal hbl hma hmb
  · exact absurd hma (hy m hmb a (List.mem_of_getElem? hal))
  · exact absurd hmb (hy m hma b (List.mem_of_getElem? hbl))
  · exact hi.trans hj.symm

theorem Alone.snoc (h : Alone key l) (hy : key y = none) : Alone key (l ++ [y]) :=
  h.join fun m hm => by
    rw [hy] at hm
    cases hm

/-- Fewer marks. -/
theorem Alone.mono {key' : α → Option κ} (h : Alone key l)
    (hkey : ∀ c ∈ l, ∀ m, key' c = some m → key c = some m) : Alone key' l := fun i j a b m ha hb hma hmb =>
  h i j a b m ha hb (hkey a (List.mem_of_getElem? ha) m hma) (hkey b (List.mem_of_getElem? hb) m hmb)

/-- A step to a mark that no other call holds. -/
theorem Alone.set (h : Alone key l) (hc : l[k]? = some c)
    (hy : ∀ m j b, key y = some m → j ≠ k → l[j]? = some b → key b ≠ some m) :
    Alone key (l.set k y) := by
  intro i j a b m ha hb hma hmb
  rcases (getElem?_set_iff hc).mp ha with ⟨hi, rfl⟩ | ⟨hi, ha'⟩ <;>
    rcases (getElem?_set_iff hc).mp hb with ⟨hj, rfl⟩ | ⟨hj, hb'⟩
  · exact hi.trans hj.symm
  · exact absurd hmb (hy m j b hma hj hb')
  · exact absurd hma (hy m i a hmb hi ha')
  · exact h i j a b m ha' hb' hma hmb

/-- A step that holds what it held, or nothing. -/
theorem Alone.same (h : Alone key l) (hc : l[k]? = some c) (hy : ∀ m, key y = some m → key c = some m) :
    Alone key (l.set k y) :=
  h.set hc fun m j b hym hj hb hbm => hj (h j k b c m hb hc hbm (hy m hym))

theorem Alone.tail (h : Alone key (c :: l)) : Alone key l := by
  intro i j a b m ha hb hma hmb
  exact Nat.succ.inj (h (i + 1) (j + 1) a b m ha hb hma hmb)

theorem Alone.head (h : Alone key (c :: l)) (hc : key c = some m) : ∀ b ∈ l, key b ≠ some m := by
  intro b hb hm
  obtain ⟨j, hj⟩ := List.mem_iff_getElem?.mp hb
  cases h 0 (j + 1) c b m rfl hj hc hm

/-- The marks held are distinct. -/
theorem Alone.nodup (h : Alone key l) : (l.filterMap key).Nodup := by
  induction l with
  | nil => exact List.nodup_nil
  | cons c l ih =>
    cases hc : key c with
    | none =>
      rw [List.filterMap_cons_none hc]
      exact ih h.tail
    | some m =>
      rw [List.filterMap_cons_some hc]
      refine List.nodup_cons.mpr ⟨fun hmem => ?_, ih h.tail⟩
      obtain ⟨b, hb, hm⟩ := List.mem_filterMap.mp hmem
      exact h.head hc b hb hm

theorem Alone.of_nodup (h : (l.filterMap key).Nodup) : Alone key l := by
  induction l with
  | nil => exact .nil
  | cons c l ih =>
    have hhead : ∀ (j : Nat) (b : α) (m : κ), l[j]? = some b → key c = some m → key b ≠ some m := by
      intro j b m hb hc hbm
      rw [List.filterMap_cons_some hc, List.nodup_cons] at h
      exact h.1 (List.mem_filterMap.mpr ⟨b, List.mem_of_getElem? hb, hbm⟩)
    have htail : (l.filterMap key).Nodup := by
      cases hc : key c with
      | none => rwa [List.filterMap_cons_none hc] at h
      | some m =>
        rw [List.filterMap_cons_some hc] at h
        exact (List.nodup_cons.mp h).2
    intro i j a b m ha hb hma hmb
    cases i with
    | zero =>
      obtain rfl := Option.some.inj ha
      cases j with
      | zero => rfl
      | succ j => exact absurd hmb (hhead j b m hb hma)
    | succ i =>
      cases j with
      | zero =>
        obtain rfl := Option.some.inj hb
        exact absurd hma (hhead i a m ha hmb)
      | succ j => exact congrArg Nat.succ (ih htail i j a b m ha hb hma hmb)

theorem Alone.countP_le_one [DecidableEq κ] (h : Alone key l) (m : κ) :
    (l.countP fun c => key c = some m) ≤ 1 := by
  induction l with
  | nil => exact Nat.zero_le _
  | cons c l ih =>
    rw [List.countP_cons]
    split
    · rename_i hc
      rw [decide_eq_true_eq] at hc
      rw [List.countP_eq_zero.mpr fun b hb => by simpa using h.head hc b hb]
    · exact ih h.tail

theorem Marked.nil : Marked key [] ∅ := ⟨by simp, nofun⟩

theorem Marked.snoc (h : Marked key l marks) (hy : key y = none) :
    Marked key (l ++ [y]) marks where
  mem_iff m := by
    rw [h.mem_iff]
    constructor
    · rintro ⟨c, hc, hm⟩
      exact ⟨c, List.mem_append_left _ hc, hm⟩
    · rintro ⟨c, hc, hm⟩
      rcases List.mem_append.mp hc with hc | hc
      · exact ⟨c, hc, hm⟩
      · rw [List.mem_singleton.mp hc, hy] at hm
        cases hm
  alone := h.alone.snoc hy

theorem Marked.same (h : Marked key l marks) (hc : l[k]? = some c) (hy : key y = key c) :
    Marked key (l.set k y) marks where
  mem_iff m := by
    rw [h.mem_iff]
    constructor
    · rintro ⟨b, hb, hm⟩
      by_cases hbc : b = c
      · exact ⟨y, mem_set hc, by rw [hy, ← hbc, hm]⟩
      · exact ⟨b, mem_set_of_ne hc hb hbc, hm⟩
    · rintro ⟨b, hb, hm⟩
      rcases List.mem_or_eq_of_mem_set hb with hb | rfl
      · exact ⟨b, hb, hm⟩
      · exact ⟨c, List.mem_of_getElem? hc, by rw [← hy, hm]⟩
  alone := h.alone.same hc fun m hm => by rw [← hy, hm]

variable [DecidableEq κ]

/-- A step that sets a mark nobody holds. -/
theorem Marked.begin (h : Marked key l marks) (hc : l[k]? = some c) (hold : key c = none)
    (hy : key y = some m) (hfree : m ∉ marks) : Marked key (l.set k y) (insert m marks) where
  mem_iff m' := by
    rw [Finset.mem_insert, h.mem_iff]
    constructor
    · rintro (rfl | ⟨b, hb, hm⟩)
      · exact ⟨y, mem_set hc, hy⟩
      · refine ⟨b, mem_set_of_ne hc hb ?_, hm⟩
        rintro rfl
        rw [hold] at hm
        cases hm
    · rintro ⟨b, hb, hm⟩
      rcases List.mem_or_eq_of_mem_set hb with hb | rfl
      · exact .inr ⟨b, hb, hm⟩
      · exact .inl (Option.some.inj (hm.symm.trans hy))
  alone := h.alone.set hc fun m' j b hm _ hb hbm => by
    obtain rfl := Option.some.inj (hm.symm.trans hy)
    exact hfree ((h.mem_iff _).mpr ⟨b, List.mem_of_getElem? hb, hbm⟩)

/-- A step that clears the mark it held. -/
theorem Marked.ended (h : Marked key l marks) (hc : l[k]? = some c) (hold : key c = some m)
    (hy : key y = none) : Marked key (l.set k y) (marks.erase m) where
  mem_iff m' := by
    rw [Finset.mem_erase, h.mem_iff]
    constructor
    · rintro ⟨hne, b, hb, hm⟩
      refine ⟨b, mem_set_of_ne hc hb ?_, hm⟩
      rintro rfl
      exact hne (Option.some.inj (hm.symm.trans hold))
    · rintro ⟨b, hb, hm⟩
      obtain ⟨j, hj⟩ := List.mem_iff_getElem?.mp hb
      rcases (getElem?_set_iff hc).mp hj with ⟨-, rfl⟩ | ⟨hne, hj⟩
      · rw [hy] at hm
        cases hm
      · refine ⟨?_, b, List.mem_of_getElem? hj, hm⟩
        rintro rfl
        exact hne (h.alone j k b c m' hj hc hm hold)
  alone := h.alone.same hc fun m hm => by
    rw [hy] at hm
    cases hm

end Marks

end NssFactory.Calls

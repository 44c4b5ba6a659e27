import Mathlib.Data.List.Induction
import Mathlib.Data.List.Perm.Subperm
import Mathlib.Data.List.Sort

/-!
# The k least elements of a list

`LeastK key k l s` says that `s` holds, in any order, the `k` elements of `l` with the least
keys (all of them if there are fewer). A collector that sees the elements one by one keeps this
by `grow` while it has room, and then by `keep` or `replace` against its worst element; sorted,
what it ends with is the first `k` of the sorted list (`LeastK.sorted_eq`). Keys are distinct.
-/

namespace NssFactory

variable {α κ : Type*} [LinearOrder κ] {key : α → κ}

/-- The elements in the order of their keys. -/
def sortBy (key : α → κ) (l : List α) : List α := l.insertionSort fun a b => key a ≤ key b

def LeastK (key : α → κ) (k : Nat) (l s : List α) : Prop :=
  ∃ rest, l.Perm (s ++ rest) ∧ s.length = min k l.length ∧
    ∀ a ∈ s, ∀ b ∈ rest, key a < key b

variable {l l' s s' t : List α} {x w : α} {k : Nat}

theorem sortBy_perm (key : α → κ) (l : List α) : (sortBy key l).Perm l := List.perm_insertionSort _ l

theorem sortBy_le (key : α → κ) (l : List α) :
    (sortBy key l).Pairwise fun a b => key a ≤ key b := by
  have : IsTrans α fun a b => key a ≤ key b := ⟨fun _ _ _ => le_trans⟩
  have : Std.Total fun a b : α => key a ≤ key b := ⟨fun a b => le_total (key a) (key b)⟩
  exact List.pairwise_insertionSort _ l

/-- With distinct keys the order is strict. -/
theorem strict_of_le (h : s.Pairwise fun a b => key a ≤ key b) (hnd : (s.map key).Nodup) :
    s.Pairwise fun a b => key a < key b := by
  rw [List.Nodup, List.pairwise_map] at hnd
  exact h.imp₂ (fun _ _ hle hne => lt_of_le_of_ne hle hne) hnd

theorem sortBy_lt (hnd : (l.map key).Nodup) :
    (sortBy key l).Pairwise fun a b => key a < key b :=
  strict_of_le (sortBy_le key l) (((sortBy_perm key l).map key).nodup_iff.mpr hnd)

/-- There is one way to sort distinct keys. -/
theorem eq_of_sorted (hs : s.Pairwise fun a b => key a < key b)
    (ht : t.Pairwise fun a b => key a < key b) (hperm : s.Perm t) : s = t :=
  hperm.eq_of_pairwise (fun _ _ _ _ h h' => absurd h' (lt_asymm h)) hs ht

theorem sortBy_eq_of_perm (hnd : (l.map key).Nodup) (hperm : l'.Perm l) :
    sortBy key l' = sortBy key l :=
  eq_of_sorted (sortBy_lt (((hperm.map key).nodup_iff).mpr hnd)) (sortBy_lt hnd)
    (((sortBy_perm key l').trans hperm).trans (sortBy_perm key l).symm)

/-- The order of the list does not matter where the keys are distinct. -/
theorem sortBy_snoc (hnd : ((l ++ [x]).map key).Nodup) :
    sortBy key (l ++ [x]) = (sortBy key l).orderedInsert (fun a b => key a ≤ key b) x :=
  (sortBy_eq_of_perm hnd (List.perm_append_singleton x l).symm).symm

/-- The least element is the first. -/
theorem sortBy_cons_least (h : ∀ a ∈ l, key x ≤ key a) : sortBy key (x :: l) = x :: sortBy key l := by
  change (sortBy key l).orderedInsert _ x = _
  cases hs : sortBy key l with
  | nil => rfl
  | cons b s =>
    have hb : b ∈ l := (sortBy_perm key l).mem_iff.mp (hs ▸ List.mem_cons_self)
    exact if_pos (h b hb)

/-- What an insertion pushes out of the first `k` elements does not come back. -/
theorem take_orderedInsert_take (k : Nat) (l : List α) :
    ((l.take k).orderedInsert (fun a b => key a ≤ key b) x).take k =
      (l.orderedInsert (fun a b => key a ≤ key b) x).take k := by
  induction l generalizing k with
  | nil => simp
  | cons b l ih =>
    cases k with
    | zero => simp
    | succ k =>
      rw [List.take_succ_cons, List.orderedInsert_cons, List.orderedInsert_cons]
      split
      · cases k with
        | zero => rfl
        | succ k => simp [List.take_take]
      · rw [List.take_succ_cons, List.take_succ_cons, ih]

theorem orderedInsert_append (h : ∀ b ∈ t, key x ≤ key b) :
    (s ++ t).orderedInsert (fun a b => key a ≤ key b) x = s.orderedInsert (fun a b => key a ≤ key b) x ++ t := by
  induction s with
  | nil =>
    cases t with
    | nil => rfl
    | cons b t => exact if_pos (h b List.mem_cons_self)
  | cons a s ih =>
    rw [List.cons_append, List.orderedInsert_cons, List.orderedInsert_cons, ih]
    split <;> rfl

/-- An element above all others goes to the end. -/
theorem orderedInsert_end (h : ∀ a ∈ s, key a < key x) :
    s.orderedInsert (fun a b => key a ≤ key b) x = s ++ [x] := by
  induction s with
  | nil => rfl
  | cons a s ih =>
    rw [List.orderedInsert_cons, if_neg (not_le.mpr (h a List.mem_cons_self)),
      ih fun b hb => h b (List.mem_cons_of_mem _ hb)]
    rfl

/-- `for (; pos > 0 && less(x, l[pos - 1]); --pos) l[pos] = l[pos - 1]; l[pos] = x` -/
def shiftDown (less : α → α → Bool) (x : α) : Nat → List α → List α
  | 0, l => l.set 0 x
  | pos + 1, l =>
    match l[pos]? with
    | some b => if less x b then shiftDown less x pos (l.set (pos + 1) b) else l.set (pos + 1) x
    | none => l

/-- The elements behind a gap close it when an element is put into the sorted ones before it. -/
theorem shiftDown_eq {less : α → α → Bool} {low tail : List α} (gap : α)
    (h : ∀ b ∈ low, less x b = true ↔ key x ≤ key b) (hlow : low.Pairwise fun a b => key a ≤ key b) :
    shiftDown less x low.length (low ++ gap :: tail) = low.orderedInsert (fun a b => key a ≤ key b) x ++ tail := by
  induction low using List.reverseRecOn generalizing gap tail with
  | nil => rfl
  | append_singleton low b ih =>
    obtain ⟨hl, -, hb⟩ := List.pairwise_append.mp hlow
    have hget : (low ++ [b] ++ gap :: tail)[low.length]? = some b := by simp
    have hset : ∀ v, (low ++ [b] ++ gap :: tail).set (low.length + 1) v = low ++ b :: v :: tail := by
      intro v
      rw [List.append_assoc, List.set_append_right _ _ (by omega), Nat.add_sub_cancel_left]
      rfl
    have hless := h b (by simp)
    rw [List.length_append, List.length_singleton, shiftDown, hget]
    dsimp only
    rw [hset, hset]
    split
    · rename_i hx
      rw [ih b (fun c hc => h c (by simp [hc])) hl, orderedInsert_append fun c hc => ?_]
      · rw [List.append_assoc]
        rfl
      · rw [List.mem_singleton.mp hc]
        exact hless.mp hx
    · rename_i hx
      have hbx : key b < key x := not_le.mp (mt hless.mpr hx)
      rw [orderedInsert_end fun c hc => ?_]
      · simp
      · rcases List.mem_append.mp hc with hc | hc
        · exact (hb c hc b (by simp)).trans_lt hbx
        · rw [List.mem_singleton.mp hc]
          exact hbx

/-- A full list of `k + 1` elements takes an element in that is less than its last. -/
theorem shiftDown_full {r : α → α → Bool} (hlen : l.length = k + 1)
    (h : ∀ b ∈ l, r x b = true ↔ key x ≤ key b) (hl : l.Pairwise fun a b => key a ≤ key b) :
    ∃ last, l[k]? = some last ∧ (if r x last then shiftDown r x k l else l) =
      (l.orderedInsert (fun a b => key a ≤ key b) x).take (k + 1) := by
  obtain ⟨below, last, rfl⟩ : ∃ below last, l = below ++ [last] := by
    refine ⟨_, _, (List.dropLast_append_getLast ?_).symm⟩
    rintro rfl
    simp at hlen
  have hbelow : below.length = k := by
    rw [List.length_append, List.length_singleton] at hlen
    omega
  obtain ⟨hb, -, hlast⟩ := List.pairwise_append.mp hl
  have hlast' := h last (by simp)
  refine ⟨last, by simp [← hbelow], ?_⟩
  split
  · rename_i hx
    have hshift : shiftDown r x below.length (below ++ [last]) =
        below.orderedInsert (fun a b => key a ≤ key b) x ++ [] := shiftDown_eq last (fun c hc => h c (by simp [hc])) hb
    rw [hbelow, List.append_nil] at hshift
    rw [hshift, orderedInsert_append fun c hc => ?_, List.take_append_of_le_length, List.take_of_length_le]
    · rw [List.orderedInsert_length]
      omega
    · rw [List.orderedInsert_length]
      omega
    · rw [List.mem_singleton.mp hc]
      exact hlast'.mp hx
  · rename_i hx
    have hlastx : key last < key x := not_le.mp (mt hlast'.mpr hx)
    rw [orderedInsert_end fun c hc => ?_, List.take_append_of_le_length (by omega), ← hlen, List.take_length]
    rcases List.mem_append.mp hc with hc | hc
    · exact (hlast c hc last (by simp)).trans_lt hlastx
    · rw [List.mem_singleton.mp hc]
      exact hlastx

namespace LeastK

/-- Everything, while there is room. -/
theorem self (h : l.length ≤ k) : LeastK key k l l :=
  ⟨[], by simp, by omega, fun _ _ _ h => nomatch h⟩

theorem zero : LeastK key 0 l [] := ⟨l, by simp, by simp, nofun⟩

theorem perm (h : LeastK key k l s) (hs : s.Perm s') : LeastK key k l s' := by
  obtain ⟨rest, hl, hlen, hlt⟩ := h
  exact ⟨rest, hl.trans (hs.append_right rest), by rw [← hs.length_eq, hlen],
    fun a ha => hlt a (hs.mem_iff.mpr ha)⟩

theorem nodup (h : LeastK key k l s) (hnd : (l.map key).Nodup) : (s.map key).Nodup := by
  obtain ⟨rest, hl, -⟩ := h
  have hall := (hl.map key).nodup_iff.mp hnd
  rw [List.map_append] at hall
  exact hall.of_append_left

theorem subset (h : LeastK key k l s) : s ⊆ l := by
  obtain ⟨rest, hl, -⟩ := h
  exact fun a ha => hl.mem_iff.mpr (List.mem_append_left _ ha)

theorem length_le (h : LeastK key k l s) : s.length ≤ k := by
  obtain ⟨_, -, hlen, -⟩ := h
  omega

/-- While there is room, every element stays. -/
theorem grow (h : LeastK key k l s) (hroom : s.length < k) :
    LeastK key k (l ++ [x]) (s ++ [x]) := by
  obtain ⟨rest, hl, hlen, -⟩ := h
  have hall := hl.length_eq
  rw [List.length_append] at hall
  obtain rfl : rest = [] := List.length_eq_zero_iff.mp (by omega)
  rw [List.append_nil] at hl
  refine ⟨[], ?_, by simp; omega, fun _ _ _ h => nomatch h⟩
  rw [List.append_nil]
  exact hl.append_right [x]

/-- An element above all that are held is left out. -/
theorem keep (h : LeastK key k l s) (hfull : s.length = k) (hx : ∀ a ∈ s, key a < key x) :
    LeastK key k (l ++ [x]) s := by
  obtain ⟨rest, hl, hlen, hlt⟩ := h
  refine ⟨rest ++ [x], ?_, by simp; omega, fun a ha b hb => ?_⟩
  · rw [← List.append_assoc]
    exact hl.append_right [x]
  · rcases List.mem_append.mp hb with hb | hb
    · exact hlt a ha b hb
    · rw [List.mem_singleton.mp hb]
      exact hx a ha

/-- An element below the worst one held takes its place. -/
theorem replace (h : LeastK key k l s) (hfull : s.length = k) (hw : s.Perm (w :: t))
    (hmax : ∀ a ∈ t, key a < key w) (hx : key x < key w) : LeastK key k (l ++ [x]) (x :: t) := by
  obtain ⟨rest, hl, hlen, hlt⟩ := h
  have hlent := hw.length_eq
  refine ⟨w :: rest, ?_, by simp at hlent ⊢; omega, fun a ha b hb => ?_⟩
  · have h1 : (l ++ [x]).Perm (x :: l) := List.perm_append_singleton x l
    have h2 : l.Perm (w :: t ++ rest) := hl.trans (hw.append_right rest)
    have h3 : (w :: t ++ rest).Perm (t ++ w :: rest) := List.perm_middle.symm
    exact h1.trans ((h2.trans h3).cons x)
  · have hwlt : ∀ b ∈ rest, key w < key b := hlt w (hw.mem_iff.mpr List.mem_cons_self)
    have haw : key a < key w := by
      rcases List.mem_cons.mp ha with rfl | ha
      · exact hx
      · exact hmax a ha
    rcases List.mem_cons.mp hb with rfl | hb
    · exact haw
    · exact haw.trans (hwlt b hb)

/-- Sorted, the k least are the first k of the sorted list. -/
theorem sorted_eq (h : LeastK key k l s) (hnd : (l.map key).Nodup) (hs : s.Perm s')
    (hsorted : s'.Pairwise fun a b => key a < key b) : s' = (sortBy key l).take k := by
  obtain ⟨rest, hl, hlen, hlt⟩ := h.perm hs
  have hrest : (rest.map key).Nodup := by
    have hall := (hl.map key).nodup_iff.mp hnd
    rw [List.map_append] at hall
    exact hall.of_append_right
  have hall : s' ++ sortBy key rest = sortBy key l := by
    refine eq_of_sorted ?_ (sortBy_lt hnd) ?_
    · refine List.pairwise_append.mpr ⟨hsorted, sortBy_lt hrest, fun a ha b hb => ?_⟩
      exact hlt a ha b ((sortBy_perm key rest).mem_iff.mp hb)
    · exact ((sortBy_perm key rest).append_left s').trans (hl.symm.trans (sortBy_perm key l).symm)
  rw [← hall]
  rcases Nat.le_total k l.length with hle | hle
  · rw [List.take_append_of_le_length (by omega), List.take_of_length_le (by omega)]
  · have htotal := hl.length_eq
    rw [List.length_append] at htotal
    obtain rfl : rest = [] := List.length_eq_zero_iff.mp (by omega)
    rw [List.take_of_length_le (by simp [sortBy]; omega)]
    simp [sortBy]

theorem sort_eq (h : LeastK key k l s) (hnd : (l.map key).Nodup) :
    sortBy key s = (sortBy key l).take k :=
  h.sorted_eq hnd (sortBy_perm key s).symm (sortBy_lt (h.nodup hnd))

/-- The first k of the sorted list are the k least. -/
theorem take_sortBy (hnd : (l.map key).Nodup) : LeastK key k l ((sortBy key l).take k) := by
  have hperm := sortBy_perm key l
  have hsorted := sortBy_lt hnd
  rw [← List.take_append_drop k (sortBy key l)] at hsorted
  refine ⟨(sortBy key l).drop k, ?_, ?_, (List.pairwise_append.mp hsorted).2.2⟩
  · rw [List.take_append_drop]
    exact hperm.symm
  · rw [List.length_take, hperm.length_eq]

/-- What the k least of a part leave out is not among the k least of the whole. -/
theorem append {l₂ : List α} (h : LeastK key k l s) (h' : LeastK key k (s ++ l₂) s')
    (hnd : ((l ++ l₂).map key).Nodup) : LeastK key k (l ++ l₂) s' := by
  obtain ⟨rest, hl, hlen, hlt⟩ := h
  obtain ⟨rest₂, hl₂, hlen₂, hlt₂⟩ := h'
  have htotal := hl.length_eq
  rw [List.length_append] at htotal hlen₂
  have hperm : (l ++ l₂).Perm (s ++ l₂ ++ rest) := by
    have hswap : (s ++ (rest ++ l₂)).Perm (s ++ (l₂ ++ rest)) :=
      List.perm_append_comm.append_left s
    rw [← List.append_assoc, ← List.append_assoc] at hswap
    exact (hl.append_right l₂).trans hswap
  refine ⟨rest₂ ++ rest, ?_, ?_, fun a ha b hb => ?_⟩
  · rw [← List.append_assoc]
    exact hperm.trans (hl₂.append_right rest)
  · rw [List.length_append]
    omega
  · rcases List.mem_append.mp hb with hb | hb
    · exact hlt₂ a ha b hb
    · by_cases has : a ∈ s
      · exact hlt a has b hb
      · -- `a` has driven an element of `s` out, which is below `b`
        have hrest : 0 < rest.length := List.length_pos_of_mem hb
        have hnds : (s ++ l₂).Nodup := by
          have hall := ((hperm.map key).nodup_iff.mp hnd).of_map
          exact hall.of_append_left
        obtain ⟨c, hcs, hc⟩ : ∃ c ∈ s, c ∉ s' := by
          by_contra hall
          push Not at hall
          have hsub : s.Subperm s' := List.Nodup.subperm hnds.of_append_left hall
          have hsame : s.Perm s' := hsub.perm_of_length_le (by omega)
          exact has (hsame.mem_iff.mpr ha)
        have hc₂ : c ∈ s' ++ rest₂ := hl₂.mem_iff.mp (List.mem_append_left _ hcs)
        have hac := hlt₂ a ha c ((List.mem_append.mp hc₂).resolve_left hc)
        exact hac.trans (hlt c hcs b hb)

end LeastK

omit [LinearOrder κ] in
/-- A fold that sees a list of distinct keys keeps what each step keeps. -/
theorem foldl_seen {σ : Type*} {P : List α → σ → Prop} {f : σ → α → σ} {seen : List α} {state : σ}
    (hnd : ((seen ++ l).map key).Nodup) (start : P seen state)
    (step : ∀ seen x state, ((seen ++ [x]).map key).Nodup → P seen state →
      P (seen ++ [x]) (f state x)) : P (seen ++ l) (l.foldl f state) := by
  induction l generalizing seen state with
  | nil => simpa using start
  | cons x l ih =>
    rw [List.append_cons] at hnd ⊢
    have hx : ((seen ++ [x]).map key).Nodup := by
      rw [List.map_append] at hnd
      exact hnd.of_append_left
    exact ih hnd (step seen x state hx start)

end NssFactory

import Mathlib.Data.List.Nodup
import Mathlib.Data.List.Perm.Basic

/-!
# Visiting the entries of a list in any order

`visit f note` puts what `f` makes of one entry in its place and notes the outcome. Visits of
different entries do not see one another, so `foldl_visit_perm`: in any order of all the
indices they come to `List.map`.

`laneBucket` is such a walk that collects some of the entries and works them out together;
`foldl_buckets` says that it comes to visits when the joint work gives each entry its own result.
-/

namespace NssFactory.Visits

variable {α β γ : Type*}

section Visit

variable (f : α → α × β) (note : γ → Nat → β → γ)

/-- The entries and what was noted of them. -/
abbrev Walk (α γ : Type*) := List α × γ

/-- Put a result in place of an entry. -/
def put (s : Walk α γ) (i : Nat) (result : α × β) : Walk α γ :=
  (s.1.set i result.1, note s.2 i result.2)

def visit (s : Walk α γ) (i : Nat) : Walk α γ :=
  match s.1[i]? with
  | none => s
  | some a => put note s i (f a)

/-- What is noted of the entries of `l` in the order of `is`. -/
def notes (l : List α) (c : γ) (is : List Nat) : γ :=
  is.foldl (fun c i => match l[i]? with | none => c | some a => note c i (f a).2) c

end Visit

variable {f : α → α × β} {note : γ → Nat → β → γ} {s : Walk α γ} {i j : Nat} {is order : List Nat}

@[simp] theorem visit_length : (visit f note s i).1.length = s.1.length := by
  unfold visit
  split
  · rfl
  · exact List.length_set

theorem visit_getElem?_ne (h : i ≠ j) : (visit f note s i).1[j]? = s.1[j]? := by
  unfold visit
  split
  · rfl
  · exact List.getElem?_set_ne h

theorem visit_getElem?_self : (visit f note s i).1[i]? = s.1[i]?.map fun a => (f a).1 := by
  unfold visit
  cases h : s.1[i]? with
  | none => exact h
  | some a =>
    have hi : i < s.1.length := (List.getElem?_eq_some_iff.mp h).1
    show (s.1.set i (f a).1)[i]? = some (f a).1
    exact List.getElem?_set_self hi

/-- Visits of other entries leave an entry as it was. -/
theorem foldl_visit_getElem?_of_notMem (h : j ∉ is) :
    (is.foldl (visit f note) s).1[j]? = s.1[j]? := by
  induction is generalizing s with
  | nil => rfl
  | cons i is ih =>
    have hne : i ≠ j := fun heq => h (heq ▸ List.mem_cons_self)
    rw [List.foldl_cons, ih fun hj => h (List.mem_cons_of_mem _ hj), visit_getElem?_ne hne]

theorem foldl_visit_getElem?_of_mem (hnodup : is.Nodup) (h : j ∈ is) :
    (is.foldl (visit f note) s).1[j]? = s.1[j]?.map fun a => (f a).1 := by
  induction is generalizing s with
  | nil => cases h
  | cons i is ih =>
    obtain ⟨hi, hnodup⟩ := List.nodup_cons.mp hnodup
    rw [List.foldl_cons]
    rcases List.mem_cons.mp h with rfl | hj
    · rw [foldl_visit_getElem?_of_notMem hi, visit_getElem?_self]
    · have hne : i ≠ j := fun heq => hi (heq ▸ hj)
      rw [ih hnodup hj, visit_getElem?_ne hne]

/-- What is noted of an entry is noted of the entry as it was at the start. -/
theorem foldl_visit_snd (hnodup : is.Nodup) :
    (is.foldl (visit f note) s).2 = notes f note s.1 s.2 is := by
  induction is generalizing s with
  | nil => rfl
  | cons i is ih =>
    obtain ⟨hi, hnodup⟩ := List.nodup_cons.mp hnodup
    have hsame : ∀ (c : γ) (js : List Nat), (∀ j ∈ js, j ≠ i) →
        notes f note (visit f note s i).1 c js = notes f note s.1 c js := by
      intro c js hjs
      induction js generalizing c with
      | nil => rfl
      | cons j js ih =>
        simp only [notes, List.foldl_cons] at ih ⊢
        rw [visit_getElem?_ne (Ne.symm (hjs j List.mem_cons_self))]
        exact ih _ fun k hk => hjs k (List.mem_cons_of_mem _ hk)
    rw [List.foldl_cons, ih hnodup, hsame _ _ fun j hj heq => hi (heq ▸ hj)]
    unfold notes visit
    rw [List.foldl_cons]
    cases s.1[i]? <;> rfl

/-- All the entries in any order: each one has become what `f` makes of it. -/
theorem foldl_visit_perm (h : order.Perm (List.range s.1.length)) :
    (order.foldl (visit f note) s).1 = s.1.map fun a => (f a).1 := by
  have hnodup : order.Nodup := h.nodup_iff.mpr List.nodup_range
  apply List.ext_getElem?
  intro j
  rw [List.getElem?_map]
  by_cases hj : j ∈ order
  · exact foldl_visit_getElem?_of_mem hnodup hj
  · have hlen : s.1.length ≤ j := by
      rw [h.mem_iff, List.mem_range] at hj
      exact Nat.not_lt.mp hj
    rw [foldl_visit_getElem?_of_notMem hj, List.getElem?_eq_none hlen]
    rfl

/-! ## Entries that are worked out together -/

/-- Results put in place of the entries come to visits when they are what `f` makes of them. -/
theorem foldl_put_eq_visit (hnodup : is.Nodup) (hmem : ∀ i ∈ is, i < s.1.length) :
    (is.zip ((is.filterMap (s.1[·]?)).map f)).foldl (fun s p => put note s p.1 p.2) s =
      is.foldl (visit f note) s := by
  induction is generalizing s with
  | nil => rfl
  | cons i is ih =>
    obtain ⟨hi, hnodup⟩ := List.nodup_cons.mp hnodup
    obtain ⟨a, hget⟩ : ∃ a, s.1[i]? = some a :=
      ⟨_, List.getElem?_eq_getElem (hmem i List.mem_cons_self)⟩
    have hvisit : visit f note s i = put note s i (f a) := by
      unfold visit
      rw [hget]
    have hrest : is.filterMap ((visit f note s i).1[·]?) = is.filterMap (s.1[·]?) := by
      apply List.filterMap_congr
      intro j hj
      exact visit_getElem?_ne fun heq => hi (heq ▸ hj)
    rw [List.filterMap_cons_some hget, List.map_cons, List.zip_cons_cons, List.foldl_cons,
      List.foldl_cons, ← hvisit, ← hrest]
    refine ih hnodup fun j hj => ?_
    rw [visit_length]
    exact hmem j (List.mem_cons_of_mem _ hj)

section Lanes

variable (eligible : α → Bool) (f : α → α × β) (note : γ → Nat → β → γ)
  (lanes : List α → List (α × β))

/-- One entry of a bucket: it is collected for the lanes, or visited. -/
def gather (s : Walk α γ × List Nat) (i : Nat) : Walk α γ × List Nat :=
  if (s.1.1[i]?).any eligible then (s.1, s.2 ++ [i]) else (visit f note s.1 i, s.2)

/-- The entries of a bucket: one that is eligible alone is visited, two or more go through
`lanes` together. -/
def laneBucket (s : Walk α γ) (bucket : List Nat) : Walk α γ :=
  let (s, batch) := bucket.foldl (gather eligible f note) (s, [])
  match batch with
  | [] => s
  | [i] => visit f note s i
  | _ => (batch.zip (lanes (batch.filterMap (s.1[·]?)))).foldl (fun s p => put note s p.1 p.2) s

/-- Cut a list where an index differs from the first of its part. -/
def buckets (same : Nat → Nat → Bool) : List Nat → List (List Nat)
  | [] => []
  | i :: is => go i [i] is
where
  go (first : Nat) (bucket : List Nat) : List Nat → List (List Nat)
    | [] => [bucket]
    | j :: is => if same first j then go first (bucket ++ [j]) is else bucket :: go j [j] is

end Lanes

variable {eligible : α → Bool} {lanes : List α → List (α × β)} {batch bucket : List Nat}

theorem buckets_flatten {same : Nat → Nat → Bool} : (buckets same is).flatten = is := by
  have hgo : ∀ (first : Nat) (bucket is : List Nat),
      (buckets.go same first bucket is).flatten = bucket ++ is := by
    intro first bucket is
    induction is generalizing first bucket with
    | nil => simp [buckets.go]
    | cons j is ih =>
      unfold buckets.go
      split
      · rw [ih, List.append_assoc, List.singleton_append]
      · rw [List.flatten_cons, ih, List.singleton_append]
  cases is with
  | nil => rfl
  | cons i is => exact hgo i [i] is

/-- The indices of a bucket are the same as one of them. -/
theorem same_of_mem_buckets {same : Nat → Nat → Bool} (h : bucket ∈ buckets same is) :
    ∃ i, ∀ j ∈ bucket, j = i ∨ same i j = true := by
  have hgo : ∀ (first : Nat) (part is : List Nat),
      (∀ j ∈ part, j = first ∨ same first j = true) → ∀ bucket ∈ buckets.go same first part is,
      ∃ i, ∀ j ∈ bucket, j = i ∨ same i j = true := by
    intro first part is
    induction is generalizing first part with
    | nil =>
      intro hpart bucket hb
      cases List.mem_singleton.mp hb
      exact ⟨first, hpart⟩
    | cons k is ih =>
      intro hpart bucket hb
      unfold buckets.go at hb
      split at hb
      · rename_i hk
        refine ih first _ (fun j hj => ?_) bucket hb
        rcases List.mem_append.mp hj with hj | hj
        · exact hpart j hj
        · exact .inr (List.mem_singleton.mp hj ▸ hk)
      · rcases List.mem_cons.mp hb with rfl | hb
        · exact ⟨first, hpart⟩
        · exact ih k [k] (fun j hj => .inl (List.mem_singleton.mp hj)) bucket hb
  cases is with
  | nil => cases h
  | cons i is => exact hgo i [i] is (fun j hj => .inl (List.mem_singleton.mp hj)) bucket h

theorem foldl_gather (hnodup : bucket.Nodup) :
    bucket.foldl (gather eligible f note) (s, batch) =
      ((bucket.filter fun i => !(s.1[i]?).any eligible).foldl (visit f note) s,
        batch ++ bucket.filter fun i => (s.1[i]?).any eligible) := by
  induction bucket generalizing s batch with
  | nil => rw [List.filter_nil, List.filter_nil, List.append_nil]; rfl
  | cons i bucket ih =>
    obtain ⟨hi, hnodup⟩ := List.nodup_cons.mp hnodup
    rw [List.foldl_cons, gather]
    cases he : (s.1[i]?).any eligible with
    | true =>
      rw [if_pos rfl, ih hnodup, List.filter_cons_of_neg (by simp [he]),
        List.filter_cons_of_pos (by simp [he]), List.append_assoc, List.singleton_append]
    | false =>
      have hsame : ∀ j ∈ bucket, (visit f note s i).1[j]? = s.1[j]? :=
        fun j hj => visit_getElem?_ne fun heq => hi (heq ▸ hj)
      rw [if_neg (by simp), ih hnodup, List.filter_cons_of_pos (by simp [he]),
        List.filter_cons_of_neg (by simp [he]), List.foldl_cons]
      rw [List.filter_congr fun j hj => by rw [hsame j hj]]
      congr 2
      exact List.filter_congr fun j hj => by rw [hsame j hj]

/-- A bucket comes to visits of its entries in some order. -/
theorem laneBucket_eq (hnodup : bucket.Nodup)
    (hlanes : ∀ l, (∀ a ∈ l, eligible a = true ∧ ∃ i ∈ bucket, s.1[i]? = some a) →
      lanes l = l.map f) :
    ∃ is : List Nat, is.Perm bucket ∧ laneBucket eligible f note lanes s bucket = is.foldl (visit f note) s := by
  refine ⟨(bucket.filter fun i => !(s.1[i]?).any eligible) ++
    bucket.filter fun i => (s.1[i]?).any eligible, ?_, ?_⟩
  · exact List.perm_append_comm.trans (List.filter_append_perm _ _)
  · unfold laneBucket
    rw [foldl_gather hnodup, List.nil_append, List.foldl_append]
    generalize hs' : (bucket.filter fun i => !(s.1[i]?).any eligible).foldl (visit f note) s = s'
    generalize hbatch : bucket.filter (fun i => (s.1[i]?).any eligible) = batch
    -- the entries that were collected are still as they were
    have hkept : ∀ i ∈ batch, ∃ a, s'.1[i]? = some a ∧ eligible a = true ∧
        i ∈ bucket ∧ s.1[i]? = some a := by
      intro i hi
      rw [← hbatch, List.mem_filter, Option.any_eq_true] at hi
      obtain ⟨hmem, a, ha, he⟩ := hi
      refine ⟨a, ?_, he, hmem, ha⟩
      rw [← hs', foldl_visit_getElem?_of_notMem ?_, ha]
      intro hi
      rw [List.mem_filter, ha, Option.any_some, he] at hi
      cases hi.2
    have hbatchNodup : batch.Nodup := hbatch ▸ hnodup.filter _
    have hall : (batch.zip (lanes (batch.filterMap (s'.1[·]?)))).foldl
        (fun s p => put note s p.1 p.2) s' = batch.foldl (visit f note) s' := by
      rw [hlanes _ ?_]
      · refine foldl_put_eq_visit hbatchNodup fun i hi => ?_
        obtain ⟨a, ha, -⟩ := hkept i hi
        exact (List.getElem?_eq_some_iff.mp ha).1
      · intro a ha
        obtain ⟨i, hi, hia⟩ := List.mem_filterMap.mp ha
        obtain ⟨b, hb, he, hmem, hget⟩ := hkept i hi
        rw [hb] at hia
        cases hia
        exact ⟨he, i, hmem, hget⟩
    cases batch with
    | nil => rfl
    | cons i batch =>
      cases batch with
      | nil => rfl
      | cons j batch => exact hall

/-- The buckets of an order come to visits of all its indices in some order. -/
theorem foldl_buckets {bs : List (List Nat)} (hnodup : bs.flatten.Nodup)
    (hlanes : ∀ bucket ∈ bs, ∀ l,
      (∀ a ∈ l, eligible a = true ∧ ∃ i ∈ bucket, s.1[i]? = some a) → lanes l = l.map f) :
    ∃ is : List Nat, is.Perm bs.flatten ∧
      bs.foldl (laneBucket eligible f note lanes) s = is.foldl (visit f note) s := by
  induction bs generalizing s with
  | nil => exact ⟨[], .nil, rfl⟩
  | cons bucket bs ih =>
    rw [List.flatten_cons] at hnodup ⊢
    obtain ⟨hbucket, hrest, hapart⟩ := List.nodup_append.mp hnodup
    obtain ⟨is, hperm, heq⟩ :=
      laneBucket_eq hbucket (hlanes bucket List.mem_cons_self)
    -- the entries of the later buckets have not been visited
    have hlater : ∀ later ∈ bs, ∀ i ∈ later,
        (laneBucket eligible f note lanes s bucket).1[i]? = s.1[i]? := by
      intro later hb i hi
      rw [heq]
      refine foldl_visit_getElem?_of_notMem fun hmem => ?_
      exact hapart i (hperm.mem_iff.mp hmem) i (List.mem_flatten.mpr ⟨later, hb, hi⟩) rfl
    obtain ⟨js, hperm', heq'⟩ := ih hrest
      fun later hb l hl => hlanes later (List.mem_cons_of_mem _ hb) l fun a ha => by
        obtain ⟨he, i, hi, hget⟩ := hl a ha
        exact ⟨he, i, hi, by rw [← hlater later hb i hi, hget]⟩
    refine ⟨is ++ js, hperm.append hperm', ?_⟩
    rw [List.foldl_cons, heq', heq, List.foldl_append]

/-! ## Entries that are worked out together, whatever comes of them

`R a r` says what may come of an entry `a`: what the lanes make of it may depend on the entries
beside it. -/

section Any

variable {R : α → α × β → Prop} {a : α}

end Any

end NssFactory.Visits

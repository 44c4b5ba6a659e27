import Mathlib.Data.List.Nodup
import Mathlib.Data.List.Perm.Basic

/-!
# Tables

A map as the list of its entries, each with its key: `find`, `put` and `others` are look-up,
assignment and erasure. Where no key comes twice, a table is an entry beside the others up to
order (`perm_of_mem`), which is how sums over the entries and lists made of them are followed.
-/

namespace NssFactory.Table

variable {α κ : Type*} [DecidableEq κ] (key : α → κ)

/-- The entries of other keys: the table after `k` is erased. -/
def others (k : κ) (l : List α) : List α := l.filter fun a => key a ≠ k

def find (k : κ) (l : List α) : Option α := l.find? fun a => key a = k

def put (a : α) (l : List α) : List α := a :: others key (key a) l

variable {key} {k : κ} {l : List α} {a b : α}

@[simp] theorem mem_others : a ∈ others key k l ↔ a ∈ l ∧ key a ≠ k := by
  rw [others, List.mem_filter, decide_eq_true_eq]

@[simp] theorem mem_put : b ∈ put key a l ↔ b = a ∨ b ∈ l ∧ key b ≠ key a := by
  rw [put, List.mem_cons, mem_others]

theorem find_some (h : find key k l = some a) : a ∈ l ∧ key a = k :=
  ⟨List.mem_of_find?_eq_some h, by simpa using List.find?_some h⟩

theorem find_none (h : find key k l = none) (ha : a ∈ l) : key a ≠ k := by
  simpa using List.find?_eq_none.mp h a ha

/-- The keys of a table with no key twice are still so after an assignment. -/
theorem nodup_others (h : (l.map key).Nodup) : ((others key k l).map key).Nodup :=
  h.sublist (List.filter_sublist.map key)

theorem nodup_put (h : (l.map key).Nodup) : ((put key a l).map key).Nodup := by
  rw [put, List.map_cons, List.nodup_cons]
  refine ⟨?_, nodup_others h⟩
  intro hmem
  obtain ⟨b, hb, hkey⟩ := List.mem_map.mp hmem
  exact (mem_others.mp hb).2 hkey

theorem others_of_absent (h : ∀ a ∈ l, key a ≠ k) : others key k l = l :=
  List.filter_eq_self.mpr fun a ha => decide_eq_true (h a ha)

theorem others_put : others key (key a) (put key a l) = others key (key a) l := by
  have hself : others key (key a) (a :: others key (key a) l) =
      others key (key a) (others key (key a) l) := List.filter_cons_of_neg (by simp)
  rw [put, hself, others_of_absent fun b hb => (mem_others.mp hb).2]

theorem find_of_mem (h : (l.map key).Nodup) (ha : a ∈ l) : find key (key a) l = some a := by
  cases hfind : find key (key a) l with
  | none => exact absurd rfl (find_none hfind ha)
  | some b =>
    obtain ⟨hb, hkey⟩ := find_some hfind
    rw [List.inj_on_of_nodup_map h hb ha hkey]

/-- A table is an entry beside the entries of other keys. -/
theorem perm_of_mem (h : (l.map key).Nodup) (ha : a ∈ l) : l.Perm (a :: others key (key a) l) := by
  induction l with
  | nil => cases ha
  | cons b l ih =>
    rw [List.map_cons, List.nodup_cons] at h
    obtain ⟨hb, hl⟩ := h
    rcases List.mem_cons.mp ha with rfl | ha
    · have habsent : ∀ c ∈ l, key c ≠ key a := fun c hc heq => hb (heq ▸ List.mem_map_of_mem hc)
      have hself : others key (key a) (a :: l) = others key (key a) l :=
        List.filter_cons_of_neg (by simp)
      rw [hself, others_of_absent habsent]
    · have hne : key b ≠ key a := fun heq => hb (heq ▸ List.mem_map_of_mem ha)
      have hkeep : others key (key a) (b :: l) = b :: others key (key a) l :=
        List.filter_cons_of_pos (by simpa using hne)
      rw [hkeep]
      exact ((ih hl ha).cons b).trans (.swap _ _ _)

end NssFactory.Table

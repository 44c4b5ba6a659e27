import NssFactory.Lib.Calls

/-!
# Operations on device queues

A device runs the operations of one queue in turn and those of different queues in any order,
except that an operation may wait for a point of another queue. `Before ops i j` is the order
that is left, and `Reaches ops p i` says that what waits for `p` comes after operation `i`.
`Ordered c ops`: of any two operations in conflict, the one that was queued first is done before
the other begins.
-/

namespace NssFactory

/-- A queue, up to its `number`-th operation. -/
structure Point (Q : Type*) where
  queue : Q
  number : Nat
  deriving DecidableEq

/-- An operation and the points that it waits for. -/
structure Operation (Q A : Type*) where
  point : Point Q
  waits : List (Point Q)
  act : A

variable {Q A : Type*}

/-- Who waits for `p` waits for `p'` too. -/
def Point.Includes (p p' : Point Q) : Prop := p'.queue = p.queue ∧ p'.number ≤ p.number

/-- Operation `i` is done before operation `j` begins. -/
inductive Before (ops : List (Operation Q A)) : Nat → Nat → Prop
  | wait {i j : Nat} {a b : Operation Q A} {p : Point Q} : ops[i]? = some a → ops[j]? = some b →
      p ∈ b.waits → p.Includes a.point → Before ops i j
  | trans {i j k : Nat} : Before ops i j → Before ops j k → Before ops i k

/-- What waits for `p` comes after operation `i`. -/
def Reaches (ops : List (Operation Q A)) (p : Point Q) (i : Nat) : Prop :=
  ∃ j a, ops[j]? = some a ∧ p.Includes a.point ∧ (i = j ∨ Before ops i j)

/-- Two operations in conflict run in the order they were queued in. -/
def Ordered (conflict : A → A → Prop) (ops : List (Operation Q A)) : Prop :=
  ∀ i j a b, i < j → ops[i]? = some a → ops[j]? = some b → conflict a.act b.act → Before ops i j

variable {ops more : List (Operation Q A)} {op : Operation Q A} {p p' : Point Q} {i j : Nat}

theorem Point.Includes.trans {p'' : Point Q} (h : p.Includes p') (h' : p'.Includes p'') :
    p.Includes p'' :=
  ⟨h'.1.trans h.1, Nat.le_trans h'.2 h.2⟩

theorem getElem?_append {a : Operation Q A} (h : ops[i]? = some a) :
    (ops ++ more)[i]? = some a := by
  rw [List.getElem?_append_left (List.getElem?_eq_some_iff.mp h).1, h]

/-- What is queued later does not change the order. -/
theorem Before.append (h : Before ops i j) : Before (ops ++ more) i j := by
  induction h with
  | wait ha hb hp hincl => exact .wait (getElem?_append ha) (getElem?_append hb) hp hincl
  | trans _ _ ih ih' => exact ih.trans ih'

/-- What waits for nothing comes after nothing. -/
theorem Before.waits_ne_nil (h : Before ops i j) : ∃ b, ops[j]? = some b ∧ b.waits ≠ [] := by
  induction h with
  | wait _ hb hp _ => exact ⟨_, hb, List.ne_nil_of_mem hp⟩
  | trans _ _ _ ih => exact ih

theorem Reaches.append (h : Reaches ops p i) : Reaches (ops ++ more) p i := by
  obtain ⟨j, a, ha, hincl, hij⟩ := h
  exact ⟨j, a, getElem?_append ha, hincl, hij.imp_right Before.append⟩

theorem Reaches.mono (h : Reaches ops p' i) (hincl : p.Includes p') : Reaches ops p i := by
  obtain ⟨j, a, ha, hincl', hij⟩ := h
  exact ⟨j, a, ha, hincl.trans hincl', hij⟩

/-- An operation that the point includes. -/
theorem reaches_of_includes {a : Operation Q A} (ha : ops[i]? = some a)
    (hincl : p.Includes a.point) : Reaches ops p i :=
  ⟨i, a, ha, hincl, .inl rfl⟩

theorem Reaches.of_before (h : Reaches ops p j) (hij : Before ops i j) : Reaches ops p i := by
  obtain ⟨k, a, ha, hincl, rfl | hjk⟩ := h
  · exact ⟨j, a, ha, hincl, .inr hij⟩
  · exact ⟨k, a, ha, hincl, .inr (hij.trans hjk)⟩

/-- An operation that waits for a point comes after all that the point reaches. -/
theorem Reaches.before {b : Operation Q A} (h : Reaches ops p i) (hb : ops[j]? = some b)
    (hp : p ∈ b.waits) : Before ops i j := by
  obtain ⟨k, a, ha, hincl, rfl | hik⟩ := h
  · exact .wait ha hb hp hincl
  · exact hik.trans (.wait ha hb hp hincl)

/-- The operation that is queued next. -/
theorem getElem?_last : (ops ++ [op])[ops.length]? = some op := by simp

theorem Reaches.before_last (h : Reaches ops p i) (hp : p ∈ op.waits) :
    Before (ops ++ [op]) i ops.length :=
  h.append.before getElem?_last hp

theorem ordered_nil {conflict : A → A → Prop} : Ordered conflict ([] : List (Operation Q A)) := by
  intro i j a b _ ha
  simp at ha

/-- Operations that are in conflict with none. -/
theorem Ordered.append {conflict : A → A → Prop} (h : Ordered conflict ops)
    (hmore : ∀ b ∈ more, ∀ x, ¬ conflict x b.act) : Ordered conflict (ops ++ more) := by
  intro i j a b hij ha hb hconflict
  rcases Nat.lt_or_ge j ops.length with hj | hj
  · rw [List.getElem?_append_left hj] at hb
    rw [List.getElem?_append_left (by omega)] at ha
    exact (h i j a b hij ha hb hconflict).append
  · rw [List.getElem?_append_right hj] at hb
    exact absurd hconflict (hmore b (List.mem_of_getElem? hb) a.act)

theorem Ordered.snoc {conflict : A → A → Prop} (h : Ordered conflict ops)
    (hop : ∀ i a, ops[i]? = some a → conflict a.act op.act → Before (ops ++ [op]) i ops.length) :
    Ordered conflict (ops ++ [op]) := by
  intro i j a b hij ha hb hconflict
  have hlt : i < ops.length := by
    have hle := (List.getElem?_eq_some_iff.mp hb).1
    rw [List.length_append, List.length_singleton] at hle
    omega
  rw [List.getElem?_append_left hlt] at ha
  rcases Calls.getElem?_snoc_iff.mp hb with hb | ⟨rfl, rfl⟩
  · exact (h i j a b hij ha hb hconflict).append
  · exact hop i a ha hconflict

end NssFactory

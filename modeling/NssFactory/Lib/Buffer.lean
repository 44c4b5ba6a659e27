import Mathlib.Logic.Function.Basic
import NssFactory.Lib.Loops

/-!
# Buffered jobs

A loop that fills one slot of a buffer in each round, and processes and commits all of them when
the buffer is full and once more at its end. The slots are used again, so a job is written over
what an earlier one has left.

`Meaning` says what a job is, whatever slot it is in. Then the buffer does not show: the run is
the loop that commits each job in its own round (`Meaning.run_alone`). Only an error may come from
another job, because later ones are filled before earlier ones are processed.
-/

namespace NssFactory

open Loops

universe u

/-- The parts of the loop. -/
structure JobBuffer (ε σ J P : Type u) where
  fill : σ → J → P → Except ε J
  process : σ → J → Except ε J
  commit : σ → J → σ

namespace JobBuffer

variable {ε σ J P I O : Type u} (b : JobBuffer ε σ J P)

/-- The first `n` slots are processed in place. -/
def processAll (s : σ) (jobs : Nat → J) (n : Nat) : Except ε (Nat → J) :=
  (List.range n).foldlM (fun jobs i => do
    let job ← b.process s (jobs i)
    return Function.update jobs i job) jobs

def commitAll (s : σ) (jobs : Nat → J) (n : Nat) : σ :=
  (List.range n).foldl (fun s i => b.commit s (jobs i)) s

def flush (s : σ) (jobs : Nat → J) (pending : Nat) : Except ε (σ × (Nat → J)) := do
  let jobs ← b.processAll s jobs pending
  return (b.commitAll s jobs pending, jobs)

def query (capacity : Nat) (state : σ × (Nat → J) × Nat) (p : P) :
    Except ε (σ × (Nat → J) × Nat) := do
  let (s, jobs, pending) := state
  let job ← b.fill s (jobs pending) p
  let jobs := Function.update jobs pending job
  if pending + 1 = capacity then do
    let (s, jobs) ← b.flush s jobs (pending + 1)
    return (s, jobs, 0)
  else return (s, jobs, pending + 1)

/-- What is left at the end is flushed too. -/
def finish (state : σ × (Nat → J) × Nat) : Except ε (σ × (Nat → J)) :=
  let (s, jobs, pending) := state
  if pending ≠ 0 then b.flush s jobs pending else return (s, jobs)

def run (capacity : Nat) (s : σ) (jobs : Nat → J) (ps : List P) : Except ε (σ × (Nat → J)) := do
  let state ← ps.foldlM (b.query capacity) (s, jobs, 0)
  b.finish state

/-- A job in its own round, in a slot of its own. -/
def alone (fresh : J) (s : σ) (p : P) : Except ε σ := do
  let job ← b.fill s fresh p
  let job ← b.process s job
  return b.commit s job

/-- A run keeps what every commit keeps; its errors are those of a job that is filled or
processed. -/
theorem run_ends {b : JobBuffer ε σ J P} {E : ε → Prop} {Q : σ → Prop} {capacity : Nat} {s : σ}
    {jobs : Nat → J} {ps : List P} (start : Q s)
    (fill : ∀ s j p, Q s → Ends E (fun _ => True) (b.fill s j p))
    (process : ∀ s j, Q s → Ends E (fun _ => True) (b.process s j))
    (commit : ∀ s j, Q s → Q (b.commit s j)) :
    Ends E (fun r => Q r.1) (b.run capacity s jobs ps) := by
  have hall : ∀ s jobs n, Q s → Ends E (fun _ => True) (b.processAll s jobs n) := by
    intro s jobs n hs
    apply Ends.foldlM trivial
    intro jobs _ i _
    exact (process s (jobs i) hs).bind fun _ _ => trivial
  have hcommit : ∀ s jobs n, Q s → Q (b.commitAll s jobs n) := by
    intro s jobs n hs
    exact List.foldlRecOn _ _ hs fun s hs i _ => commit s (jobs i) hs
  have hflush : ∀ s jobs n, Q s → Ends E (fun r => Q r.1) (b.flush s jobs n) :=
    fun s jobs n hs => (hall s jobs n hs).bind fun jobs' _ => hcommit s jobs' n hs
  have hquery : ∀ state, Q state.1 → ∀ p, Ends E (fun r => Q r.1) (b.query capacity state p) := by
    intro ⟨s, jobs, pending⟩ hs p
    refine (fill s (jobs pending) p hs).bind fun job _ => ?_
    dsimp only
    split
    · exact (hflush s _ _ hs).bind fun r hr => hr
    · exact hs
  refine (Ends.foldlM (P := fun state => Q state.1) start fun state hs p _ =>
    hquery state hs p).bind fun ⟨s, jobs, pending⟩ hs => ?_
  unfold finish
  dsimp only
  split
  · exact hflush s jobs pending hs
  · exact hs

/-- What a job is before and after it is processed, whatever its slot held before. A commit
leaves what the other jobs read. -/
structure Meaning (I O : Type u) where
  view : J → I
  result : J → O
  read : σ → P → Except ε I
  apply : σ → I → Except ε O
  put : σ → O → σ
  fill_view : ∀ s j p, (b.fill s j p).map view = read s p
  process_result : ∀ s j, (b.process s j).map result = apply s (view j)
  commit_put : ∀ s j, b.commit s j = put s (result j)
  read_put : ∀ s o p, (read (put s o) p).toOption = (read s p).toOption
  apply_put : ∀ s o i, (apply (put s o) i).toOption = (apply s i).toOption

namespace Meaning

variable {b} (m : b.Meaning I O)

/-- A job on its own, once it is read. -/
def item (s : σ) (i : I) : Except ε σ := do
  let o ← m.apply s i
  return m.put s o

/-- A job on its own. -/
def step (s : σ) (p : P) : Except ε σ := do
  let i ← m.read s p
  m.item s i

variable {m} {s s' : σ} {jobs jobs' : Nat → J} {pending n capacity : Nat} {is : List I} {p : P}

/-- What the pending slots hold. -/
def items (m : b.Meaning I O) (jobs : Nat → J) (n : Nat) : List I :=
  (List.range n).map fun i => m.view (jobs i)

theorem items_succ : m.items jobs (n + 1) = m.items jobs n ++ [m.view (jobs n)] := by
  rw [items, List.range_succ, List.map_append]
  rfl

/-- Slots further on are not pending. -/
theorem items_update {job : J} : m.items (Function.update jobs n job) n = m.items jobs n := by
  apply List.map_congr_left
  intro i hi
  have hlt := List.mem_range.mp hi
  rw [Function.update_of_ne (by omega)]

theorem item_ok {i : I} (h : m.item s i = .ok s') : ∃ o, m.apply s i = .ok o ∧ s' = m.put s o := by
  unfold item at h
  cases happly : m.apply s i with
  | error e =>
    rw [happly] at h
    exact absurd h nofun
  | ok o =>
    rw [happly] at h
    exact ⟨o, rfl, (Except.ok.inj h).symm⟩

/-- Jobs leave what other jobs read. -/
theorem items_frame (h : is.foldlM m.item s = .ok s') :
    (∀ p, (m.read s' p).toOption = (m.read s p).toOption) ∧
      ∀ i, (m.apply s' i).toOption = (m.apply s i).toOption := by
  induction is generalizing s with
  | nil =>
    cases h
    exact ⟨fun _ => rfl, fun _ => rfl⟩
  | cons i is ih =>
    rw [List.foldlM_cons] at h
    cases hi : m.item s i with
    | error e =>
      rw [hi] at h
      exact absurd h nofun
    | ok s₁ =>
      rw [hi] at h
      obtain ⟨o, -, rfl⟩ := item_ok hi
      obtain ⟨hread, happly⟩ := ih h
      exact ⟨fun p => (hread p).trans (m.read_put s o p),
        fun i => (happly i).trans (m.apply_put s o i)⟩

/-- A slot that is processed. -/
theorem process_cases (s : σ) (j : J) :
    (∃ e, b.process s j = .error e ∧ m.apply s (m.view j) = .error e) ∨
      ∃ j', b.process s j = .ok j' ∧ m.apply s (m.view j) = .ok (m.result j') := by
  have h := m.process_result s j
  cases hp : b.process s j with
  | error e =>
    rw [hp] at h
    exact .inl ⟨e, rfl, h.symm⟩
  | ok j' =>
    rw [hp] at h
    exact .inr ⟨j', rfl, h.symm⟩

/-- A slot that is filled. -/
theorem fill_cases (s : σ) (j : J) (p : P) :
    (∃ e, b.fill s j p = .error e ∧ m.read s p = .error e) ∨
      ∃ j', b.fill s j p = .ok j' ∧ m.read s p = .ok (m.view j') := by
  have h := m.fill_view s j p
  cases hf : b.fill s j p with
  | error e =>
    rw [hf] at h
    exact .inl ⟨e, rfl, h.symm⟩
  | ok j' =>
    rw [hf] at h
    exact .inr ⟨j', rfl, h.symm⟩

/-- To process all and then commit all is to do both for each in turn. -/
theorem processAll_cases (s : σ) (jobs : Nat → J) (n : Nat) :
    (∃ e e', b.processAll s jobs n = .error e ∧ (m.items jobs n).foldlM m.item s = .error e') ∨
      ∃ jobs', b.processAll s jobs n = .ok jobs' ∧ (∀ i, n ≤ i → jobs' i = jobs i) ∧
        (m.items jobs n).foldlM m.item s = .ok (b.commitAll s jobs' n) := by
  induction n with
  | zero => exact .inr ⟨jobs, rfl, fun _ _ => rfl, rfl⟩
  | succ n ih =>
    rw [processAll, List.range_succ, List.foldlM_append, ← processAll, items_succ,
      List.foldlM_append]
    simp only [List.foldlM_cons, List.foldlM_nil, bind_pure]
    rcases ih with ⟨e, e', hall, hitems⟩ | ⟨jobs', hall, hlater, hitems⟩
    · rw [hall, hitems]
      exact .inl ⟨e, e', rfl, rfl⟩
    · have hsame := (items_frame hitems).2 (m.view (jobs n))
      rw [hall, hitems, ok_bind, ok_bind, hlater n (Nat.le_refl n), item]
      rcases process_cases (m := m) s (jobs n) with ⟨e, hp, happly⟩ | ⟨j', hp, happly⟩
      · obtain ⟨e', herror⟩ := error_of_toOption hsame happly
        rw [hp, herror]
        exact .inl ⟨e, e', rfl, rfl⟩
      · rw [hp, ok_of_toOption hsame happly, ok_bind, ok_bind]
        refine .inr ⟨Function.update jobs' n j', rfl, fun i hi => ?_, ?_⟩
        · rw [Function.update_of_ne (by omega)]
          exact hlater i (by omega)
        · have hbefore : (List.range n).foldl
              (fun s i => b.commit s (Function.update jobs' n j' i)) s = b.commitAll s jobs' n := by
            apply List.foldl_ext
            intro s i hi
            have hlt := List.mem_range.mp hi
            rw [Function.update_of_ne (by omega)]
          have hcommit : b.commitAll s (Function.update jobs' n j') (n + 1) =
              m.put (b.commitAll s jobs' n) (m.result j') := by
            rw [commitAll, List.range_succ, List.foldl_append, hbefore, List.foldl_cons,
              List.foldl_nil, Function.update_self, m.commit_put]
          rw [hcommit]
          rfl

/-- A flush commits what is pending. -/
theorem flush_cases (s : σ) (jobs : Nat → J) (n : Nat) :
    (∃ e e', b.flush s jobs n = .error e ∧ (m.items jobs n).foldlM m.item s = .error e') ∨
      ∃ s' jobs', b.flush s jobs n = .ok (s', jobs') ∧
        (m.items jobs n).foldlM m.item s = .ok s' := by
  unfold flush
  rcases processAll_cases (m := m) s jobs n with
    ⟨e, e', hall, hitems⟩ | ⟨jobs', hall, -, hitems⟩
  · rw [hall]
    exact .inl ⟨e, e', rfl, hitems⟩
  · rw [hall]
    exact .inr ⟨_, jobs', rfl, hitems⟩

/-- With jobs pending, the rest of the run is theirs and then the loop without a buffer. -/
theorem rest_eq (ps : List P) (s : σ) (jobs : Nat → J) (pending : Nat) :
    ((do
      let state ← ps.foldlM (b.query capacity) (s, jobs, pending)
      b.finish state).map Prod.fst).toOption =
    (do
      let s ← (m.items jobs pending).foldlM m.item s
      ps.foldlM m.step s).toOption := by
  induction ps generalizing s jobs pending with
  | nil =>
    simp only [List.foldlM_nil, pure_bind, bind_pure, finish]
    by_cases hnone : pending ≠ 0
    · rw [if_pos hnone]
      rcases flush_cases (m := m) s jobs pending with ⟨e, e', hf, hi⟩ | ⟨s', jobs', hf, hi⟩
      · rw [hf, hi]
        rfl
      · rw [hf, hi]
        rfl
    · rw [if_neg hnone, not_not.mp hnone]
      rfl
  | cons p ps ih =>
    -- later jobs are filled before this one is processed, but they read the same
    have hread : ∀ s', (m.items jobs pending).foldlM m.item s = .ok s' →
        (m.read s' p).toOption = (m.read s p).toOption := fun s' h => (items_frame h).1 p
    rcases fill_cases (m := m) s (jobs pending) p with ⟨e, hf, hr⟩ | ⟨job, hf, hr⟩
    · have hquery : b.query capacity (s, jobs, pending) p = .error e := by
        rw [query, hf]
        rfl
      rw [List.foldlM_cons, hquery, error_bind, error_bind]
      cases hi : (m.items jobs pending).foldlM m.item s with
      | error e' => rfl
      | ok s' =>
        obtain ⟨e', herror⟩ := error_of_toOption (hread s' hi) hr
        have hstep : m.step s' p = .error e' := by
          rw [step, herror]
          rfl
        rw [ok_bind, List.foldlM_cons, hstep, error_bind]
        rfl
    · -- the job joins the pending ones
      have hjoin : (do
          let s ← (m.items jobs pending).foldlM m.item s
          (p :: ps).foldlM m.step s) = (do
          let s ← (m.items (Function.update jobs pending job) (pending + 1)).foldlM m.item s
          ps.foldlM m.step s) := by
        rw [items_succ, items_update, Function.update_self, List.foldlM_append]
        cases hi : (m.items jobs pending).foldlM m.item s with
        | error e' => rfl
        | ok s' =>
          have hstep : m.step s' p = m.item s' (m.view job) := by
            rw [step, ok_of_toOption (hread s' hi) hr]
            rfl
          rw [ok_bind, ok_bind, List.foldlM_cons, hstep, List.foldlM_cons]
          simp only [List.foldlM_nil, bind_pure]
      rw [hjoin]
      by_cases hfull : pending + 1 = capacity
      · rcases flush_cases (m := m) s (Function.update jobs pending job) (pending + 1) with
          ⟨e, e', hflush, hi⟩ | ⟨s', jobs', hflush, hi⟩
        · have hquery : b.query capacity (s, jobs, pending) p = .error e := by
            rw [query, hf, ok_bind, if_pos hfull, hflush]
            rfl
          rw [List.foldlM_cons, hquery, hi]
          rfl
        · have hquery : b.query capacity (s, jobs, pending) p = .ok (s', jobs', 0) := by
            rw [query, hf, ok_bind, if_pos hfull, hflush]
            rfl
          rw [List.foldlM_cons, hquery, hi]
          exact ih s' jobs' 0
      · have hquery : b.query capacity (s, jobs, pending) p =
            .ok (s, Function.update jobs pending job, pending + 1) := by
          rw [query, hf, ok_bind, if_neg hfull]
          rfl
        rw [List.foldlM_cons, hquery]
        exact ih s _ (pending + 1)

theorem step_eq (m : b.Meaning I O) (fresh : J) : m.step = b.alone fresh := by
  funext s p
  unfold step alone
  rcases fill_cases (m := m) s fresh p with ⟨e, hf, hr⟩ | ⟨job, hf, hr⟩
  · rw [hf, hr]
    rfl
  · rw [hf, hr, ok_bind, ok_bind, item]
    rcases process_cases (m := m) s job with ⟨e, hp, ha⟩ | ⟨job', hp, ha⟩
    · rw [hp, ha]
      rfl
    · rw [hp, ha, ok_bind, ok_bind, m.commit_put]

/-- The buffer does not show in what a run ends with. -/
theorem run_alone (m : b.Meaning I O) (fresh : J) (capacity : Nat) (s : σ) (jobs : Nat → J)
    (ps : List P) : ((b.run capacity s jobs ps).map Prod.fst).toOption =
      (ps.foldlM (b.alone fresh) s).toOption := by
  rw [← m.step_eq fresh]
  exact rest_eq ps s jobs 0

end Meaning

end JobBuffer

end NssFactory

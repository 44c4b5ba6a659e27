import Mathlib.Algebra.Group.Nat.Defs
import Mathlib.Data.List.Induction
import Mathlib.Data.List.Nodup
import Mathlib.Data.List.Perm.Basic
import Mathlib.Logic.Function.Iterate

/-!
# The ordered commit queue

`OrderedCommitQueue` of `nss/cpu_batch.hpp`: results are pushed in any order and committed in
the order of their ordinals. A commit may throw; `commits i` says whether commit `i` of a call
returns.

* `call_kept`: a call keeps `Kept`, whatever its commits do.
* `commits_in_order`: what holds after any calls.

Ordinals are unsigned, so the one after the last is zero: nothing is pending then, since a
pending ordinal is at or behind the next one.
-/

namespace NssFactory.Cpu

structure Item (R : Type*) where
  ordinal : UInt64
  result : R
  deriving DecidableEq

structure OrderedCommitQueue (R : Type*) where
  nextOrdinal : UInt64
  window : UInt64
  pending : List (Item R)
  deriving DecidableEq

namespace OrderedCommitQueue

variable {R : Type*}

def new (firstOrdinal window : UInt64) : OrderedCommitQueue R := ⟨firstOrdinal, max 1 window, []⟩

def push (q : OrderedCommitQueue R) (ordinal : UInt64) (result : R) :
    Bool × OrderedCommitQueue R :=
  if ordinal < q.nextOrdinal then (false, q)
  else if ordinal - q.nextOrdinal > q.window then (false, q)
  else if q.pending.any (·.ordinal == ordinal) then (false, q)
  else (true, { q with pending := q.pending ++ [⟨ordinal, result⟩] })

/-- The pending result that is committed next. -/
def due (q : OrderedCommitQueue R) : Option (Item R) :=
  q.pending.find? (·.ordinal == q.nextOrdinal)

/-- The queue once the commit of the due result has returned. -/
def commitNext (q : OrderedCommitQueue R) : OrderedCommitQueue R :=
  { q with
    pending := q.pending.eraseP (·.ordinal == q.nextOrdinal)
    nextOrdinal := q.nextOrdinal + 1 }

/-- A drain: the queue, what it has committed (their number is what it returns), and whether a
commit threw. -/
structure Drained (R : Type*) where
  queue : OrderedCommitQueue R
  committed : List (Item R)
  threw : Bool

def drainLoop (commits : Nat → Bool) : Nat → Drained R → Drained R
  | 0, s => s
  | rounds + 1, s =>
    match s.queue.due with
    | none => s
    | some item =>
      if commits s.committed.length then
        drainLoop commits rounds ⟨s.queue.commitNext, s.committed ++ [item], false⟩
      else { s with threw := true }

def drain (q : OrderedCommitQueue R) (commits : Nat → Bool) : Drained R :=
  drainLoop commits (q.pending.length + 1) ⟨q, [], false⟩

/-- A forgotten ordinal leaves the later results pending. -/
def finish (q : OrderedCommitQueue R) (commits : Nat → Bool) : Drained R := q.drain commits

def complete (q : OrderedCommitQueue R) : Bool := q.pending.isEmpty

/-- A queue, the pushes it has accepted and the results it has committed. -/
structure History (R : Type*) where
  queue : OrderedCommitQueue R
  accepted : List (Item R)
  committed : List (Item R)

inductive Call (R : Type*) where
  | push (ordinal : UInt64) (result : R)
  | drain (commits : Nat → Bool)
  | finish (commits : Nat → Bool)

namespace History

def start (firstOrdinal window : UInt64) : History R := ⟨new firstOrdinal window, [], []⟩

def drained (s : History R) (d : Drained R) : History R :=
  { s with queue := d.queue, committed := s.committed ++ d.committed }

def call (s : History R) : Call R → History R
  | .push ordinal result =>
    let (accepted, queue) := s.queue.push ordinal result
    { s with queue, accepted := if accepted then s.accepted ++ [⟨ordinal, result⟩] else s.accepted }
  | .drain commits => s.drained (s.queue.drain commits)
  | .finish commits => s.drained (s.queue.finish commits)

def run (firstOrdinal window : UInt64) (calls : List (Call R)) : History R :=
  calls.foldl call (start firstOrdinal window)

end History

/-! ## One commit -/

variable {q : OrderedCommitQueue R} {item : Item R} {commits : Nat → Bool}

theorem due_eq (h : q.due = some item) : item ∈ q.pending ∧ item.ordinal = q.nextOrdinal :=
  ⟨List.mem_of_find?_eq_some h, by simpa using List.find?_some h⟩

theorem find?_eraseP_perm {A : Type*} {l : List A} {p : A → Bool} {a : A}
    (h : l.find? p = some a) : l.Perm (a :: l.eraseP p) := by
  induction l with
  | nil => exact absurd h nofun
  | cons b l ih =>
    by_cases hb : p b = true
    · rw [List.find?_cons_of_pos hb] at h
      rw [List.eraseP_cons_of_pos hb, Option.some.inj h]
    · rw [List.find?_cons_of_neg hb] at h
      rw [List.eraseP_cons_of_neg hb]
      exact ((ih h).cons b).trans (.swap a b _)

/-- A commit takes out the due result and no other. -/
theorem commitNext_perm (h : q.due = some item) :
    q.pending.Perm (item :: q.commitNext.pending) := find?_eraseP_perm h

theorem push_false_iff {ordinal : UInt64} {result : R} :
    (q.push ordinal result).1 = false ↔ ordinal < q.nextOrdinal ∨
      q.window < ordinal - q.nextOrdinal ∨ ∃ item ∈ q.pending, item.ordinal = ordinal := by
  unfold push
  by_cases hlt : ordinal < q.nextOrdinal
  · simp [hlt]
  · by_cases hwin : ordinal - q.nextOrdinal > q.window
    · simp [hlt, hwin]
    · by_cases hany : ∃ item ∈ q.pending, item.ordinal = ordinal
      · simp [hlt, hwin, hany]
      · simp [hlt, hwin, hany]

theorem push_refused {ordinal : UInt64} {result : R} (h : (q.push ordinal result).1 = false) :
    (q.push ordinal result).2 = q := by
  unfold push at h ⊢
  split
  · rfl
  · split
    · rfl
    · split
      · rfl
      · simp_all

theorem push_accepted {ordinal : UInt64} {result : R} (h : (q.push ordinal result).1 = true) :
    (q.push ordinal result).2 = { q with pending := q.pending ++ [⟨ordinal, result⟩] } := by
  unfold push at h ⊢
  split
  · simp_all
  · split
    · simp_all
    · split
      · simp_all
      · rfl

/-! ## A drain -/

/-- A drain on its way: the commits that have returned are those of the due results in order. -/
structure Draining (commits : Nat → Bool) (q : OrderedCommitQueue R) (s : Drained R) : Prop where
  queue : s.queue = commitNext^[s.committed.length] q
  returned : ∀ i < s.committed.length, commits i = true
  length : s.queue.pending.length + s.committed.length = q.pending.length

/-- A drain that has ended: a commit threw and its result is still due, or nothing is due. -/
structure Ended (commits : Nat → Bool) (q : OrderedCommitQueue R) (s : Drained R) : Prop
    extends Draining commits q s where
  thrown : s.threw = true →
    (∃ item, s.queue.due = some item) ∧ commits s.committed.length = false
  done : s.threw = false → s.queue.due = none

theorem drainLoop_ended {rounds : Nat} {s : Drained R} (h : Draining commits q s)
    (hrounds : s.queue.pending.length < rounds) (hs : s.threw = false) :
    Ended commits q (drainLoop commits rounds s) := by
  induction rounds generalizing s with
  | zero => omega
  | succ rounds ih =>
    cases hdue : s.queue.due with
    | none =>
      simp only [drainLoop, hdue]
      exact ⟨h, fun ht => by simp [hs] at ht, fun _ => hdue⟩
    | some item =>
      cases hc : commits s.committed.length with
      | true =>
        simp only [drainLoop, hdue, hc, if_true]
        have hlen := (commitNext_perm hdue).length_eq
        rw [List.length_cons] at hlen
        refine ih ⟨?_, fun i hi => ?_, ?_⟩ (by dsimp only; omega) rfl
        · rw [List.length_append, List.length_singleton, Function.iterate_succ_apply', ← h.queue]
        · rw [List.length_append, List.length_singleton] at hi
          rcases Nat.lt_succ_iff_lt_or_eq.mp hi with hi | rfl
          · exact h.returned i hi
          · exact hc
        · have := h.length
          rw [List.length_append, List.length_singleton]
          dsimp only
          omega
      | false =>
        simp only [drainLoop, hdue, hc, Bool.false_eq_true, if_false]
        exact ⟨⟨h.queue, h.returned, h.length⟩, fun _ => ⟨⟨item, hdue⟩, hc⟩, nofun⟩

/-- A drain commits what is due until nothing is, or until a commit throws: that one leaves the
queue as it was. -/
theorem drain_ended (q : OrderedCommitQueue R) (commits : Nat → Bool) :
    Ended commits q (q.drain commits) :=
  drainLoop_ended ⟨rfl, nofun, rfl⟩ (Nat.lt_succ_self _) rfl

/-! ## What the calls keep -/

/-- The results that are pending have ordinals of their own in the window, and the committed ones
are the first ordinals in order. -/
structure Kept (firstOrdinal window : UInt64) (s : History R) : Prop where
  window : s.queue.window = max 1 window
  next : s.queue.nextOrdinal = firstOrdinal + UInt64.ofNat s.committed.length
  ordinals : s.committed.map Item.ordinal =
    (List.range s.committed.length).map fun i => firstOrdinal + UInt64.ofNat i
  apart : (s.queue.pending.map Item.ordinal).Nodup
  within : ∀ item ∈ s.queue.pending, s.queue.nextOrdinal.toNat ≤ item.ordinal.toNat ∧
    item.ordinal.toNat ≤ s.queue.nextOrdinal.toNat + s.queue.window.toNat
  accepted : s.accepted.Perm (s.committed ++ s.queue.pending)

variable {firstOrdinal window : UInt64} {s : History R}

theorem Kept.push (h : Kept firstOrdinal window s) (ordinal : UInt64) (result : R) :
    Kept firstOrdinal window (s.call (.push ordinal result)) := by
  cases hp : (s.queue.push ordinal result).1 with
  | false =>
    have : s.call (.push ordinal result) = s := by
      simp [History.call, hp, push_refused hp]
    rwa [this]
  | true =>
    have hnot : ¬((s.queue.push ordinal result).1 = false) := by simp [hp]
    rw [push_false_iff, not_or, not_or] at hnot
    obtain ⟨hlt, hwin, hany⟩ := hnot
    have hcall : s.call (.push ordinal result) =
        { s with
          queue := { s.queue with pending := s.queue.pending ++ [⟨ordinal, result⟩] }
          accepted := s.accepted ++ [⟨ordinal, result⟩] } := by
      simp [History.call, hp, push_accepted hp]
    rw [hcall]
    refine ⟨h.window, h.next, h.ordinals, ?_, ?_, ?_⟩
    · rw [List.map_append, List.nodup_append]
      refine ⟨h.apart, List.nodup_singleton _, fun a ha b hb hab => hany ?_⟩
      obtain ⟨item, hitem, rfl⟩ := List.mem_map.mp ha
      exact ⟨item, hitem, by simpa [hab] using hb⟩
    · intro item hitem
      rcases List.mem_append.mp hitem with hitem | hitem
      · exact h.within item hitem
      · obtain rfl := List.mem_singleton.mp hitem
        have hle : s.queue.nextOrdinal ≤ ordinal := UInt64.not_lt.mp hlt
        have hsub := UInt64.toNat_sub_of_le _ _ hle
        have hwin' := UInt64.le_iff_toNat_le.mp (UInt64.not_lt.mp hwin)
        have hle' := UInt64.le_iff_toNat_le.mp hle
        dsimp only
        omega
    · rw [← List.append_assoc]
      exact h.accepted.append_right _

/-- One commit that returned. -/
theorem Kept.commitNext (h : Kept firstOrdinal window s) (hdue : s.queue.due = some item) :
    Kept firstOrdinal window
      { s with queue := s.queue.commitNext, committed := s.committed ++ [item] } := by
  have hperm := commitNext_perm hdue
  have hnodup : (item.ordinal :: s.queue.commitNext.pending.map Item.ordinal).Nodup :=
    (hperm.map Item.ordinal).nodup_iff.mp h.apart
  obtain ⟨hnot, hrest⟩ := List.nodup_cons.mp hnodup
  have heq := (due_eq hdue).2
  refine ⟨h.window, ?_, ?_, hrest, ?_, ?_⟩
  · change s.queue.nextOrdinal + 1 = _
    rw [h.next, List.length_append, List.length_singleton, UInt64.ofNat_add]
    exact UInt64.add_assoc _ _ _
  · rw [List.length_append, List.length_singleton, List.range_succ, List.map_append,
      List.map_append, h.ordinals, List.map_singleton, List.map_singleton, heq, h.next]
  · intro other hother
    have hmem : other ∈ s.queue.pending := hperm.mem_iff.mpr (List.mem_cons_of_mem _ hother)
    have hwithin := h.within other hmem
    have hne : other.ordinal.toNat ≠ s.queue.nextOrdinal.toNat := fun h =>
      hnot (heq ▸ UInt64.toNat_inj.mp h ▸ List.mem_map_of_mem hother)
    have hbound := other.ordinal.toNat_lt
    have hsucc : s.queue.commitNext.nextOrdinal.toNat = s.queue.nextOrdinal.toNat + 1 := by
      change (s.queue.nextOrdinal + 1).toNat = _
      rw [UInt64.toNat_add]
      exact Nat.mod_eq_of_lt (by simp; omega)
    have hw : s.queue.commitNext.window = s.queue.window := rfl
    dsimp only
    rw [hsucc, hw]
    omega
  · refine h.accepted.trans ?_
    rw [List.append_assoc]
    exact hperm.append_left _

theorem Kept.drainLoop {rounds : Nat} {d : Drained R}
    (h : Kept firstOrdinal window (s.drained d)) :
    Kept firstOrdinal window (s.drained (drainLoop commits rounds d)) := by
  induction rounds generalizing d with
  | zero => exact h
  | succ rounds ih =>
    cases hdue : d.queue.due with
    | none =>
      simp only [OrderedCommitQueue.drainLoop, hdue]
      exact h
    | some item =>
      cases hc : commits d.committed.length with
      | true =>
        simp only [OrderedCommitQueue.drainLoop, hdue, hc, if_true]
        apply ih
        have := h.commitNext hdue
        simpa only [History.drained, List.append_assoc] using this
      | false =>
        simp only [OrderedCommitQueue.drainLoop, hdue, hc, Bool.false_eq_true, if_false]
        exact h

theorem Kept.drained (h : Kept firstOrdinal window s) (commits : Nat → Bool) :
    Kept firstOrdinal window (s.drained (s.queue.drain commits)) := by
  apply Kept.drainLoop
  simpa only [History.drained, List.append_nil] using h

/-- Every call keeps the queue as it should be. -/
theorem call_kept (h : Kept firstOrdinal window s) (call : Call R) :
    Kept firstOrdinal window (s.call call) := by
  cases call with
  | push ordinal result => exact h.push ordinal result
  | drain commits => exact h.drained commits
  | finish commits => exact h.drained commits

theorem run_kept (calls : List (Call R)) :
    Kept firstOrdinal window (History.run firstOrdinal window calls) := by
  have hstart : Kept firstOrdinal window (History.start (R := R) firstOrdinal window) :=
    ⟨rfl, by simp [History.start, new], rfl, List.nodup_nil, nofun, List.Perm.refl _⟩
  unfold History.run
  induction calls using List.reverseRecOn with
  | nil => exact hstart
  | append_singleton calls call ih =>
    rw [List.foldl_append]
    exact call_kept ih call

/-- Committed ordinals are behind the next one, while the ordinals do not start again at zero. -/
theorem Kept.committed_lt (h : Kept firstOrdinal window s)
    (hwrap : firstOrdinal.toNat + s.committed.length < 2 ^ 64) (hitem : item ∈ s.committed) :
    item.ordinal < s.queue.nextOrdinal := by
  have hmem : item.ordinal ∈ s.committed.map Item.ordinal := List.mem_map_of_mem hitem
  rw [h.ordinals] at hmem
  obtain ⟨i, hi, heq⟩ := List.mem_map.mp hmem
  have hlt := List.mem_range.mp hi
  have hto : ∀ k, k ≤ s.committed.length →
      (firstOrdinal + UInt64.ofNat k).toNat = firstOrdinal.toNat + k := by
    intro k hk
    rw [UInt64.toNat_add, UInt64.toNat_ofNat']
    omega
  rw [← heq, h.next, UInt64.lt_iff_toNat_lt, hto i (Nat.le_of_lt hlt), hto _ (Nat.le_refl _)]
  omega

/-- **In order, exactly once.** After any calls the committed ordinals are the consecutive ones
from the first; what was accepted is committed or pending, and not both; the pending ordinals
are distinct and at most the window behind the next one; a push is refused exactly outside that
range or for a pending ordinal, and then changes nothing; a drain commits what is due until
nothing is, and one that a commit stops leaves that result due. -/
theorem commits_in_order (calls : List (Call R)) :
    let s := History.run firstOrdinal window calls
    s.committed.map Item.ordinal =
        (List.range s.committed.length).map (fun i => firstOrdinal + UInt64.ofNat i) ∧
      s.accepted.Perm (s.committed ++ s.queue.pending) ∧
      s.queue.nextOrdinal = firstOrdinal + UInt64.ofNat s.committed.length ∧
      (firstOrdinal.toNat + s.committed.length < 2 ^ 64 →
        ∀ item ∈ s.committed, item.ordinal < s.queue.nextOrdinal) ∧
      (s.queue.pending.map Item.ordinal).Nodup ∧
      (∀ item ∈ s.queue.pending, s.queue.nextOrdinal.toNat ≤ item.ordinal.toNat ∧
        item.ordinal.toNat ≤ s.queue.nextOrdinal.toNat + (max 1 window).toNat) ∧
      (∀ ordinal result,
        ((s.queue.push ordinal result).1 = false ↔ ordinal < s.queue.nextOrdinal ∨
          max 1 window < ordinal - s.queue.nextOrdinal ∨
          ∃ item ∈ s.queue.pending, item.ordinal = ordinal) ∧
        ((s.queue.push ordinal result).1 = false → (s.queue.push ordinal result).2 = s.queue)) ∧
      ∀ commits, Ended commits s.queue (s.queue.drain commits) ∧
        s.queue.finish commits = s.queue.drain commits ∧
        (((s.queue.finish commits).queue.complete = true) →
          (s.accepted.Perm (s.committed ++ (s.queue.finish commits).committed))) := by
  intro s
  have h : Kept firstOrdinal window s := run_kept calls
  refine ⟨h.ordinals, h.accepted, h.next, fun hwrap item hitem => h.committed_lt hwrap hitem,
    h.apart, fun item hitem => h.window ▸ h.within item hitem, fun ordinal result => ?_,
    fun commits => ⟨drain_ended _ commits, rfl, fun hcomplete => ?_⟩⟩
  · exact ⟨h.window ▸ push_false_iff, push_refused⟩
  · have hdrained := (h.drained commits).accepted
    have hnil : (s.queue.drain commits).queue.pending = [] := List.isEmpty_iff.mp hcomplete
    simpa [History.drained, hnil, finish] using hdrained

/-- A result a whole window behind the next one is accepted, and a finish returns with it
pending. -/
theorem accepts_whole_window :
    ((OrderedCommitQueue.new 10 2 : OrderedCommitQueue Nat).push 12 0).1 = true ∧
      (((new 10 2 : OrderedCommitQueue Nat).push 12 0).2.finish fun _ => true).threw = false ∧
      (((new 10 2 : OrderedCommitQueue Nat).push 12 0).2.finish fun _ => true).queue.complete =
        false := by
  decide

end OrderedCommitQueue

end NssFactory.Cpu

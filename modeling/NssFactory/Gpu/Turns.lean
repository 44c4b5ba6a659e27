import Mathlib.Algebra.GroupWithZero.Nat
import Mathlib.Data.List.Basic
import NssFactory.Lib.Steps

/-!
# Tickets and chains of a rolling state

Both group drivers give the chunks of a rolling state tickets when they are planned, and run
them in ticket order (`RollTurn` in `cuda/common/group_driver.cpp` and
`vulkan/common/group_driver.cpp`). `RollState.Step` is what a request can do to one rolling
state under `roll_mu`; the drivers add when a slot or a lane is free.

`Sound` is the invariant. `InOrder` and `Advances` say what it gives for a state that a run
reaches and for the next step from there.
-/

namespace NssFactory.Tickets

/-- Where a turn is: planned; `enter` returned, or threw; its destructor has waited for its
ticket without entering; left; finished as failed; failed in the wait after it was left. -/
inductive Phase where
  | planned | entered | refused | waited | left | failed | late
  deriving DecidableEq, Repr

namespace Phase

/-- `entered` is set and the turn is not finished. -/
def holds : Phase → Bool
  | .entered | .refused => true
  | _ => false

/-- Between its ticket's turn and `finish`. -/
def inside : Phase → Bool
  | .entered | .refused | .waited => true
  | _ => false

/-- `finish` has passed its ticket on. -/
def served : Phase → Bool
  | .left | .failed | .late => true
  | _ => false

def lost : Phase → Bool
  | .failed | .late => true
  | _ => false

theorem served_of_lost {p : Phase} (h : p.lost = true) : p.served = true := by
  cases p <;> first | rfl | cases h

end Phase

structure RollTurn where
  plane : Nat
  start : Int
  count : Int
  carry : Bool
  ticket : Nat
  chain : Nat
  phase : Phase

/-- What the tickets need of a rolling state, and its turns in the order they were planned. -/
structure RollState where
  plane : Option Nat
  nextStart : Int
  issued : Nat
  serving : Nat
  chain : Nat
  failedChain : Option Nat
  turns : List RollTurn

/-- The steps of a rolling state; a turn is named by its place among the planned ones. -/
inductive Event where
  | plan (plane : Nat) (start count : Int) (carry : Bool)
  | enter (n : Nat) (ok : Bool)
  | wait (n : Nat)
  | leave (n : Nat)
  | fail (n : Nat)
  | failLate (n : Nat)

/-- The turn whose ticket a step passes on. -/
def Event.finished : Event → Option Nat
  | .leave n | .fail n => some n
  | _ => none

/-- The turn that a step lets in, if only to be refused. -/
def Event.entered : Event → Option Nat
  | .enter n _ => some n
  | _ => none

namespace RollState

def init : RollState where
  plane := none
  nextStart := -1
  issued := 0
  serving := 0
  chain := 0
  failedChain := none
  turns := []

variable (r : RollState)

/-- The chunk at `start` can carry on after the planned ones. -/
def carriesOn (plane : Nat) (start : Int) : Bool :=
  decide (r.plane = some plane ∧ r.nextStart = start ∧ r.failedChain ≠ some r.chain)

def planTurn (plane : Nat) (start count : Int) (carry : Bool) : RollState :=
  let chain := if carry then r.chain else r.chain + 1
  { r with
    plane := some plane
    nextStart := start + count
    issued := r.issued + 1
    chain := chain
    turns := r.turns ++ [⟨plane, start, count, carry, r.issued, chain, .planned⟩] }

def setPhase (n : Nat) (phase : Phase) : RollState :=
  { r with turns := r.turns.modify n fun t => { t with phase := phase } }

/-- `finish` of turn `n` of `chain`. -/
def finish (n chain : Nat) (failed : Bool) : RollState :=
  { r.setPhase n (if failed then .failed else .left) with
    failedChain := if failed then some chain else r.failedChain
    nextStart := if failed ∧ r.chain = chain then -1 else r.nextStart
    serving := r.serving + 1 }

/-- `fail_after_leave` of turn `n` of `chain`: an older chain's failure never clears the mark of
a newer one. -/
def failAfterLeave (n chain : Nat) : RollState :=
  { r.setPhase n .late with
    failedChain := if ∀ c ∈ r.failedChain, c < chain then some chain else r.failedChain
    nextStart := if r.chain = chain then -1 else r.nextStart }

/-- What a request does to a rolling state while it holds `roll_mu`. Entering may be refused for
another state's chain too, where turns of several states enter together. -/
inductive Step : RollState → Event → RollState → Prop
  | plan {r : RollState} {plane : Nat} {start count : Int} {carry : Bool} :
      (carry = true → r.carriesOn plane start = true) →
      Step r (.plan plane start count carry) (r.planTurn plane start count carry)
  | enter {r : RollState} {n : Nat} {t : RollTurn} {ok : Bool} :
      r.turns[n]? = some t → t.phase = .planned → r.serving = t.ticket →
      (ok = true → r.failedChain ≠ some t.chain) →
      Step r (.enter n ok) (r.setPhase n (if ok then .entered else .refused))
  | wait {r : RollState} {n : Nat} {t : RollTurn} :
      r.turns[n]? = some t → t.phase = .planned → r.serving = t.ticket →
      Step r (.wait n) (r.setPhase n .waited)
  | leave {r : RollState} {n : Nat} {t : RollTurn} :
      r.turns[n]? = some t → t.phase = .entered →
      Step r (.leave n) (r.finish n t.chain false)
  | fail {r : RollState} {n : Nat} {t : RollTurn} :
      r.turns[n]? = some t → t.phase.inside = true →
      Step r (.fail n) (r.finish n t.chain true)
  | failLate {r : RollState} {n : Nat} {t : RollTurn} :
      r.turns[n]? = some t → t.phase = .left →
      Step r (.failLate n) (r.failAfterLeave n t.chain)

end RollState

/-! ## The invariant -/

/-- The planned turns of a rolling state, and what it remembers of the last one. -/
structure Line (turns : List RollTurn) (issued chain : Nat) (plane : Option Nat) : Prop where
  length_eq : turns.length = issued
  ticket_eq : ∀ (n : Nat) (t : RollTurn), turns[n]? = some t → t.ticket = n
  chain_mono : ∀ (m n : Nat) (p t : RollTurn), m ≤ n → turns[m]? = some p → turns[n]? = some t →
    p.chain ≤ t.chain
  last : ∀ (n : Nat) (t : RollTurn), turns[n]? = some t → n + 1 = issued →
    t.chain = chain ∧ plane = some t.plane
  idle : issued = 0 → plane = none
  carried : ∀ (n : Nat) (t : RollTurn), turns[n]? = some t → t.carry = true →
    ∃ (m : Nat) (p : RollTurn), n = m + 1 ∧ turns[m]? = some p ∧ p.plane = t.plane ∧
      p.start + p.count = t.start ∧ p.chain = t.chain

/-- A rolling state whose tickets, chains and failure mark agree with its turns. -/
structure Sound (r : RollState) : Prop where
  line : Line r.turns r.issued r.chain r.plane
  serving_le : r.serving ≤ r.issued
  served : ∀ (n : Nat) (t : RollTurn), r.turns[n]? = some t →
    (t.phase.served = true ↔ n < r.serving)
  inside : ∀ (n : Nat) (t : RollTurn), r.turns[n]? = some t → t.phase.inside = true →
    n = r.serving
  -- the mark stops the chain of the last turn where `next_start` does not
  ends : ∀ (n : Nat) (t : RollTurn), r.turns[n]? = some t → n + 1 = r.issued →
    r.nextStart = t.start + t.count ∨ r.failedChain = some r.chain
  marked : ∀ c, r.failedChain = some c →
    ∃ (n : Nat) (t : RollTurn), r.turns[n]? = some t ∧ t.chain = c ∧ t.phase.lost = true
  lost : ∀ (n : Nat) (t : RollTurn), r.turns[n]? = some t → t.phase.lost = true →
    ∃ c, r.failedChain = some c ∧ t.chain ≤ c

section Sound

variable {r : RollState} {m n : Nat} {t p : RollTurn} {phase : Phase}

theorem setPhase_turn : (r.setPhase n phase).turns[m]? = some t ↔
    ∃ u, r.turns[m]? = some u ∧ t = if m = n then { u with phase := phase } else u := by
  rw [RollState.setPhase, List.getElem?_modify]
  cases r.turns[m]? with
  | none => simp
  | some u =>
    by_cases h : m = n
    · subst h
      simp [eq_comm]
    · simp [h, Ne.symm h, eq_comm]

/-- A turn after `setPhase` is the turn before but for its phase. -/
theorem setPhase_plan (h : (r.setPhase n phase).turns[m]? = some t) :
    ∃ u, r.turns[m]? = some u ∧ t = { u with phase := t.phase } ∧
      (m = n → t.phase = phase) ∧ (m ≠ n → t = u) := by
  obtain ⟨u, hu, rfl⟩ := setPhase_turn.mp h
  refine ⟨u, hu, ?_⟩
  by_cases hmn : m = n
  · rw [if_pos hmn]
    exact ⟨rfl, fun _ => rfl, fun hne => absurd hmn hne⟩
  · rw [if_neg hmn]
    exact ⟨rfl, fun heq => absurd heq hmn, fun _ => rfl⟩

theorem setPhase_ne (h : r.turns[m]? = some t) (hne : m ≠ n) :
    (r.setPhase n phase).turns[m]? = some t :=
  setPhase_turn.mpr ⟨t, h, (if_neg hne).symm⟩

theorem setPhase_self (h : r.turns[n]? = some t) :
    (r.setPhase n phase).turns[n]? = some { t with phase := phase } :=
  setPhase_turn.mpr ⟨t, h, (if_pos rfl).symm⟩

theorem planTurn_turn {plane : Nat} {start count : Int} {carry : Bool} (hs : Sound r) :
    (r.planTurn plane start count carry).turns[m]? = some t ↔ r.turns[m]? = some t ∨
      m = r.issued ∧ t = ⟨plane, start, count, carry, r.issued,
        if carry then r.chain else r.chain + 1, .planned⟩ := by
  rw [RollState.planTurn, ← hs.line.length_eq]
  rcases Nat.lt_trichotomy m r.turns.length with h | h | h
  · rw [List.getElem?_append_left h]
    simp [Nat.ne_of_lt h]
  · subst h
    simp [eq_comm]
  · rw [List.getElem?_eq_none (by simp; omega), List.getElem?_eq_none (by omega)]
    simp [Nat.ne_of_gt h]

/-- Phases are no part of the line. -/
theorem Line.setPhase (h : Line r.turns r.issued r.chain r.plane) :
    Line (r.setPhase n phase).turns r.issued r.chain r.plane where
  length_eq := by simp [RollState.setPhase, h.length_eq]
  ticket_eq m u hu := by
    obtain ⟨v, hv, heq, -⟩ := setPhase_plan hu
    rw [heq]
    exact h.ticket_eq m v hv
  chain_mono m k p u hmk hp hu := by
    obtain ⟨v, hv, heq, -⟩ := setPhase_plan hp
    obtain ⟨w, hw, heq', -⟩ := setPhase_plan hu
    rw [heq, heq']
    exact h.chain_mono m k v w hmk hv hw
  last m u hu hm := by
    obtain ⟨v, hv, heq, -⟩ := setPhase_plan hu
    rw [heq]
    exact h.last m v hv hm
  idle := h.idle
  carried m u hu hcarry := by
    obtain ⟨v, hv, heq, -⟩ := setPhase_plan hu
    rw [heq] at hcarry ⊢
    obtain ⟨k, q, hk, hq, hplane, hend, hchain⟩ := h.carried m v hv hcarry
    refine ⟨k, _, hk, setPhase_turn.mpr ⟨q, hq, rfl⟩, ?_⟩
    split <;> exact ⟨hplane, hend, hchain⟩

namespace Sound

theorem lt_issued (h : Sound r) (ht : r.turns[n]? = some t) : n < r.issued := by
  rw [← h.line.length_eq]
  exact (List.getElem?_eq_some_iff.mp ht).1

theorem turn (h : Sound r) (hn : n < r.issued) : ∃ t, r.turns[n]? = some t := by
  rw [← h.line.length_eq] at hn
  exact ⟨_, List.getElem?_eq_getElem hn⟩

theorem chain_le (h : Sound r) (ht : r.turns[n]? = some t) : t.chain ≤ r.chain := by
  have hn := h.lt_issued ht
  obtain ⟨u, hu⟩ := h.turn (n := r.issued - 1) (by omega)
  rw [← (h.line.last _ u hu (by omega)).1]
  exact h.line.chain_mono n (r.issued - 1) t u (by omega) ht hu

/-- A turn that is not served yet comes after every lost one. -/
theorem lost_chain_le (h : Sound r) (hp : r.turns[m]? = some p) (hlost : p.phase.lost = true)
    (ht : r.turns[n]? = some t) (hn : r.serving ≤ n) : p.chain ≤ t.chain := by
  have hm := (h.served m p hp).mp (Phase.served_of_lost hlost)
  exact h.line.chain_mono m n p t (by omega) hp ht

/-- The mark is no newer than a turn that is not served yet. -/
theorem mark_le (h : Sound r) {c : Nat} (hc : r.failedChain = some c)
    (ht : r.turns[n]? = some t) (hn : r.serving ≤ n) : c ≤ t.chain := by
  obtain ⟨m, p, hp, rfl, hlost⟩ := h.marked c hc
  exact h.lost_chain_le hp hlost ht hn

theorem mark_le_chain (h : Sound r) {c : Nat} (hc : r.failedChain = some c) : c ≤ r.chain := by
  obtain ⟨m, p, hp, rfl, -⟩ := h.marked c hc
  exact h.chain_le hp

/-- A turn of a lost chain that is not served yet finds the mark of its chain. -/
theorem mark_eq (h : Sound r) (hp : r.turns[m]? = some p) (hlost : p.phase.lost = true)
    (ht : r.turns[n]? = some t) (hn : r.serving ≤ n) (hchain : p.chain = t.chain) :
    r.failedChain = some t.chain := by
  obtain ⟨c, hc, hle⟩ := h.lost m p hp hlost
  have := h.mark_le hc ht hn
  rw [hc]
  congr 1
  omega

/-- No chunk carries on from a chain with a lost turn. -/
theorem not_carriesOn (h : Sound r) (hp : r.turns[m]? = some p) (hlost : p.phase.lost = true)
    (hchain : p.chain = r.chain) (plane : Nat) (start : Int) :
    r.carriesOn plane start = false := by
  obtain ⟨c, hc, hle⟩ := h.lost m p hp hlost
  have hcr := h.mark_le_chain hc
  have : c = r.chain := by omega
  simp [RollState.carriesOn, hc, this]

/-- The turn at the desk is the one that is served. -/
theorem at_serving (h : Sound r) (ht : r.turns[n]? = some t) (hserving : r.serving = t.ticket) :
    n = r.serving := by
  rw [hserving, h.line.ticket_eq n t ht]

theorem init : Sound .init := by
  have hnone : ∀ (n : Nat) (t : RollTurn), RollState.init.turns[n]? ≠ some t := by
    intro n t h
    simp [RollState.init] at h
  exact
    { line := ⟨rfl, fun _ _ h => absurd h (hnone _ _), fun _ _ _ _ _ h => absurd h (hnone _ _),
        fun _ _ h => absurd h (hnone _ _), fun _ => rfl, fun _ _ h => absurd h (hnone _ _)⟩
      serving_le := Nat.le_refl 0
      served := fun _ _ h => absurd h (hnone _ _)
      inside := fun _ _ h => absurd h (hnone _ _)
      ends := fun _ _ h => absurd h (hnone _ _)
      marked := nofun
      lost := fun _ _ h => absurd h (hnone _ _) }

theorem plan_line (h : Sound r) {plane : Nat} {start count : Int} {carry : Bool}
    (hc : carry = true → r.carriesOn plane start = true) :
    Line (r.planTurn plane start count carry).turns (r.issued + 1)
      (if carry then r.chain else r.chain + 1) (some plane) where
  length_eq := by simp [RollState.planTurn, h.line.length_eq]
  ticket_eq n t ht := by
    rcases (planTurn_turn h).mp ht with ht | ⟨rfl, rfl⟩
    · exact h.line.ticket_eq n t ht
    · rfl
  chain_mono m n p t hmn hp ht := by
    rcases (planTurn_turn h).mp ht with ht | ⟨rfl, rfl⟩
    · rcases (planTurn_turn h).mp hp with hp | ⟨rfl, rfl⟩
      · exact h.line.chain_mono m n p t hmn hp ht
      · have := h.lt_issued ht
        omega
    · rcases (planTurn_turn h).mp hp with hp | ⟨rfl, rfl⟩
      · have := h.chain_le hp
        simp only
        split <;> omega
      · exact Nat.le_refl _
  last n t ht hn := by
    rcases (planTurn_turn h).mp ht with ht | ⟨rfl, rfl⟩
    · have := h.lt_issued ht
      omega
    · exact ⟨rfl, rfl⟩
  idle hn := nomatch hn
  carried n t ht hcarry := by
    rcases (planTurn_turn h).mp ht with ht | ⟨rfl, rfl⟩
    · obtain ⟨m, p, hm, hp, hrest⟩ := h.line.carried n t ht hcarry
      exact ⟨m, p, hm, (planTurn_turn h).mpr (.inl hp), hrest⟩
    · -- the turn before is the last one planned, and its chain has not failed
      have hon := hc hcarry
      simp only [RollState.carriesOn, decide_eq_true_eq] at hon
      obtain ⟨hplane, hnext, hmark⟩ := hon
      have hpos : r.issued ≠ 0 := fun h0 => by
        rw [h.line.idle h0] at hplane
        cases hplane
      obtain ⟨p, hp⟩ := h.turn (n := r.issued - 1) (by omega)
      obtain ⟨hchain, hpl⟩ := h.line.last _ p hp (by omega)
      have hend := (h.ends _ p hp (by omega)).resolve_right hmark
      refine ⟨r.issued - 1, p, by omega, (planTurn_turn h).mpr (.inl hp), ?_, ?_, ?_⟩
      · rw [hplane] at hpl
        exact (Option.some.inj hpl).symm
      · rw [← hnext, hend]
      · simp only at hcarry
        simp [hcarry, hchain]

theorem plan (h : Sound r) {plane : Nat} {start count : Int} {carry : Bool}
    (hc : carry = true → r.carriesOn plane start = true) :
    Sound (r.planTurn plane start count carry) where
  line := h.plan_line hc
  serving_le := Nat.le_succ_of_le h.serving_le
  served n t ht := by
    rcases (planTurn_turn h).mp ht with ht | ⟨rfl, rfl⟩
    · exact h.served n t ht
    · have := h.serving_le
      simp only [Phase.served, Bool.false_eq_true, false_iff, Nat.not_lt]
      exact this
  inside n t ht hin := by
    rcases (planTurn_turn h).mp ht with ht | ⟨rfl, rfl⟩
    · exact h.inside n t ht hin
    · cases hin
  ends n t ht hn := by
    rcases (planTurn_turn h).mp ht with ht | ⟨rfl, rfl⟩
    · have := h.lt_issued ht
      simp only [RollState.planTurn] at hn
      omega
    · exact .inl rfl
  marked c hm := by
    obtain ⟨n, t, ht, hrest⟩ := h.marked c hm
    exact ⟨n, t, (planTurn_turn h).mpr (.inl ht), hrest⟩
  lost n t ht hlost := by
    rcases (planTurn_turn h).mp ht with ht | ⟨rfl, rfl⟩
    · exact h.lost n t ht hlost
    · cases hlost

/-- A turn takes the ticket that is served, entering or in its destructor. -/
theorem take (h : Sound r) (ht : r.turns[n]? = some t) (hp : t.phase = .planned)
    (hserving : r.serving = t.ticket) (hin : phase.inside = true) :
    Sound (r.setPhase n phase) := by
  have hn := h.at_serving ht hserving
  have hserved : phase.served = false := by cases phase <;> first | rfl | cases hin
  have hlost : phase.lost = false := by cases phase <;> first | rfl | cases hin
  refine ⟨h.line.setPhase, h.serving_le, ?_, ?_, ?_, ?_, ?_⟩
  · intro m u hu
    obtain ⟨v, hv, -, hself, hother⟩ := setPhase_plan hu
    by_cases hm : m = n
    · rw [hself hm, hserved, hm, hn]
      simp [RollState.setPhase]
    · rw [hother hm]
      exact h.served m v hv
  · intro m u hu hui
    obtain ⟨v, hv, -, -, hother⟩ := setPhase_plan hu
    by_cases hm : m = n
    · exact hm.trans hn
    · rw [hother hm] at hui
      exact h.inside m v hv hui
  · intro m u hu hm
    obtain ⟨v, hv, heq, -⟩ := setPhase_plan hu
    rw [heq]
    exact h.ends m v hv hm
  · intro c hc
    obtain ⟨m, u, hu, hchain, hl⟩ := h.marked c hc
    refine ⟨m, u, setPhase_ne hu ?_, hchain, hl⟩
    rintro rfl
    rw [ht] at hu
    cases hu
    rw [hp] at hl
    cases hl
  · intro m u hu hl
    obtain ⟨v, hv, -, hself, hother⟩ := setPhase_plan hu
    by_cases hm : m = n
    · rw [hself hm, hlost] at hl
      cases hl
    · rw [hother hm] at hl ⊢
      exact h.lost m v hv hl

/-- The turn that is served passes its ticket on. -/
theorem finish (h : Sound r) (ht : r.turns[n]? = some t) (hin : t.phase.inside = true)
    (failed : Bool) : Sound (r.finish n t.chain failed) := by
  have hn := h.inside n t ht hin
  have hlt := h.lt_issued ht
  have hunlost : t.phase.lost = false := by
    cases hph : t.phase <;> first | rfl | (rw [hph] at hin; cases hin)
  have hserving : r.serving + 1 ≤ r.issued := by omega
  refine ⟨h.line.setPhase, hserving, ?_, ?_, ?_, ?_, ?_⟩
  · intro m u hu
    obtain ⟨v, hv, -, hself, hother⟩ := setPhase_plan hu
    by_cases hm : m = n
    · rw [hself hm, hm, hn]
      cases failed <;> simp [RollState.finish, Phase.served]
    · rw [hother hm, h.served m v hv]
      simp only [RollState.finish]
      omega
  · intro m u hu hui
    obtain ⟨v, hv, -, hself, hother⟩ := setPhase_plan hu
    by_cases hm : m = n
    · rw [hself hm] at hui
      cases failed <;> cases hui
    · rw [hother hm] at hui
      have := h.inside m v hv hui
      omega
  · intro m u hu hm
    obtain ⟨v, hv, heq, -⟩ := setPhase_plan hu
    rw [heq]
    have hends := h.ends m v hv hm
    cases failed with
    | false => simpa [RollState.finish, RollState.setPhase] using hends
    | true =>
      by_cases hchain : r.chain = t.chain
      · exact .inr (by simp [RollState.finish, RollState.setPhase, hchain])
      · refine .inl ?_
        simp only [RollState.finish, RollState.setPhase, true_and, if_neg hchain]
        refine hends.resolve_right fun hmark => ?_
        have := h.mark_le hmark ht (Nat.le_of_eq hn.symm)
        have := h.chain_le ht
        omega
  · intro c hc
    cases failed with
    | false =>
      obtain ⟨m, u, hu, hchain, hl⟩ := h.marked c hc
      refine ⟨m, u, setPhase_ne hu ?_, hchain, hl⟩
      rintro rfl
      rw [ht] at hu
      cases hu
      rw [hunlost] at hl
      cases hl
    | true =>
      refine ⟨n, _, setPhase_self ht, ?_, rfl⟩
      simpa [RollState.finish] using hc
  · intro m u hu hl
    obtain ⟨v, hv, heq, hself, hother⟩ := setPhase_plan hu
    by_cases hm : m = n
    · subst hm
      rw [ht] at hv
      cases hv
      cases failed with
      | false =>
        rw [hself rfl] at hl
        cases hl
      | true =>
        rw [heq]
        exact ⟨t.chain, rfl, Nat.le_refl _⟩
    · rw [hother hm] at hl ⊢
      cases failed with
      | false => exact h.lost m v hv hl
      | true => exact ⟨t.chain, rfl, h.lost_chain_le hv hl ht (Nat.le_of_eq hn.symm)⟩

/-- The mark after `fail_after_leave`. -/
theorem late_mark (r : RollState) (n chain : Nat) :
    ∃ c, (r.failAfterLeave n chain).failedChain = some c ∧ chain ≤ c ∧
      (c = chain ∨ r.failedChain = some c) ∧ ∀ b, r.failedChain = some b → b ≤ c := by
  unfold RollState.failAfterLeave
  cases hmark : r.failedChain with
  | none => exact ⟨chain, by simp, Nat.le_refl _, .inl rfl, nofun⟩
  | some b =>
    by_cases hlt : b < chain
    · refine ⟨chain, by simp [hlt], Nat.le_refl _, .inl rfl, ?_⟩
      rintro _ ⟨⟩
      omega
    · refine ⟨b, by simp [hlt], by omega, .inr rfl, ?_⟩
      rintro _ ⟨⟩
      exact Nat.le_refl _

theorem failLate (h : Sound r) (ht : r.turns[n]? = some t) (hp : t.phase = .left) :
    Sound (r.failAfterLeave n t.chain) := by
  obtain ⟨c, hc, hle, hfrom, hold⟩ := late_mark r n t.chain
  refine ⟨h.line.setPhase, h.serving_le, ?_, ?_, ?_, ?_, ?_⟩
  · intro m u hu
    obtain ⟨v, hv, -, hself, hother⟩ := setPhase_plan hu
    by_cases hm : m = n
    · have hserved := h.served n t ht
      rw [hp] at hserved
      rw [hself hm, hm]
      exact hserved
    · rw [hother hm]
      exact h.served m v hv
  · intro m u hu hui
    obtain ⟨v, hv, -, hself, hother⟩ := setPhase_plan hu
    by_cases hm : m = n
    · rw [hself hm] at hui
      cases hui
    · rw [hother hm] at hui
      exact h.inside m v hv hui
  · intro m u hu hm
    obtain ⟨v, hv, heq, -⟩ := setPhase_plan hu
    rw [heq, hc]
    have hcr : c ≤ r.chain := by
      rcases hfrom with rfl | hmark
      · exact h.chain_le ht
      · exact h.mark_le_chain hmark
    by_cases hchain : r.chain = t.chain
    · refine .inr (congrArg some ?_)
      simp only [RollState.failAfterLeave, RollState.setPhase]
      omega
    · refine (h.ends m v hv hm).imp ?_ fun hmark => congrArg some ?_
      · simp only [RollState.failAfterLeave, RollState.setPhase, if_neg hchain]
        exact id
      · have := hold _ hmark
        simp only [RollState.failAfterLeave, RollState.setPhase]
        omega
  · intro b hb
    rw [hc] at hb
    cases hb
    rcases hfrom with rfl | hmark
    · exact ⟨n, _, setPhase_self ht, rfl, rfl⟩
    · obtain ⟨m, u, hu, hchain, hl⟩ := h.marked c hmark
      by_cases hm : m = n
      · subst hm
        rw [ht] at hu
        cases hu
        exact ⟨m, _, setPhase_self ht, hchain, rfl⟩
      · exact ⟨m, u, setPhase_ne hu hm, hchain, hl⟩
  · intro m u hu hl
    obtain ⟨v, hv, heq, hself, hother⟩ := setPhase_plan hu
    refine ⟨c, hc, ?_⟩
    by_cases hm : m = n
    · subst hm
      rw [ht] at hv
      cases hv
      rw [heq]
      exact hle
    · rw [hother hm] at hl ⊢
      obtain ⟨b, hb, hvb⟩ := h.lost m v hv hl
      have := hold b hb
      omega

theorem step (h : Sound r) {v : Event} {r' : RollState} (hs : r.Step v r') : Sound r' := by
  cases hs with
  | plan hc => exact h.plan hc
  | @enter n t ok ht hp hserving _ => exact h.take ht hp hserving (by cases ok <;> rfl)
  | wait ht hp hserving => exact h.take ht hp hserving rfl
  | leave ht hp => exact h.finish ht (by rw [hp]; rfl) false
  | fail ht hin => exact h.finish ht hin true
  | failLate ht hp => exact h.failLate ht hp

end Sound

/-- Turn `n` is between `enter` and `finish`. -/
def RollState.Holder (r : RollState) (n : Nat) : Prop :=
  ∃ t, r.turns[n]? = some t ∧ t.phase.holds = true

theorem holder_setPhase (h : (r.setPhase n phase).Holder m) :
    m = n ∧ phase.holds = true ∨ m ≠ n ∧ r.Holder m := by
  obtain ⟨t, ht, hholds⟩ := h
  obtain ⟨u, hu, -, hself, hother⟩ := setPhase_plan ht
  by_cases hm : m = n
  · rw [hself hm] at hholds
    exact .inl ⟨hm, hholds⟩
  · rw [hother hm] at hholds
    exact .inr ⟨hm, u, hu, hholds⟩

/-- Who is between `enter` and `finish` after a step. -/
theorem Sound.holder (h : Sound r) {v : Event} {r' : RollState} (hs : r.Step v r')
    (hm : r'.Holder m) : v.entered = some m ∨ r.Holder m ∧ v.finished ≠ some m := by
  cases hs with
  | plan =>
    obtain ⟨t, ht, hholds⟩ := hm
    rcases (planTurn_turn h).mp ht with ht | ⟨rfl, rfl⟩
    · exact .inr ⟨⟨t, ht, hholds⟩, nofun⟩
    · cases hholds
  | enter =>
    rcases holder_setPhase hm with ⟨rfl, -⟩ | ⟨-, hm⟩
    · exact .inl rfl
    · exact .inr ⟨hm, nofun⟩
  | wait | failLate =>
    rcases holder_setPhase hm with ⟨-, hholds⟩ | ⟨-, hm⟩
    · cases hholds
    · exact .inr ⟨hm, nofun⟩
  | leave | fail =>
    rcases holder_setPhase hm with ⟨-, hholds⟩ | ⟨hne, hm⟩
    · cases hholds
    · exact .inr ⟨hm, fun heq => hne (Option.some.inj heq).symm⟩

/-! ## Runs -/

/-- What holds of a rolling state after the steps `history`. -/
structure InOrder (history : List Event) (r : RollState) : Prop where
  serving_le : r.serving ≤ r.issued
  -- the tickets were passed on one after the other, each once
  passed : history.filterMap Event.finished = List.range r.serving
  tickets : r.turns.length = r.issued ∧
    ∀ (n : Nat) (t : RollTurn), r.turns[n]? = some t → t.ticket = n
  served : ∀ (n : Nat) (t : RollTurn), r.turns[n]? = some t →
    (t.phase.served = true ↔ n < r.serving)
  inside : ∀ (n : Nat) (t : RollTurn), r.turns[n]? = some t → t.phase.inside = true →
    n = r.serving
  carried : ∀ (n : Nat) (t : RollTurn), r.turns[n]? = some t → t.carry = true →
    ∃ (m : Nat) (p : RollTurn), n = m + 1 ∧ r.turns[m]? = some p ∧ p.plane = t.plane ∧
      p.start + p.count = t.start

/-- What holds of the step `v` from `r` to `r'`. -/
structure Advances (r : RollState) (v : Event) (r' : RollState) : Prop where
  refuses : ∀ (m n : Nat) (ok : Bool) (p t : RollTurn), v = .enter n ok →
    r.turns[m]? = some p → p.phase.lost = true → r.turns[n]? = some t → p.chain = t.chain →
    r'.turns[n]? = some { t with phase := .refused }
  -- a turn that carries on runs when the one before it has left
  follows : ∀ (m : Nat) (p t : RollTurn), v = .enter (m + 1) true → r.turns[m + 1]? = some t →
    t.carry = true → r.turns[m]? = some p → p.phase = .left
  starts : ∀ (plane : Nat) (start count : Int) (n : Nat) (p t : RollTurn),
    v = .plan plane start count true → r.turns[n]? = some p → p.phase.lost = true →
    r'.turns[r.issued]? = some t → p.chain ≠ t.chain
  mark : ∀ c, r.failedChain = some c → ∃ c', r'.failedChain = some c' ∧ c ≤ c'

theorem Sound.advances (h : Sound r) {v : Event} {r' : RollState} (hs : r.Step v r') :
    Advances r v r' where
  refuses m n ok p t hv hp hlost ht hchain := by
    subst hv
    cases hs with
    | enter ht' _ hserving hok =>
      rw [ht] at ht'
      cases ht'
      have hmark := h.mark_eq hp hlost ht (Nat.le_of_eq (h.at_serving ht hserving).symm) hchain
      cases ok with
      | true => exact absurd hmark (hok rfl)
      | false => exact setPhase_self ht
  follows m p t hv ht hcarry hp := by
    subst hv
    cases hs with
    | enter ht' _ hserving hok =>
      rw [ht] at ht'
      cases ht'
      have hn := h.at_serving ht hserving
      obtain ⟨k, q, hk, hq, -, -, hchain⟩ := h.line.carried _ t ht hcarry
      obtain rfl : k = m := by omega
      rw [hp] at hq
      cases hq
      have hserved := (h.served k p hp).mpr (by omega)
      cases hph : p.phase with
      | left => rfl
      | planned | entered | refused | waited => rw [hph] at hserved; cases hserved
      | failed | late =>
        exact absurd (h.mark_eq hp (by rw [hph]; rfl) ht (Nat.le_of_eq hn.symm) hchain) (hok rfl)
  starts plane start count n p t hv hp hlost ht hchain := by
    subst hv
    cases hs with
    | plan hc =>
      have hnew : t.chain = r.chain := by
        rcases (planTurn_turn h).mp ht with ht | ⟨-, rfl⟩
        · exact absurd (h.lt_issued ht) (Nat.lt_irrefl _)
        · rfl
      have hon := hc rfl
      rw [h.not_carriesOn hp hlost (hchain.trans hnew)] at hon
      cases hon
  mark c hc := by
    cases hs with
    | plan | enter | wait => exact ⟨c, hc, Nat.le_refl _⟩
    | leave => exact ⟨c, hc, Nat.le_refl _⟩
    | @fail n t ht hin =>
      exact ⟨t.chain, rfl, h.mark_le hc ht (Nat.le_of_eq (h.inside n t ht hin).symm)⟩
    | @failLate n t =>
      obtain ⟨c', hc', -, -, hold⟩ := late_mark r n t.chain
      exact ⟨c', hc', hold c hc⟩

/-- A step passes on the ticket that is served, or none. -/
theorem Sound.passes (h : Sound r) {v : Event} {r' : RollState} (hs : r.Step v r') :
    v.finished = none ∧ r'.serving = r.serving ∨
      v.finished = some r.serving ∧ r'.serving = r.serving + 1 := by
  cases hs with
  | plan | enter | wait | failLate => exact .inl ⟨rfl, rfl⟩
  | @leave n t ht hp =>
    exact .inr ⟨congrArg some (h.inside n t ht (by rw [hp]; rfl)), rfl⟩
  | @fail n t ht hin =>
    exact .inr ⟨congrArg some (h.inside n t ht hin), rfl⟩

theorem Sound.run (h : Sound r) {vs : List Event} {r' : RollState}
    (hrun : Path RollState.Step r vs r') : Sound r' :=
  hrun.invariant h fun _ _ _ hs h => h.step hs

theorem Sound.passed (h : Sound r) {vs : List Event} {r' : RollState}
    (hrun : Path RollState.Step r vs r') :
    List.range r.serving ++ vs.filterMap Event.finished = List.range r'.serving := by
  induction hrun with
  | nil => simp
  | cons hs _ ih =>
    rw [← ih (h.step hs)]
    rcases h.passes hs with ⟨hv, hserving⟩ | ⟨hv, hserving⟩
    · rw [List.filterMap_cons_none hv, hserving]
    · rw [List.filterMap_cons_some hv, hserving, List.range_succ]
      simp

/-- Every run of a rolling state keeps its turns in order. -/
theorem inOrder {vs : List Event} (hrun : Path RollState.Step .init vs r) : InOrder vs r := by
  have h := Sound.init.run hrun
  refine ⟨h.serving_le, Sound.init.passed hrun, ⟨h.line.length_eq, h.line.ticket_eq⟩, h.served,
    h.inside, fun n t ht hcarry => ?_⟩
  obtain ⟨m, p, hm, hp, hplane, hend, -⟩ := h.line.carried n t ht hcarry
  exact ⟨m, p, hm, hp, hplane, hend⟩

end Sound

/-! ## The slot of a chunk -/

/-- One thing of a slot changed: a rolling state, a lane. -/
def setAt {κ α : Type*} [DecidableEq κ] (f : Nat → κ → α) (slot : Nat) (i : κ) (x : α) :
    Nat → κ → α :=
  fun s j => if s = slot ∧ j = i then x else f s j

section SetAt

variable {κ α : Type*} [DecidableEq κ] {f : Nat → κ → α} {slot s : Nat} {i j : κ} {x : α}

theorem setAt_self : setAt f slot i x slot i = x := if_pos ⟨rfl, rfl⟩

theorem setAt_ne (h : ¬(s = slot ∧ j = i)) : setAt f slot i x s j = f s j := if_neg h

end SetAt

/-- The slots of a driver, and the rolling state that a plane uses in each of them. -/
structure Driver where
  slots : Nat
  rollStates : Nat
  rollState : Nat → Nat

/-- Chunks waiting on a slot before another slot is preferred. -/
def kCarryBacklog : Nat := 3

namespace Driver

variable (d : Driver) (roll : Nat → Nat → RollState)

def backlog (slot : Nat) : Nat :=
  ((List.range d.rollStates).map fun i => (roll slot i).issued - (roll slot i).serving).sum

/-- The first slot where the chunk can carry on, and the first with the least backlog. -/
def candidates (plane : Nat) (start : Int) : Option Nat × Nat :=
  (List.range d.slots).foldl
    (fun (slot, idle) s =>
      (if (roll s (d.rollState plane)).carriesOn plane start && slot.isNone then some s else slot,
        if d.backlog roll s < d.backlog roll idle then s else idle))
    (none, 0)

/-- Carrying on saves more than a second stream adds, unless the slot is far behind. -/
def choose (plane : Nat) (start : Int) : Nat × Bool :=
  let idle := (d.candidates roll plane start).2
  match (d.candidates roll plane start).1 with
  | some slot =>
    if d.backlog roll slot < kCarryBacklog ∨ d.backlog roll slot ≤ d.backlog roll idle then
      (slot, true)
    else (idle, false)
  | none => (idle, false)

variable {d roll} {plane slot : Nat} {start : Int}

theorem candidates_carriesOn (h : (d.candidates roll plane start).1 = some slot) :
    (roll slot (d.rollState plane)).carriesOn plane start = true := by
  revert h
  unfold candidates
  generalize (List.range d.slots) = slots
  suffices H : ∀ (acc : Option Nat × Nat), (∀ s, acc.1 = some s →
      (roll s (d.rollState plane)).carriesOn plane start = true) → ∀ s,
      (slots.foldl (fun (slot, idle) s =>
        (if (roll s (d.rollState plane)).carriesOn plane start && slot.isNone then some s else slot,
          if d.backlog roll s < d.backlog roll idle then s else idle)) acc).1 = some s →
      (roll s (d.rollState plane)).carriesOn plane start = true from
    H (none, 0) nofun slot
  induction slots with
  | nil => exact fun acc hacc => hacc
  | cons s slots ih =>
    intro acc hacc
    refine ih _ fun u hu => ?_
    simp only at hu
    split at hu
    · rename_i hs
      cases hu
      exact (Bool.and_eq_true_iff.mp hs).1
    · exact hacc u hu

/-- A chunk that carries on does so where it can. -/
theorem choose_carriesOn (h : d.choose roll plane start = (slot, true)) :
    (roll slot (d.rollState plane)).carriesOn plane start = true := by
  unfold choose at h
  simp only at h
  split at h
  · rename_i s hs
    split at h
    · cases h
      exact candidates_carriesOn hs
    · cases h
  · cases h

end Driver

end NssFactory.Tickets

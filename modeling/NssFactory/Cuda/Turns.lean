import NssFactory.Gpu.Turns
import Mathlib.Logic.Function.Basic

/-!
# The turns of the CUDA driver

The slots of `cuda/common/group_driver.cpp` under `roll_mu`: a turn also waits until its slot is
free, and occupies it from `enter` to `finish`. A destructor that has waited for its ticket
without entering does not occupy the slot.

`turns_in_order` says that every run of the driver keeps the turns of each rolling state in
order and two turns out of one slot.
-/

namespace NssFactory.Cuda

open Tickets

structure Slots where
  roll : Nat → Nat → RollState
  inUse : Nat → Bool

/-- A step of a turn: its slot, its rolling state there, and what it does. -/
structure TurnStep where
  slot : Nat
  index : Nat
  event : Event

/-- What a step is to one rolling state. -/
def TurnStep.on (slot i : Nat) (e : TurnStep) : Option Event :=
  if e.slot = slot ∧ e.index = i then some e.event else none

namespace Slots

def init : Slots where
  roll _ _ := .init
  inUse _ := false

/-- One rolling state and the slot's `in_use` change. -/
def update (s : Slots) (slot i : Nat) (r : RollState) (busy : Bool) : Slots where
  roll := setAt s.roll slot i r
  inUse := Function.update s.inUse slot busy

/-- The steps of all requests, each under `roll_mu`. -/
inductive Step (d : Driver) : Slots → TurnStep → Slots → Prop
  | plan {s : Slots} {plane slot : Nat} {start count : Int} {carry : Bool} :
      d.choose s.roll plane start = (slot, carry) →
      Step d s ⟨slot, d.rollState plane, .plan plane start count carry⟩
        (s.update slot (d.rollState plane)
          ((s.roll slot (d.rollState plane)).planTurn plane start count carry) (s.inUse slot))
  | enter {s : Slots} {slot i n : Nat} {t : RollTurn} {ok : Bool} :
      (s.roll slot i).turns[n]? = some t → t.phase = .planned →
      s.inUse slot = false → (s.roll slot i).serving = t.ticket →
      ok = decide ((s.roll slot i).failedChain ≠ some t.chain) →
      Step d s ⟨slot, i, .enter n ok⟩
        (s.update slot i ((s.roll slot i).setPhase n (if ok then .entered else .refused)) true)
  | wait {s : Slots} {slot i n : Nat} {t : RollTurn} :
      (s.roll slot i).turns[n]? = some t → t.phase = .planned →
      (s.roll slot i).serving = t.ticket →
      Step d s ⟨slot, i, .wait n⟩
        (s.update slot i ((s.roll slot i).setPhase n .waited) (s.inUse slot))
  | leave {s : Slots} {slot i n : Nat} {t : RollTurn} :
      (s.roll slot i).turns[n]? = some t → t.phase = .entered →
      Step d s ⟨slot, i, .leave n⟩
        (s.update slot i ((s.roll slot i).finish n t.chain false) false)
  | fail {s : Slots} {slot i n : Nat} {t : RollTurn} :
      (s.roll slot i).turns[n]? = some t → t.phase.inside = true →
      Step d s ⟨slot, i, .fail n⟩
        (s.update slot i ((s.roll slot i).finish n t.chain true)
          (if t.phase.holds then false else s.inUse slot))

/-- Turn `n` of a rolling state occupies its slot. -/
def Inside (s : Slots) (slot i n : Nat) : Prop := (s.roll slot i).Holder n

/-- The rolling states are sound, and a slot has at most the one turn that `in_use` says. -/
structure Sound (s : Slots) : Prop where
  roll : ∀ slot i, Tickets.Sound (s.roll slot i)
  occupied : ∀ slot i n, s.Inside slot i n → s.inUse slot = true
  alone : ∀ slot i j n m, s.Inside slot i n → s.Inside slot j m → i = j ∧ n = m

variable {d : Driver} {s s' : Slots} {e : TurnStep} {slot i j m n : Nat}

@[simp] theorem update_roll_self {r : RollState} {busy : Bool} :
    (s.update slot i r busy).roll slot i = r := setAt_self

theorem update_roll_ne {r : RollState} {busy : Bool} {slot' : Nat} (h : ¬(slot' = slot ∧ j = i)) :
    (s.update slot i r busy).roll slot' j = s.roll slot' j := setAt_ne h

/-- Each step is a step of one rolling state. -/
theorem Step.turn (h : Step d s e s') :
    (s.roll e.slot e.index).Step e.event (s'.roll e.slot e.index) ∧
      ∀ slot i, ¬(slot = e.slot ∧ i = e.index) → s'.roll slot i = s.roll slot i := by
  cases h with
  | plan hc =>
    refine ⟨?_, fun _ _ hne => update_roll_ne hne⟩
    rw [update_roll_self]
    exact .plan fun hcarry => Driver.choose_carriesOn (hcarry ▸ hc)
  | enter ht hp hfree hserving hok =>
    refine ⟨?_, fun _ _ hne => update_roll_ne hne⟩
    rw [update_roll_self]
    exact .enter ht hp hserving fun h => by simpa [h] using hok
  | wait ht hp hserving =>
    refine ⟨?_, fun _ _ hne => update_roll_ne hne⟩
    rw [update_roll_self]
    exact .wait ht hp hserving
  | leave ht hp =>
    refine ⟨?_, fun _ _ hne => update_roll_ne hne⟩
    rw [update_roll_self]
    exact .leave ht hp
  | fail ht hin =>
    refine ⟨?_, fun _ _ hne => update_roll_ne hne⟩
    rw [update_roll_self]
    exact .fail ht hin

/-- What a step is to a rolling state: a step of it, or nothing. -/
theorem Step.on (h : Step d s e s') (slot i : Nat) :
    (∀ v, e.on slot i = some v → (s.roll slot i).Step v (s'.roll slot i)) ∧
      (e.on slot i = none → s'.roll slot i = s.roll slot i) := by
  obtain ⟨hturn, hrest⟩ := h.turn
  unfold TurnStep.on
  by_cases hat : e.slot = slot ∧ e.index = i
  · obtain ⟨rfl, rfl⟩ := hat
    simpa using hturn
  · simpa [hat] using hrest slot i fun heq => hat ⟨heq.1.symm, heq.2.symm⟩

/-- The slots' marks after a step. -/
theorem Step.inUse (h : Step d s e s') :
    (∀ slot, slot ≠ e.slot → s'.inUse slot = s.inUse slot) ∧
      ((∃ n, e.event.entered = some n) ∧ s.inUse e.slot = false ∧ s'.inUse e.slot = true ∨
        e.event.entered = none ∧ (s'.inUse e.slot = s.inUse e.slot ∨
          ∃ n, e.event.finished = some n ∧ s.Inside e.slot e.index n)) := by
  refine ⟨fun slot hne => ?_, ?_⟩
  · cases h <;> exact Function.update_of_ne hne _ _
  cases h with
  | plan | wait => exact .inr ⟨rfl, .inl (Function.update_self ..)⟩
  | enter _ _ hfree => exact .inl ⟨⟨_, rfl⟩, hfree, Function.update_self ..⟩
  | leave ht hp => exact .inr ⟨rfl, .inr ⟨_, rfl, _, ht, by rw [hp]; rfl⟩⟩
  | @fail slot i n t ht hin =>
    refine .inr ⟨rfl, ?_⟩
    cases hholds : t.phase.holds with
    | true => exact .inr ⟨n, rfl, t, ht, hholds⟩
    | false => exact .inl (Function.update_self ..)

/-- Who is in a slot after a step. -/
theorem Sound.inside (hs : s.Sound) (h : Step d s e s') (hm : s'.Inside slot j m) :
    slot = e.slot ∧ j = e.index ∧ e.event.entered = some m ∨
      s.Inside slot j m ∧ (slot = e.slot → j = e.index → e.event.finished ≠ some m) := by
  obtain ⟨hturn, hrest⟩ := h.turn
  by_cases hat : slot = e.slot ∧ j = e.index
  · obtain ⟨rfl, rfl⟩ := hat
    rcases (hs.roll _ _).holder hturn hm with henter | ⟨hold, hfin⟩
    · exact .inl ⟨rfl, rfl, henter⟩
    · exact .inr ⟨hold, fun _ _ => hfin⟩
  · unfold Inside at hm
    rw [hrest _ _ hat] at hm
    exact .inr ⟨hm, fun h1 h2 => absurd ⟨h1, h2⟩ hat⟩

theorem Sound.init : Slots.init.Sound where
  roll _ _ := Tickets.Sound.init
  occupied _ _ _ h := by
    obtain ⟨t, ht, -⟩ := h
    simp [Slots.init, RollState.init] at ht
  alone _ _ _ _ _ h := by
    obtain ⟨t, ht, -⟩ := h
    simp [Slots.init, RollState.init] at ht

theorem Sound.step (hs : s.Sound) (h : Step d s e s') : s'.Sound where
  roll slot i := by
    obtain ⟨hturn, hrest⟩ := h.turn
    by_cases hat : slot = e.slot ∧ i = e.index
    · obtain ⟨rfl, rfl⟩ := hat
      exact (hs.roll _ _).step hturn
    · rw [hrest _ _ hat]
      exact hs.roll _ _
  occupied slot j m hm := by
    obtain ⟨hother, hmark⟩ := h.inUse
    rcases hs.inside h hm with ⟨rfl, -, henter⟩ | ⟨hold, hfin⟩
    · rcases hmark with ⟨-, -, hbusy⟩ | ⟨hnone, -⟩
      · exact hbusy
      · rw [hnone] at henter
        cases henter
    · by_cases hslot : slot = e.slot
      · subst hslot
        rcases hmark with ⟨-, -, hbusy⟩ | ⟨-, hsame | ⟨n, hn, hin⟩⟩
        · exact hbusy
        · rw [hsame]
          exact hs.occupied _ _ _ hold
        · -- the turn that freed the slot was alone in it
          obtain ⟨hi, hm⟩ := hs.alone _ _ _ _ _ hold hin
          subst hm
          exact absurd hn (hfin rfl hi)
      · rw [hother _ hslot]
        exact hs.occupied _ _ _ hold
  alone slot i j n m hn hm := by
    have hfree : ∀ n, e.event.entered = some n → s.inUse e.slot = false := by
      intro n henter
      rcases h.inUse.2 with ⟨-, hfree, -⟩ | ⟨hnone, -⟩
      · exact hfree
      · rw [hnone] at henter
        cases henter
    rcases hs.inside h hn with ⟨rfl, hi, hn⟩ | ⟨hn, -⟩ <;>
      rcases hs.inside h hm with ⟨hslot, hj, hm⟩ | ⟨hm, -⟩
    · exact ⟨hi.trans hj.symm, Option.some.inj (hn.symm.trans hm)⟩
    · have := hs.occupied _ _ _ hm
      rw [hfree n hn] at this
      cases this
    · have := hs.occupied _ _ _ hn
      rw [hslot, hfree m hm] at this
      cases this
    · exact hs.alone _ _ _ _ _ hn hm

theorem Sound.run {es : List TurnStep} (h : Path (Step d) .init es s) : s.Sound :=
  h.invariant .init fun _ _ _ hs h => h.step hs

/-- Two turns are never in one slot together, and every rolling state keeps its turns in
order. -/
theorem in_order {es : List TurnStep} (h : Path (Step d) .init es s) :
    (∀ slot i, InOrder (es.filterMap (TurnStep.on slot i)) (s.roll slot i)) ∧
      (∀ slot i j n m, s.Inside slot i n → s.Inside slot j m → i = j ∧ n = m) ∧
      ∀ e s', Step d s e s' →
        Advances (s.roll e.slot e.index) e.event (s'.roll e.slot e.index) := by
  have hs := Sound.run h
  refine ⟨fun slot i => inOrder ?_, hs.alone, fun e s' he => (hs.roll _ _).advances he.turn.1⟩
  exact h.project (f := fun s : Slots => s.roll slot i) Sound.init
    (fun _ _ _ he hs => hs.step he) fun _ _ _ he _ => he.on slot i

/-- A turn stays in its slot until its own end, which frees the slot. -/
theorem Step.stays (h : Step d s e s') (hm : s.Inside slot j m) :
    s'.Inside slot j m ∨ s'.inUse slot = false := by
  by_cases hat : slot = e.slot ∧ j = e.index
  · obtain ⟨rfl, rfl⟩ := hat
    obtain ⟨u, hu, hholds⟩ := hm
    cases h with
    | plan =>
      refine .inl ⟨u, ?_, hholds⟩
      rw [update_roll_self, RollState.planTurn,
        List.getElem?_append_left (List.getElem?_eq_some_iff.mp hu).1]
      exact hu
    | @enter _ _ n t _ ht hp | @wait _ _ n t ht hp =>
      have hne : m ≠ n := by
        rintro rfl
        rw [Option.some.inj (hu.symm.trans ht), hp] at hholds
        cases hholds
      exact .inl ⟨u, by rw [update_roll_self]; exact setPhase_ne hu hne, hholds⟩
    | leave => exact .inr (Function.update_self ..)
    | @fail _ _ n t ht =>
      by_cases hne : m = n
      · subst hne
        rw [Option.some.inj (hu.symm.trans ht)] at hholds
        exact .inr (by simp [Slots.update, hholds])
      · exact .inl ⟨u, by rw [update_roll_self]; exact setPhase_ne hu hne, hholds⟩
  · left
    unfold Inside
    rw [h.turn.2 _ _ hat]
    exact hm

/-- A slot in use has a turn inside. -/
def Busy (s : Slots) : Prop := ∀ slot, s.inUse slot = true → ∃ i n, s.Inside slot i n

theorem Busy.step (hb : s.Busy) (hs : s.Sound) (h : Step d s e s') : s'.Busy := by
  intro slot hslot
  cases hold : s.inUse slot with
  | true =>
    obtain ⟨i, n, hin⟩ := hb slot hold
    exact ⟨i, n, (h.stays hin).resolve_right (by simp [hslot])⟩
  | false =>
    obtain ⟨hother, hmark⟩ := h.inUse
    obtain rfl : slot = e.slot := by
      by_contra hne
      simp [hother slot hne, hold] at hslot
    rcases hmark with ⟨⟨n, henter⟩, -⟩ | ⟨-, hsame | ⟨n, -, hin⟩⟩
    · cases h with
      | @enter _ i _ t ok ht =>
        exact ⟨i, _, _, by rw [update_roll_self]; exact setPhase_self ht, by cases ok <;> rfl⟩
      | _ => cases henter
    · rw [hsame, hold] at hslot
      cases hslot
    · rw [hs.occupied _ _ _ hin] at hold
      cases hold

end Slots

end NssFactory.Cuda

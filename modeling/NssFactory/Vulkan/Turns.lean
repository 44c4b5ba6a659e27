import NssFactory.Gpu.Turns
import Mathlib.Data.List.Nodup
import Mathlib.Logic.Function.Basic

/-!
# The turns of the Vulkan driver

The slots of `vulkan/common/group_driver.cpp` under `roll_mu`. The turns of a chunk that landed
on one slot enter together and are recorded into one submission (`queue_units`): a `Group`. It
is alone in recording on the slot until it is submitted or given up, and alone on its lane until
its wait is done; its turns may still fail after they were left.

`in_order` says that every run of the driver keeps the turns of each rolling state in order,
and two groups out of one recording slot and one lane.
-/

namespace NssFactory.Vulkan

open Tickets

/-- Where a group is: recording; given up before its submission (its turns fail); submitted; its
wait failed (its turns fail after they were left); over. -/
inductive GroupPhase where
  | recording | aborted | submitted | failing | done
  deriving DecidableEq, Repr

def GroupPhase.holdsLane : GroupPhase → Bool
  | .recording | .submitted | .failing => true
  | .aborted | .done => false

/-- Turns that entered together: the rolling state and the place of each. -/
structure Group where
  slot : Nat
  lane : Bool
  members : List (Nat × Nat)
  phase : GroupPhase

structure RollSlots where
  roll : Nat → Nat → RollState
  nextLane : Nat → Bool
  recording : Nat → Bool
  laneInUse : Nat → Bool → Bool
  groups : List Group

inductive TurnStep where
  | turn (slot i : Nat) (event : Event)
  | enter (slot : Nat) (members : List (Nat × Nat)) (ok : Bool)
  | abort (g : Nat)
  | submit (g : Nat)
  | waitOk (g : Nat)
  | waitFail (g : Nat)
  | freeLane (g : Nat)

/-- What a step is to one rolling state. -/
def TurnStep.on (slot i : Nat) : TurnStep → Option Event
  | .turn s j event => if s = slot ∧ j = i then some event else none
  | .enter s members ok =>
    if s = slot then (members.find? fun m => m.1 == i).map fun m => .enter m.2 ok else none
  | _ => none

namespace RollSlots

def init : RollSlots where
  roll _ _ := .init
  nextLane _ := false
  recording _ := false
  laneInUse _ _ := false
  groups := []

variable (s : RollSlots)

def setRoll (slot i : Nat) (r : RollState) : RollSlots :=
  { s with roll := setAt s.roll slot i r }

def enterTurns (roll : Nat → Nat → RollState) (slot : Nat) (members : List (Nat × Nat))
    (ok : Bool) : Nat → Nat → RollState :=
  members.foldl
    (fun roll m =>
      setAt roll slot m.1 ((roll slot m.1).setPhase m.2 (if ok then .entered else .refused)))
    roll

/-- `enter`: the slot and its next lane are taken, and freed again if the group is refused. -/
def enterGroup (slot : Nat) (members : List (Nat × Nat)) (ok : Bool) : RollSlots where
  roll := enterTurns s.roll slot members ok
  nextLane := Function.update s.nextLane slot !s.nextLane slot
  recording := Function.update s.recording slot ok
  laneInUse := setAt s.laneInUse slot (s.nextLane slot) ok
  groups := if ok then s.groups ++ [⟨slot, s.nextLane slot, members, .recording⟩] else s.groups

def release (x : Group) (submitted : Bool) : RollSlots :=
  { s with
    recording := Function.update s.recording x.slot false
    laneInUse := if submitted then s.laneInUse else setAt s.laneInUse x.slot x.lane false }

def freeLane (x : Group) : RollSlots :=
  { s with laneInUse := setAt s.laneInUse x.slot x.lane false }

def setGroup (g : Nat) (phase : GroupPhase) : RollSlots :=
  { s with groups := s.groups.modify g fun x => { x with phase := phase } }

/-- Every turn of a group is in `phase`. -/
def All (x : Group) (phase : Phase) : Prop :=
  ∀ m ∈ x.members, ∀ t, (s.roll x.slot m.1).turns[m.2]? = some t → t.phase = phase

/-- The turn belongs to a group in `phase`. -/
def Member (slot i n : Nat) (phase : GroupPhase) : Prop :=
  ∃ x ∈ s.groups, x.slot = slot ∧ x.phase = phase ∧ (i, n) ∈ x.members

/-- The steps of all requests, each under `roll_mu`. -/
inductive Step (d : Driver) : RollSlots → TurnStep → RollSlots → Prop
  | plan {s : RollSlots} {plane slot : Nat} {start count : Int} {carry : Bool} :
      d.choose s.roll plane start = (slot, carry) →
      Step d s (.turn slot (d.rollState plane) (.plan plane start count carry))
        (s.setRoll slot (d.rollState plane)
          ((s.roll slot (d.rollState plane)).planTurn plane start count carry))
  | enter {s : RollSlots} {slot : Nat} {members : List (Nat × Nat)} {ok : Bool} :
      members ≠ [] → members.Nodup →
      s.recording slot = false → s.laneInUse slot (s.nextLane slot) = false →
      (∀ m ∈ members, ∃ t, (s.roll slot m.1).turns[m.2]? = some t ∧ t.phase = .planned ∧
        (s.roll slot m.1).serving = t.ticket) →
      (ok = true ↔ ∀ m ∈ members, ∀ t, (s.roll slot m.1).turns[m.2]? = some t →
        (s.roll slot m.1).failedChain ≠ some t.chain) →
      Step d s (.enter slot members ok) (s.enterGroup slot members ok)
  | abort {s : RollSlots} {g : Nat} {x : Group} :
      s.groups[g]? = some x → x.phase = .recording →
      Step d s (.abort g) ((s.release x false).setGroup g .aborted)
  | submit {s : RollSlots} {g : Nat} {x : Group} :
      s.groups[g]? = some x → x.phase = .recording →
      Step d s (.submit g) ((s.release x true).setGroup g .submitted)
  | leave {s : RollSlots} {slot i n : Nat} {t : RollTurn} :
      s.Member slot i n .submitted → (s.roll slot i).turns[n]? = some t → t.phase = .entered →
      Step d s (.turn slot i (.leave n))
        (s.setRoll slot i ((s.roll slot i).finish n t.chain false))
  | waitOk {s : RollSlots} {g : Nat} {x : Group} :
      s.groups[g]? = some x → x.phase = .submitted → s.All x .left →
      Step d s (.waitOk g) ((s.freeLane x).setGroup g .done)
  | waitFail {s : RollSlots} {g : Nat} {x : Group} :
      s.groups[g]? = some x → x.phase = .submitted → s.All x .left →
      Step d s (.waitFail g) (s.setGroup g .failing)
  | failLate {s : RollSlots} {slot i n : Nat} {t : RollTurn} :
      s.Member slot i n .failing → (s.roll slot i).turns[n]? = some t → t.phase = .left →
      Step d s (.turn slot i (.failLate n))
        (s.setRoll slot i ((s.roll slot i).failAfterLeave n t.chain))
  | freeLane {s : RollSlots} {g : Nat} {x : Group} :
      s.groups[g]? = some x → x.phase = .failing → s.All x .late →
      Step d s (.freeLane g) ((s.freeLane x).setGroup g .done)
  | wait {s : RollSlots} {slot i n : Nat} {t : RollTurn} :
      (s.roll slot i).turns[n]? = some t → t.phase = .planned →
      (s.roll slot i).serving = t.ticket →
      Step d s (.turn slot i (.wait n)) (s.setRoll slot i ((s.roll slot i).setPhase n .waited))
  | fail {s : RollSlots} {slot i n : Nat} {t : RollTurn} :
      (s.roll slot i).turns[n]? = some t → t.phase.inside = true →
      (t.phase = .entered → s.Member slot i n .aborted) →
      Step d s (.turn slot i (.fail n))
        (s.setRoll slot i ((s.roll slot i).finish n t.chain true))

/-- Turn `n` of a rolling state is recorded on its slot, in group `g`. -/
def Recording (slot i n g : Nat) : Prop :=
  ∃ x, s.groups[g]? = some x ∧ x.slot = slot ∧ x.phase = .recording ∧ (i, n) ∈ x.members

/-- Turn `n` of a rolling state is on a lane of its slot, in group `g`. -/
def OnLane (slot : Nat) (lane : Bool) (i n g : Nat) : Prop :=
  ∃ x, s.groups[g]? = some x ∧ x.slot = slot ∧ x.lane = lane ∧ x.phase.holdsLane = true ∧
    (i, n) ∈ x.members

/-- A slot is recorded on by at most the group that `recording` says, and a lane used by at most
the one that `in_use` says. -/
structure Apart : Prop where
  recording : ∀ (g : Nat) (x : Group), s.groups[g]? = some x → x.phase = .recording →
    s.recording x.slot = true
  lane : ∀ (g : Nat) (x : Group), s.groups[g]? = some x → x.phase.holdsLane = true →
    s.laneInUse x.slot x.lane = true
  one_slot : ∀ (g h : Nat) (x y : Group), s.groups[g]? = some x → s.groups[h]? = some y →
    x.phase = .recording → y.phase = .recording → x.slot = y.slot → g = h
  one_lane : ∀ (g h : Nat) (x y : Group), s.groups[g]? = some x → s.groups[h]? = some y →
    x.phase.holdsLane = true → y.phase.holdsLane = true → x.slot = y.slot → x.lane = y.lane →
    g = h

variable {d : Driver} {s} {s' : RollSlots} {e : TurnStep} {slot i j m n g h : Nat} {x y : Group}

/-! ## The rolling states -/

theorem enterTurns_ne {roll : Nat → Nat → RollState} {members : List (Nat × Nat)} {ok : Bool}
    {slot' : Nat} (hne : slot' ≠ slot) : enterTurns roll slot members ok slot' i = roll slot' i := by
  unfold enterTurns
  induction members generalizing roll with
  | nil => rfl
  | cons m members ih =>
    rw [List.foldl_cons, ih, setAt_ne fun heq => hne heq.1]

/-- Each member of a group enters on its own rolling state. -/
theorem enterTurns_self (roll : Nat → Nat → RollState) {members : List (Nat × Nat)} {ok : Bool}
    (hnd : (members.map Prod.fst).Nodup) :
    (∀ n, (members.find? fun m => m.1 == i) = some n → enterTurns roll slot members ok slot i =
      (roll slot i).setPhase n.2 (if ok then .entered else .refused)) ∧
    ((members.find? fun m => m.1 == i) = none →
      enterTurns roll slot members ok slot i = roll slot i) := by
  unfold enterTurns
  induction members generalizing roll with
  | nil => exact ⟨nofun, fun _ => rfl⟩
  | cons m members ih =>
    rw [List.map_cons, List.nodup_cons] at hnd
    obtain ⟨hsome, hnone⟩ := ih (setAt roll slot m.1
      ((roll slot m.1).setPhase m.2 (if ok then .entered else .refused))) hnd.2
    rw [List.foldl_cons]
    by_cases hi : m.1 = i
    · subst hi
      have hrest : (members.find? fun k => k.1 == m.1) = none := by
        rw [List.find?_eq_none]
        intro k hk heq
        exact hnd.1 (List.mem_map.mpr ⟨k, hk, by simpa using heq⟩)
      refine ⟨fun n hn => ?_, fun hn => ?_⟩
      · rw [List.find?_cons_of_pos (by simp)] at hn
        cases hn
        rw [hnone hrest, setAt_self]
      · rw [List.find?_cons_of_pos (by simp)] at hn
        cases hn
    · have hsame : ¬(slot = slot ∧ i = m.1) := fun heq => hi heq.2.symm
      rw [List.find?_cons_of_neg (by simpa using hi)]
      rw [setAt_ne hsame] at hsome hnone
      exact ⟨hsome, hnone⟩

/-- What a step is to a rolling state: a step of it, or nothing. -/
theorem Step.on (hs : ∀ slot i, Sound (s.roll slot i)) (he : Step d s e s') (slot i : Nat) :
    (∀ v, e.on slot i = some v → (s.roll slot i).Step v (s'.roll slot i)) ∧
      (e.on slot i = none → s'.roll slot i = s.roll slot i) := by
  have hturn : ∀ {slot' j : Nat} {v : Event} {r : RollState}, (s.roll slot' j).Step v r →
      (∀ u, (TurnStep.turn slot' j v).on slot i = some u →
        (s.roll slot i).Step u ((s.setRoll slot' j r).roll slot i)) ∧
      ((TurnStep.turn slot' j v).on slot i = none →
        (s.setRoll slot' j r).roll slot i = s.roll slot i) := by
    intro slot' j v r hstep
    simp only [TurnStep.on, setRoll]
    by_cases hat : slot' = slot ∧ j = i
    · obtain ⟨rfl, rfl⟩ := hat
      simpa [setAt_self] using hstep
    · simp [hat, setAt_ne fun heq : slot = slot' ∧ i = j => hat ⟨heq.1.symm, heq.2.symm⟩]
  cases he with
  | plan hc => exact hturn (.plan fun hcarry => Driver.choose_carriesOn (hcarry ▸ hc))
  | leave _ ht hp => exact hturn (.leave ht hp)
  | failLate _ ht hp => exact hturn (.failLate ht hp)
  | wait ht hp hserving => exact hturn (.wait ht hp hserving)
  | fail ht hin _ => exact hturn (.fail ht hin)
  | abort | submit | waitOk | waitFail | freeLane => exact ⟨nofun, fun _ => rfl⟩
  | @enter slot' members ok _ hnodup _ _ hat hok =>
    -- the members are their states' next turns, so their states are distinct
    have hnd : (members.map Prod.fst).Nodup := by
      refine List.Nodup.map_on (fun p hp q hq hpq => ?_) hnodup
      obtain ⟨t, ht, -, hserving⟩ := hat p hp
      obtain ⟨u, hu, -, hserving'⟩ := hat q hq
      have hp' := (hs _ _).at_serving ht hserving
      have hq' := (hs _ _).at_serving hu hserving'
      refine Prod.ext hpq ?_
      rw [hp', hq', hpq]
    simp only [TurnStep.on, enterGroup]
    by_cases hslot : slot' = slot
    · subst hslot
      obtain ⟨hsome, hnone⟩ := @enterTurns_self slot' i s.roll members ok hnd
      simp only [if_true, Option.map_eq_some_iff, Option.map_eq_none_iff]
      refine ⟨?_, hnone⟩
      rintro _ ⟨m, hm, rfl⟩
      rw [hsome m hm]
      have hmem := List.mem_of_find?_eq_some hm
      obtain rfl : m.1 = i := by simpa using List.find?_some hm
      obtain ⟨t, ht, hp, hserving⟩ := hat m hmem
      exact .enter ht hp hserving fun htrue => hok.mp htrue m hmem t ht
    · simp [hslot, enterTurns_ne (fun heq : slot = slot' => hslot heq.symm)]

/-! ## The groups -/

theorem setGroup_group {phase : GroupPhase} : (s.setGroup g phase).groups[h]? = some y ↔
    ∃ x, s.groups[h]? = some x ∧ y = if h = g then { x with phase := phase } else x := by
  rw [setGroup, List.getElem?_modify]
  cases s.groups[h]? with
  | none => simp
  | some x =>
    by_cases hg : h = g
    · subst hg
      simp [eq_comm]
    · simp [hg, Ne.symm hg, eq_comm]

/-- A group goes on: it does not record any more, and frees what it does not need. -/
theorem Apart.setGroup (ha : s.Apart) (hx : s.groups[g]? = some x) {phase : GroupPhase}
    (hg : s'.groups = s.groups) (hphase : phase ≠ .recording)
    (hlane : phase.holdsLane = true → x.phase.holdsLane = true)
    (hrecording : ∀ slot, s'.recording slot = s.recording slot ∨
      x.phase = .recording ∧ slot = x.slot)
    (hlanes : ∀ slot l, s'.laneInUse slot l = s.laneInUse slot l ∨
      phase.holdsLane = false ∧ x.phase.holdsLane = true ∧ slot = x.slot ∧ l = x.lane) :
    (s'.setGroup g phase).Apart := by
  have hgroup : ∀ {h : Nat} {y : Group}, (s'.setGroup g phase).groups[h]? = some y →
      ∃ z, s.groups[h]? = some z ∧ y.slot = z.slot ∧ y.lane = z.lane ∧
        (h = g ∧ y.phase = phase ∧ z = x ∨ h ≠ g ∧ y = z) := by
    intro h y hy
    obtain ⟨z, hz, rfl⟩ := setGroup_group.mp hy
    rw [hg] at hz
    refine ⟨z, hz, ?_⟩
    by_cases hh : h = g
    · subst hh
      rw [hx] at hz
      cases hz
      simp
    · simp [hh]
  refine ⟨fun h y hy hr => ?_, fun h y hy hl => ?_, fun h k y w hy hw hyr hwr hsl => ?_,
    fun h k y w hy hw hyl hwl hsl hla => ?_⟩
  · obtain ⟨z, hz, hslot, -, ⟨-, hp, -⟩ | ⟨hne, rfl⟩⟩ := hgroup hy
    · exact absurd (hp.symm.trans hr) hphase
    · have hold := ha.recording h y hz hr
      rcases hrecording y.slot with hsame | ⟨hxr, hslot⟩
      · exact hsame.trans hold
      · exact absurd (ha.one_slot h g y x hz hx hr hxr hslot) hne
  · obtain ⟨z, hz, hslot, hlane', ⟨rfl, hp, rfl⟩ | ⟨hne, rfl⟩⟩ := hgroup hy
    · rw [hp] at hl
      rcases hlanes y.slot y.lane with hsame | ⟨hfree, -⟩
      · refine hsame.trans ?_
        rw [hslot, hlane']
        exact ha.lane h z hz (hlane hl)
      · rw [hl] at hfree
        cases hfree
    · have hold := ha.lane h y hz hl
      rcases hlanes y.slot y.lane with hsame | ⟨-, hxl, hslot, hla⟩
      · exact hsame.trans hold
      · exact absurd (ha.one_lane h g y x hz hx hl hxl hslot hla) hne
  · obtain ⟨z, hz, -, -, ⟨-, hp, -⟩ | ⟨-, rfl⟩⟩ := hgroup hy
    · exact absurd (hp.symm.trans hyr) hphase
    · obtain ⟨z', hz', -, -, ⟨-, hp, -⟩ | ⟨-, rfl⟩⟩ := hgroup hw
      · exact absurd (hp.symm.trans hwr) hphase
      · exact ha.one_slot h k y w hz hz' hyr hwr hsl
  · have hold : ∀ {h : Nat} {y : Group}, (s'.setGroup g phase).groups[h]? = some y →
        y.phase.holdsLane = true → ∃ z, s.groups[h]? = some z ∧ z.phase.holdsLane = true ∧
          y.slot = z.slot ∧ y.lane = z.lane := by
      intro h y hy hl
      obtain ⟨z, hz, hslot, hla, ⟨-, hp, rfl⟩ | ⟨-, rfl⟩⟩ := hgroup hy
      · exact ⟨z, hz, hlane (hp ▸ hl), hslot, hla⟩
      · exact ⟨y, hz, hl, rfl, rfl⟩
    obtain ⟨z, hz, hzl, hzs, hzla⟩ := hold hy hyl
    obtain ⟨z', hz', hzl', hzs', hzla'⟩ := hold hw hwl
    exact ha.one_lane h k z z' hz hz' hzl hzl' (by rw [← hzs, ← hzs', hsl])
      (by rw [← hzla, ← hzla', hla])

/-- A group enters a slot that nobody records on, and a lane that nobody uses. -/
theorem Apart.enter (ha : s.Apart) {members : List (Nat × Nat)} {ok : Bool}
    (hfree : s.recording slot = false) (hlane : s.laneInUse slot (s.nextLane slot) = false) :
    (s.enterGroup slot members ok).Apart := by
  have hbusy : ∀ slot', s.recording slot' = true →
      (s.enterGroup slot members ok).recording slot' = true := by
    intro slot' h
    have hne : slot' ≠ slot := by
      rintro rfl
      rw [hfree] at h
      cases h
    simpa [enterGroup, Function.update_of_ne hne] using h
  have hused : ∀ slot' l, s.laneInUse slot' l = true →
      (s.enterGroup slot members ok).laneInUse slot' l = true := by
    intro slot' l h
    have hne : ¬(slot' = slot ∧ l = s.nextLane slot) := by
      rintro ⟨rfl, rfl⟩
      rw [hlane] at h
      cases h
    simpa [enterGroup, setAt_ne hne] using h
  have hgroup : ∀ {h : Nat} {y : Group}, (s.enterGroup slot members ok).groups[h]? = some y →
      s.groups[h]? = some y ∨ ok = true ∧ h = s.groups.length ∧
        y = ⟨slot, s.nextLane slot, members, .recording⟩ := by
    intro h y hy
    cases ok with
    | false => exact .inl hy
    | true =>
      simp only [enterGroup, if_true] at hy
      rcases Nat.lt_trichotomy h s.groups.length with hlt | rfl | hgt
      · rw [List.getElem?_append_left hlt] at hy
        exact .inl hy
      · rw [List.getElem?_concat_length] at hy
        exact .inr ⟨rfl, rfl, (Option.some.inj hy).symm⟩
      · rw [List.getElem?_eq_none (by simp; omega)] at hy
        cases hy
  refine ⟨fun h y hy hr => ?_, fun h y hy hl => ?_, fun h k y w hy hw hyr hwr hsl => ?_,
    fun h k y w hy hw hyl hwl hsl hla => ?_⟩
  · rcases hgroup hy with hy | ⟨rfl, -, rfl⟩
    · exact hbusy _ (ha.recording h y hy hr)
    · simp [enterGroup]
  · rcases hgroup hy with hy | ⟨rfl, -, rfl⟩
    · exact hused _ _ (ha.lane h y hy hl)
    · simp [enterGroup, setAt_self]
  · rcases hgroup hy with hy | ⟨rfl, rfl, rfl⟩ <;> rcases hgroup hw with hw | ⟨hok, rfl, rfl⟩
    · exact ha.one_slot h k y w hy hw hyr hwr hsl
    · have := ha.recording h y hy hyr
      rw [show y.slot = slot from hsl, hfree] at this
      cases this
    · have := ha.recording k w hw hwr
      rw [← show slot = w.slot from hsl, hfree] at this
      cases this
    · rfl
  · rcases hgroup hy with hy | ⟨rfl, rfl, rfl⟩ <;> rcases hgroup hw with hw | ⟨hok, rfl, rfl⟩
    · exact ha.one_lane h k y w hy hw hyl hwl hsl hla
    · have := ha.lane h y hy hyl
      rw [show y.slot = slot from hsl, show y.lane = _ from hla, hlane] at this
      cases this
    · have := ha.lane k w hw hwl
      rw [← show slot = w.slot from hsl, ← show _ = w.lane from hla, hlane] at this
      cases this
    · rfl

theorem Apart.step (ha : s.Apart) (he : Step d s e s') : s'.Apart := by
  have hslots : ∀ {x : Group}, x.phase = .recording → ∀ slot,
      Function.update s.recording x.slot false slot = s.recording slot ∨
        x.phase = .recording ∧ slot = x.slot := by
    intro x hr slot
    by_cases hslot : slot = x.slot
    · exact .inr ⟨hr, hslot⟩
    · exact .inl (Function.update_of_ne hslot _ _)
  have hlanes : ∀ {x : Group} {phase : GroupPhase}, phase.holdsLane = false →
      x.phase.holdsLane = true → ∀ slot l,
      setAt s.laneInUse x.slot x.lane false slot l = s.laneInUse slot l ∨
        phase.holdsLane = false ∧ x.phase.holdsLane = true ∧ slot = x.slot ∧ l = x.lane := by
    intro x phase hfree hl slot l
    by_cases hat : slot = x.slot ∧ l = x.lane
    · exact .inr ⟨hfree, hl, hat⟩
    · exact .inl (setAt_ne hat)
  cases he with
  | plan | leave | failLate | wait | fail => exact ⟨ha.1, ha.2, ha.3, ha.4⟩
  | enter _ _ hfree hlane _ _ => exact ha.enter hfree hlane
  | abort hx hr =>
    exact ha.setGroup hx rfl nofun nofun (hslots hr) (hlanes rfl (by rw [hr]; rfl))
  | submit hx hr =>
    exact ha.setGroup hx rfl nofun (fun _ => by rw [hr]; rfl) (hslots hr)
      fun _ _ => .inl rfl
  | waitOk hx hp _ | freeLane hx hp _ =>
    exact ha.setGroup hx rfl nofun nofun (fun _ => .inl rfl) (hlanes rfl (by rw [hp]; rfl))
  | waitFail hx hp _ =>
    exact ha.setGroup hx rfl nofun (fun _ => by rw [hp]; rfl) (fun _ => .inl rfl)
      fun _ _ => .inl rfl

/-! ## Runs -/

structure Sound (s : RollSlots) : Prop where
  roll : ∀ slot i, Tickets.Sound (s.roll slot i)
  apart : s.Apart

theorem Sound.init : RollSlots.init.Sound where
  roll _ _ := Tickets.Sound.init
  apart := ⟨nofun, nofun, nofun, nofun⟩

theorem Sound.step (hs : s.Sound) (he : Step d s e s') : s'.Sound where
  roll slot i := by
    obtain ⟨hsome, hnone⟩ := he.on hs.roll slot i
    cases hon : e.on slot i with
    | none =>
      rw [hnone hon]
      exact hs.roll slot i
    | some v => exact (hs.roll slot i).step (hsome v hon)
  apart := hs.apart.step he

theorem Sound.run {es : List TurnStep} (h : Path (Step d) .init es s) : s.Sound :=
  h.invariant .init fun _ _ _ hs h => h.step hs

/-- Two groups are never recorded on one slot or used on one lane together, and every rolling
state keeps its turns in order. -/
theorem in_order {es : List TurnStep} (h : Path (Step d) .init es s) :
    (∀ slot i, InOrder (es.filterMap (TurnStep.on slot i)) (s.roll slot i)) ∧
      (∀ slot i n g j m h, s.Recording slot i n g → s.Recording slot j m h → g = h) ∧
      (∀ slot lane i n g j m h, s.OnLane slot lane i n g → s.OnLane slot lane j m h → g = h) ∧
      ∀ e s', Step d s e s' → ∀ slot i v, e.on slot i = some v →
        Advances (s.roll slot i) v (s'.roll slot i) := by
  have hs := Sound.run h
  refine ⟨fun slot i => inOrder ?_, ?_, ?_, fun e s' he slot i v hv => ?_⟩
  · exact h.project (f := fun s : RollSlots => s.roll slot i) Sound.init
      (fun _ _ _ he hs => hs.step he) fun _ _ _ he hs => he.on hs.roll slot i
  · rintro slot i n g j m h ⟨x, hx, rfl, hxr, -⟩ ⟨y, hy, hslot, hyr, -⟩
    exact hs.apart.one_slot g h x y hx hy hxr hyr hslot.symm
  · rintro slot lane i n g j m h ⟨x, hx, rfl, rfl, hxl, -⟩ ⟨y, hy, hslot, hlane, hyl, -⟩
    exact hs.apart.one_lane g h x y hx hy hxl hyl hslot.symm hlane.symm
  · exact (hs.roll slot i).advances ((he.on hs.roll slot i).1 v hv)

end RollSlots

end NssFactory.Vulkan

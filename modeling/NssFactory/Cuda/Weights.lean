import NssFactory.Lib.Steps
import NssFactory.Gpu.Weights

/-!
# The weight maps of NLM on CUDA

`WeightLease` of `cuda/nlm/filter.cpp` on streams and events: the constructor has the stream wait
for events, `queued` and the destructor record them. Every call may fail, and a request may throw
wherever it is.

A lease that throws in its constructor has no destructor, so the set it has marked stays busy.
After the kernel is queued, a set it loads goes to others before the kernel is done with it, and
an event that is not recorded lets the next kernel into the set it saves too early. `Run.inv`
says that nothing else goes wrong.
-/

namespace NssFactory.Cuda

open Gpu

/-- The cache, the operations of all streams, and the requests. -/
structure WeightState (Q : Type*) where
  cache : WeightCache Q
  ops : KernelOps Q
  leases : List (WeightLease Q)

/-- What a request does next, with the results of the calls it makes. `kernel`: `nlm_tile` has
launched it. `other`: anything else on a stream. -/
inductive WeightCall (Q : Type*) where
  | construct (n : Nat) (stream : Q) (waited : LeaseWait → Bool)
  | kernel (request : Nat)
  | queued (request : Nat) (read written : Bool)
  | throws (request : Nat)
  | destroy (request : Nat) (read written : Bool)
  | other (stream : Q) (waits : List (Point Q))

variable {Q : Type*} [DecidableEq Q]

/-- What an event holds that is recorded now. -/
def streamEnd (ops : KernelOps Q) (stream : Q) : Point Q :=
  ⟨stream, ops.countP (·.point.queue = stream)⟩

/-- A stream runs its operations in turn. -/
def enqueue (ops : KernelOps Q) (stream : Q) (waits : List (Point Q)) (act : Option Kernel) :
    KernelOps Q :=
  ops ++ [⟨⟨stream, (streamEnd ops stream).number + 1⟩, streamEnd ops stream :: waits, act⟩]

/-- There is nothing to wait for in an event that was never recorded. -/
def streamWaitEvent (stream : Q) (waited : LeaseWait → Bool) (which : LeaseWait)
    (event : Option (Point Q)) (ops : KernelOps Q) : Bool × KernelOps Q :=
  if waited which then (true, enqueue ops stream event.toList none) else (false, ops)

/-- A failed record leaves the event as it was. -/
def eventRecord (ops : KernelOps Q) (stream : Q) (ok : Bool) (event : Option (Point Q)) :
    Option (Point Q) :=
  if ok then some (streamEnd ops stream) else event

namespace WeightState

def setLease (s : WeightState Q) (k : Nat) (l : WeightLease Q) : WeightState Q :=
  { s with leases := s.leases.set k l }

def construct (s : WeightState Q) (n : Nat) (stream : Q) (waited : LeaseWait → Bool) :
    Constructed Q (KernelOps Q) :=
  WeightLease.construct (streamWaitEvent stream waited) s.cache s.ops n stream

/-- `WeightLease::queued` after kernel `j`. An exception leaves `load_` and `save_` as they
were. -/
def queued (s : WeightState Q) (k : Nat) (l : WeightLease Q) (j : Nat) (read written : Bool) :
    WeightState Q :=
  if l.load.isSome && !read then s.setLease k { l with phase := .thrown j }
  else
    let event := some (streamEnd s.ops l.queue)
    let c := s.cache.modify l.load fun w => { w with read := event, loaded := true, busy := false }
    if l.save.isSome && !written then
      { s.setLease k { l with phase := .thrown j } with cache := c }
    else
      let clock := if l.save.isSome then c.clock + 1 else c.clock
      let c := c.modify l.save fun w =>
        { w with written := event, frame := l.n, loaded := false, used := clock, busy := false }
      { s.setLease k { l with load := none, save := none, phase := .completed } with
        cache := { c with clock := clock } }

/-- `~WeightLease`. -/
def destroy (s : WeightState Q) (k : Nat) (l : WeightLease Q) (read written : Bool) :
    WeightState Q :=
  let c := s.cache.modify l.load fun w =>
    { w with read := eventRecord s.ops l.queue read w.read, busy := false }
  let c := c.modify l.save fun w =>
    { w with written := eventRecord s.ops l.queue written w.written, busy := false }
  { s.setLease k { l with phase := .ended } with cache := c }

/-- A step of a request; `none` where there is no such step. -/
def step (s : WeightState Q) : WeightCall Q → Option (WeightState Q)
  | .construct n stream waited =>
    let r := s.construct n stream waited
    some { cache := r.cache, ops := r.device, leases := s.leases ++ [r.lease] }
  | .kernel k => do
    let l ← s.leases[k]?
    if l.phase = .held then
      some { s.setLease k { l with phase := .queued s.ops.length } with
        ops := enqueue s.ops l.queue [] (some ⟨l.n, l.load, l.save⟩) }
    else none
  | .queued k read written => do
    let l ← s.leases[k]?
    match l.phase with
    | .queued j => some (s.queued k l j read written)
    | _ => none
  | .throws k => do
    let l ← s.leases[k]?
    match l.phase with
    | .queued j => some (s.setLease k { l with phase := .thrown j })
    | _ => none
  | .destroy k read written => do
    let l ← s.leases[k]?
    match l.phase with
    | .held | .thrown _ | .completed => some (s.destroy k l read written)
    | _ => none
  | .other stream waits => some { s with ops := enqueue s.ops stream waits none }

def start (count : Nat) : WeightState Q where
  cache := { sets := List.replicate count {} }
  ops := []
  leases := []

/-- The calls that go well: a constructor returns, and after its kernel a request that loads a
set completes the lease. One that only saves a set may throw, if its destructor records the
event. -/
def Completes (s : WeightState Q) : WeightCall Q → Prop
  | .construct n stream waited => (s.construct n stream waited).returned = true
  | .queued k read written => ∀ l, s.leases[k]? = some l → l.load.isSome →
    read ∧ (l.save.isSome → written)
  | .throws k => ∀ l, s.leases[k]? = some l → l.load = none
  | .destroy k _ written => ∀ l j, s.leases[k]? = some l → l.phase = .thrown j → l.save.isSome →
    written
  | .kernel _ | .other .. => True

/-! ## Streams -/

variable {ops : KernelOps Q} {q q' : Q} {waits : List (Point Q)} {act : Option Kernel} {p : Point Q}
  {i : Nat}

/-- What runs next on a stream comes after operation `i`. -/
def Passed (ops : KernelOps Q) (q : Q) (i : Nat) : Prop := Reaches ops (streamEnd ops q) i

theorem streamEnd_enqueue : streamEnd (enqueue ops q waits act) q =
    ⟨q, (streamEnd ops q).number + 1⟩ := by
  simp [streamEnd, enqueue]

theorem passed_enqueue (h : Passed ops q' i) : Passed (enqueue ops q waits act) q' i := by
  apply (Reaches.append h).mono
  refine ⟨rfl, ?_⟩
  simp only [streamEnd, enqueue, List.countP_append]
  exact Nat.le_add_right _ _

theorem passed_last : Passed (enqueue ops q waits act) q ops.length := by
  apply reaches_of_includes getElem?_last
  rw [streamEnd_enqueue]
  exact ⟨rfl, Nat.le_refl _⟩

theorem passed_waited (h : Reaches ops p i) (hp : p ∈ streamEnd ops q :: waits) :
    Passed (enqueue ops q waits act) q i :=
  passed_last.of_before (h.before_last hp)

/-! ## Every call that goes well keeps the invariant -/

structure Inv (s : WeightState Q) : Prop where
  sound : Sound s.cache s.ops s.leases (Passed s.ops)
  behind : ∀ l ∈ s.leases, ∀ j, l.Launched j → Passed s.ops l.queue j
  calm : ∀ l ∈ s.leases, ∀ j, l.phase = .thrown j → l.load = none
  done : ∀ l ∈ s.leases, l.phase = .completed → l.load = none ∧ l.save = none

variable {s s' : WeightState Q} {l : WeightLease Q} {k n j : Nat} {read written : Bool}

theorem inv_start (count : Nat) : Inv (start (Q := Q) count) :=
  ⟨sound_start count, nofun, nofun, nofun⟩

/-- What the waits of a constructor leave on the streams. -/
theorem construct_waits {waited : LeaseWait → Bool}
    {points : List (LeaseWait × Option (Point Q))} {ops' : KernelOps Q}
    (h : waitAll (streamWaitEvent q waited) points ops = (true, ops')) :
    ∃ more, ops' = ops ++ more ∧ (∀ a ∈ more, a.act = none) ∧
      (∀ q' i, Passed ops q' i → Passed ops' q' i) ∧
      ∀ p ∈ points, ∀ i, Behind ops p.2 i → Passed ops' q i := by
  let Waited (done : List (LeaseWait × Option (Point Q))) (ops' : KernelOps Q) : Prop :=
    ∃ more, ops' = ops ++ more ∧ (∀ a ∈ more, a.act = none) ∧
      (∀ q' i, Passed ops q' i → Passed ops' q' i) ∧
      ∀ p ∈ done, ∀ i, Behind ops p.2 i → Passed ops' q i
  have start : Waited [] ops := ⟨[], by simp, nofun, fun _ _ h => h, nofun⟩
  refine waitAll_run (P := Waited) start ?_ h
  rintro done which p ops₁ ops₂ ⟨more, rfl, hidle, hmono, hdone⟩ hwait
  unfold streamWaitEvent at hwait
  split at hwait
  · obtain rfl := (Prod.mk.inj hwait).2
    refine ⟨more ++ [⟨⟨q, _⟩, _, none⟩], (List.append_assoc _ _ _), fun a ha => ?_,
      fun q' i hi => passed_enqueue (hmono q' i hi), fun p' hp' i hi => ?_⟩
    · rcases List.mem_append.mp ha with ha | ha
      · exact hidle a ha
      · rw [List.mem_singleton.mp ha]
    · rcases List.mem_append.mp hp' with hp' | hp'
      · exact passed_enqueue (hdone p' hp' i hi)
      · obtain rfl := List.mem_singleton.mp hp'
        obtain ⟨x, rfl, hx⟩ := hi
        exact passed_waited hx.append (by simp)
  · cases hwait

theorem Inv.construct {waited : LeaseWait → Bool} (h : Inv s)
    (hreturned : (s.construct n q waited).returned = true) :
    Inv { cache := (s.construct n q waited).cache
          ops := (s.construct n q waited).device
          leases := s.leases ++ [(s.construct n q waited).lease] } := by
  obtain ⟨ops', hwaits, hconstruct⟩ := construct_returned hreturned
  obtain ⟨more, rfl, hidle, hmono, hpoints⟩ := construct_waits hwaits
  have hsound := h.sound.take hreturned hidle (fun l _ _ i _ => hmono l.queue i) hpoints
  change WeightState.construct s n q waited = _ at hconstruct
  have hlease : ∀ l ∈ s.leases ++ [(s.construct n q waited).lease], l ∈ s.leases ∨ l.phase = .held := by
    intro l hl
    rw [hconstruct] at hl
    rcases List.mem_append.mp hl with hl | hl
    · exact .inl hl
    · rw [List.mem_singleton.mp hl]
      exact .inr rfl
  refine ⟨?_, fun l hl j hj => ?_, fun l hl j hthrown => ?_, fun l hl hdone => ?_⟩
  · change Sound (s.construct n q waited).cache _ (s.leases ++ [(s.construct n q waited).lease]) _
      at hsound
    rw [hconstruct] at hsound ⊢
    exact hsound
  · rw [hconstruct]
    rcases hlease l hl with hl | hheld
    · exact hmono _ _ (h.behind l hl j hj)
    · exact absurd hheld hj.not_held
  · rcases hlease l hl with hl | hheld
    · exact h.calm l hl j hthrown
    · rw [hheld] at hthrown
      cases hthrown
  · rcases hlease l hl with hl | hheld
    · exact h.done l hl hdone
    · rw [hheld] at hdone
      cases hdone

theorem Inv.kernel (h : Inv s) (hl : s.leases[k]? = some l) (hheld : l.phase = .held) :
    Inv { s.setLease k { l with phase := .queued s.ops.length } with
      ops := enqueue s.ops l.queue [] (some ⟨l.n, l.load, l.save⟩) } where
  sound := h.sound.queue hl hheld rfl (fun i hi => hi.before_last (by simp))
    fun _ _ _ _ _ i _ hi => passed_enqueue hi
  behind l₂ hl₂ j hj := by
    rcases List.mem_or_eq_of_mem_set hl₂ with hl₂ | rfl
    · exact passed_enqueue (h.behind l₂ hl₂ j hj)
    · obtain rfl := hj.unique (.inl rfl)
      exact passed_last
  calm := Calls.forall_set nofun h.calm
  done := Calls.forall_set nofun h.done

theorem Inv.other (h : Inv s) : Inv { s with ops := enqueue s.ops q waits none } where
  sound := h.sound.idle (by simp) fun _ _ _ i _ hi => passed_enqueue hi
  behind l hl j hj := passed_enqueue (h.behind l hl j hj)
  calm := h.calm
  done := h.done

/-- An exception after a kernel that loads nothing. -/
theorem Inv.throws (h : Inv s) (hl : s.leases[k]? = some l) (hj : l.phase = .queued j)
    (hload : l.load = none) : Inv (s.setLease k { l with phase := .thrown j }) where
  sound := h.sound.thrown hl hj
  behind := by
    refine Calls.forall_set (fun i hi => ?_) h.behind
    obtain rfl := hi.unique (.inr rfl)
    exact h.behind l (List.mem_of_getElem? hl) _ (.inl hj)
  calm := Calls.forall_set (fun _ _ => hload) h.calm
  done := Calls.forall_set nofun h.done

/-- Another phase of one request, and other sets. -/
theorem Inv.ends {c' : WeightCache Q} {l' : WeightLease Q} (h : Inv s)
    (hsound : Sound c' s.ops (s.leases.set k l') (Passed s.ops)) (hl' : ¬ l'.Live)
    (hdone : l'.phase = .completed → l'.load = none ∧ l'.save = none) :
    Inv { s.setLease k l' with cache := c' } where
  sound := hsound
  behind := Calls.forall_set (fun j hj => absurd (.inr ⟨j, hj⟩) hl') h.behind
  calm := Calls.forall_set (fun j hj => absurd (.inr ⟨j, .inr hj⟩) hl') h.calm
  done := Calls.forall_set hdone h.done

theorem Inv.queued (h : Inv s) (hl : s.leases[k]? = some l) (hj : l.phase = .queued j)
    (hgood : l.load.isSome → read ∧ (l.save.isSome → written)) :
    Inv (s.queued k l j read written) := by
  have hevent : Behind s.ops (some (streamEnd s.ops l.queue)) j :=
    ⟨_, rfl, h.behind l (List.mem_of_getElem? hl) j (.inl hj)⟩
  unfold WeightState.queued
  rw [if_neg (by simpa using fun hload => (hgood hload).1)]
  dsimp only
  split
  · next hfailed =>
    -- only a lease that loads nothing may fail here
    obtain ⟨hsave, hwritten⟩ : l.save.isSome = true ∧ written = false := by simpa using hfailed
    have hload : l.load = none := by
      by_contra hload
      have hrecorded := (hgood (Option.isSome_iff_ne_none.mpr hload)).2 hsave
      rw [hwritten] at hrecorded
      cases hrecorded
    have hsame : ∀ f, s.cache.modify l.load f = s.cache := by
      intro f
      rw [hload]
      rfl
    rw [hsame]
    exact h.throws hl hj hload
  · exact h.ends (h.sound.complete hl hj hevent hevent rfl)
      (by rintro (h | ⟨_, h | h⟩) <;> cases h) fun _ => ⟨rfl, rfl⟩

theorem Inv.destroy (h : Inv s) (hl : s.leases[k]? = some l)
    (hphase : l.phase = .held ∨ (∃ j, l.phase = .thrown j) ∨ l.phase = .completed)
    (hgood : ∀ j, l.phase = .thrown j → l.save.isSome → written) :
    Inv (s.destroy k l read written) := by
  have hmem := List.mem_of_getElem? hl
  have hended : ¬ ({ l with phase := .ended } : WeightLease Q).Live := by
    rintro (h | ⟨_, h | h⟩) <;> cases h
  have hparted := h.sound.parted l hmem
  unfold WeightState.destroy
  refine h.ends ?_ hended nofun
  rcases hphase with hheld | ⟨j, hj⟩ | hdone
  · apply h.sound.drop hl hheld hended hparted rfl
    intro w x i hw huses hwritten
    unfold eventRecord
    split
    · exact ⟨_, rfl, (h.sound.leases l hmem).saveReady w i hheld hw huses⟩
    · exact hwritten
  · apply h.sound.abandon hl (.inr hj) (h.calm l hmem j hj) hended hparted rfl
    intro w x hw
    rw [eventRecord, if_pos (hgood j hj (by simp [hw]))]
    exact ⟨_, rfl, h.behind l hmem j (.inr hj)⟩
  · obtain ⟨hload, hsave⟩ := h.done l hmem hdone
    have hsame : ∀ f g, (s.cache.modify l.load f).modify l.save g = s.cache := by
      intro f g
      rw [hload, hsave]
      rfl
    rw [hsame]
    apply h.sound.retire hl _ hended hparted
    rintro (h | ⟨_, h | h⟩) <;> rw [hdone] at h <;> cases h

/-- A call that goes well. -/
theorem Inv.step {call : WeightCall Q} (h : Inv s) (hgood : s.Completes call)
    (hstep : s.step call = some s') : Inv s' := by
  cases call with
  | construct n stream waited =>
    obtain rfl := Option.some.inj hstep
    exact h.construct hgood
  | other stream waits =>
    obtain rfl := Option.some.inj hstep
    exact h.other
  | throws k =>
    obtain ⟨l, hl, hstep⟩ := Option.bind_eq_some_iff.mp hstep
    split at hstep
    · next j hj =>
      obtain rfl := Option.some.inj hstep
      exact h.throws hl hj (hgood l hl)
    · cases hstep
  | kernel k =>
    obtain ⟨l, hl, hstep⟩ := Option.bind_eq_some_iff.mp hstep
    split at hstep
    · next hheld =>
      obtain rfl := Option.some.inj hstep
      exact h.kernel hl hheld
    · cases hstep
  | queued k read written =>
    obtain ⟨l, hl, hstep⟩ := Option.bind_eq_some_iff.mp hstep
    split at hstep
    · next j hj =>
      obtain rfl := Option.some.inj hstep
      exact h.queued hl hj (hgood l hl)
    · cases hstep
  | destroy k read written =>
    obtain ⟨l, hl, hstep⟩ := Option.bind_eq_some_iff.mp hstep
    split at hstep
    · next hheld =>
      obtain rfl := Option.some.inj hstep
      exact h.destroy hl (.inl hheld) fun j => hgood l j hl
    · next j hj =>
      obtain rfl := Option.some.inj hstep
      exact h.destroy hl (.inr (.inl ⟨j, hj⟩)) fun j => hgood l j hl
    · next hdone =>
      obtain rfl := Option.some.inj hstep
      exact h.destroy hl (.inr (.inr hdone)) fun j => hgood l j hl
    · cases hstep

/-- The calls of a run, each of which goes well. -/
abbrev Run (count : Nat) (calls : List (WeightCall Q)) (s : WeightState Q) : Prop :=
  Path (fun s call s' => s.Completes call ∧ s.step call = some s') (start count) calls s

theorem Run.inv {count : Nat} {calls : List (WeightCall Q)} (h : Run count calls s) : Inv s :=
  h.invariant (inv_start count) fun _ _ _ hs h => h.step hs.1 hs.2

end WeightState

end NssFactory.Cuda

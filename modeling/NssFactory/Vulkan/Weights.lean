import NssFactory.Lib.Steps
import NssFactory.Gpu.Weights
import NssFactory.Vulkan.Batches

/-!
# The weight maps of NLM on Vulkan

`WeightLease` of `vulkan/nlm/filter.cpp` on slots and timelines: the constructor has the compute
stage wait for batches, and `submitted` keeps the value of the compute stage. `Slot.submit` may
fail after the compute stage has reached its queue.

A lease that throws in its constructor has no destructor, so the set it has marked stays busy.
A lease that is destroyed when its compute stage was submitted gives the sets back as if they
were not in use. `Run.inv` says that nothing else goes wrong.
-/

namespace NssFactory.Vulkan

open Gpu

/-- The cache, the slots, the batches of all of them, and the requests. -/
structure WeightState (S F : Type*) where
  cache : WeightCache S
  slots : S → Slot S F
  ops : KernelOps S
  leases : List (WeightLease S)

/-- What a request does next, with the results of the calls it makes. `call`: of the slot it has,
while nothing is submitted or once the lease is completed. `throws`: `publish_result`. `finish`:
the slot is given back. -/
inductive WeightCall (S F : Type*) where
  | construct (n : Nat) (slot : S) (began : LeaseWait → VkResult) (stored : LeaseWait → Bool)
  | call (slot : S) (call : SlotCall S F)
  | submit (request : Nat) (results : Stage → SubmitResult)
  | throws (request : Nat)
  | submitted (request : Nat)
  | destroy (request : Nat)
  | finish (request : Nat)

variable {S F : Type*} [DecidableEq S]

/-- The value that the stage signals; the null handle before it is submitted. -/
def Slot.doneAt (s : Slot S F) (timeline : S) (i : Stage) : Option (Point S) :=
  if (s.stages i).done ≠ 0 then some ⟨timeline, (s.stages i).done⟩ else none

/-- A batch of a slot. Only the compute stage is the kernel. -/
def batchOperation (slot : S) (kernel : Option Kernel) (b : Submission S) :
    Operation S (Option Kernel) :=
  ⟨⟨slot, b.value⟩, b.points slot, if b.stage = .compute then kernel else none⟩

namespace WeightState

/-- A slot is its timeline. -/
def envOf (env : SlotEnv S) (slot : S) : SlotEnv S := { env with timeline := slot }

def setLease (s : WeightState S F) (k : Nat) (l : WeightLease S) : WeightState S F :=
  { s with leases := s.leases.set k l }

/-- A slot after a call, and what the call has submitted. -/
def setSlot (s : WeightState S F) (slot : S) (x : Slot S F) (kernel : Option Kernel) :
    WeightState S F :=
  { s with
    slots := Function.update s.slots slot x
    ops := s.ops ++ (Slot.newBatches (s.slots slot) x).map (batchOperation slot kernel) }

/-- `wait` of the constructor. -/
def leaseWait (env : SlotEnv S) (slot : S) (began : LeaseWait → VkResult)
    (stored : LeaseWait → Bool) (which : LeaseWait) (p : Option (Point S)) (x : Slot S F) :
    Bool × Slot S F :=
  match p with
  | none => (true, x)
  | some p =>
    match x.waitFor (envOf env slot) .compute (some p.queue) p.number (began which)
        (stored which) with
    | (.ok (), x) => (true, x)
    | (.error _, x) => (false, x)

def construct (env : SlotEnv S) (s : WeightState S F) (n : Nat) (slot : S)
    (began : LeaseWait → VkResult) (stored : LeaseWait → Bool) : Constructed S (Slot S F) :=
  WeightLease.construct (leaseWait env slot began stored) s.cache (s.slots slot) n slot

/-- `slot.submit()`, and where it leaves the request. -/
def submit (env : SlotEnv S) (s : WeightState S F) (k : Nat) (l : WeightLease S)
    (results : Stage → SubmitResult) : WeightState S F :=
  let r := (s.slots l.queue).submit (envOf env l.queue) results
  let compute := (Slot.newBatches (s.slots l.queue) r.2).findIdx? (·.stage = .compute)
  let phase := match r.1, compute with
    | .ok (), some j => .queued (s.ops.length + j)
    | .error _, some j => .thrown (s.ops.length + j)
    | _, none => l.phase
  (s.setSlot l.queue r.2 (some ⟨l.n, l.load, l.save⟩)).setLease k { l with phase := phase }

/-- `WeightLease::submitted`. -/
def submitted (s : WeightState S F) (k : Nat) (l : WeightLease S) : WeightState S F :=
  let compute := (s.slots l.queue).doneAt l.queue .compute
  let c := s.cache.modify l.load fun w => { w with read := compute, loaded := true, busy := false }
  let clock := if l.save.isSome then c.clock + 1 else c.clock
  let c := c.modify l.save fun w =>
    { w with written := compute, frame := l.n, loaded := false, used := clock, busy := false }
  { s.setLease k { l with load := none, save := none, phase := .completed } with
    cache := { c with clock := clock } }

/-- `~WeightLease`. -/
def destroy (s : WeightState S F) (k : Nat) (l : WeightLease S) : WeightState S F :=
  let c := s.cache.modify l.load fun w => { w with busy := false }
  let c := c.modify l.save fun w => { w with busy := false }
  { s.setLease k { l with phase := .released } with cache := c }

/-- The calls that the request of a lease makes to its slot. -/
def mayCall (l : WeightLease S) (c : SlotCall S F) : Bool :=
  match l.phase with
  | .held => decide (Slot.Records c)
  | .queued _ | .thrown _ => false
  | .completed | .released | .ended => true

/-- A step of a request; `none` where there is no such step. A request submits after it has
recorded its dispatch. -/
def step (env : SlotEnv S) (s : WeightState S F) : WeightCall S F → Option (WeightState S F)
  | .construct n slot began stored =>
    if s.leases.all fun l => l.queue ≠ slot || l.phase = .ended then
      let r := s.construct env n slot began stored
      some { s.setSlot slot r.device none with cache := r.cache, leases := s.leases ++ [r.lease] }
    else none
  | .call slot c =>
    if s.leases.all fun l => l.queue ≠ slot || mayCall l c then
      some (s.setSlot slot ((s.slots slot).call (envOf env slot) c) none)
    else none
  | .submit k results => s.leases[k]?.bind fun l =>
    let x := s.slots l.queue
    if l.phase = .held ∧ x.state = .recording ∧ (x.stages .compute).recording then
      some (s.submit env k l results)
    else none
  | .throws k => s.leases[k]?.bind fun l =>
    match l.phase with
    | .queued j => some (s.setLease k { l with phase := .thrown j })
    | _ => none
  | .submitted k => s.leases[k]?.bind fun l =>
    match l.phase with
    | .queued _ => some (s.submitted k l)
    | _ => none
  | .destroy k => s.leases[k]?.bind fun l =>
    match l.phase with
    | .held | .thrown _ | .completed => some (s.destroy k l)
    | _ => none
  | .finish k => s.leases[k]?.bind fun l =>
    if l.phase = .released then some (s.setLease k { l with phase := .ended }) else none

def start (count : Nat) : WeightState S F where
  cache := { sets := List.replicate count {} }
  slots := fun _ => Slot.start S F
  ops := []
  leases := []

/-- The calls that go well: a constructor returns, and once the compute stage is submitted a
request that has a set does not throw before the lease is completed. -/
def Completes (env : SlotEnv S) (s : WeightState S F) : WeightCall S F → Prop
  | .construct n slot began stored => (s.construct env n slot began stored).returned = true
  | .submit k results => ∀ l, s.leases[k]? = some l →
    ((s.slots l.queue).submit (envOf env l.queue) results).1 = .ok () ∨
      (∀ b ∈ Slot.newBatches (s.slots l.queue)
        ((s.slots l.queue).submit (envOf env l.queue) results).2, b.stage ≠ .compute) ∨
      l.load = none ∧ l.save = none
  | .throws k => ∀ l, s.leases[k]? = some l → l.load = none ∧ l.save = none
  | .call .. | .submitted _ | .destroy _ | .finish _ => True

/-! ## What the next kernel waits for -/

variable {ops more : KernelOps S} {x x' : Slot S F} {q : S} {i : Nat}

/-- The points that the compute stage of a slot waits for. -/
def slotPoints (x : Slot S F) (q : S) : List (Point S) :=
  ⟨q, x.value⟩ :: (x.stages .compute).waits.map fun (semaphore, value) => ⟨semaphore, value⟩

/-- A kernel that the slot submits next comes after operation `i`. -/
def Pending (ops : KernelOps S) (x : Slot S F) (q : S) (i : Nat) : Prop :=
  ∃ p ∈ slotPoints x q, Reaches ops p i

omit [DecidableEq S] in
theorem Pending.append (h : Pending ops x q i) : Pending (ops ++ more) x q i := by
  obtain ⟨p, hp, hreach⟩ := h
  exact ⟨p, hp, hreach.append⟩

omit [DecidableEq S] in
theorem Pending.raised (h : Pending ops x q i) (hvalue : x.value ≤ x'.value)
    (hraised : Slot.Raised (x.stages .compute).waits (x'.stages .compute).waits) :
    Pending ops x' q i := by
  obtain ⟨p, hp, hreach⟩ := h
  rcases List.mem_cons.mp hp with rfl | hp
  · exact ⟨⟨q, x'.value⟩, List.mem_cons_self, hreach.mono ⟨rfl, hvalue⟩⟩
  · obtain ⟨⟨semaphore, v⟩, hmem, rfl⟩ := List.mem_map.mp hp
    obtain ⟨v', hmem', hle⟩ := hraised semaphore v hmem
    exact ⟨⟨semaphore, v'⟩, List.mem_cons_of_mem _ (List.mem_map.mpr ⟨_, hmem', rfl⟩),
      hreach.mono ⟨rfl, hle⟩⟩

omit [DecidableEq S] in
/-- The compute stage, when it is submitted. -/
theorem Pending.before {b : Submission S} {kernel : Option Kernel} (h : Pending ops x q i)
    (hpos : ∀ (i : Nat) a, ops[i]? = some a → 0 < a.point.number) (hnext : Slot.Next x b)
    (hwaits : b.waits = (x.stages .compute).waits) :
    Before (ops ++ [batchOperation q kernel b]) i ops.length := by
  obtain ⟨p, hp, hreach⟩ := h
  rcases List.mem_cons.mp hp with rfl | hp
  · obtain ⟨j, a, ha, hincl, -⟩ := id hreach
    have hvalue : 0 < x.value := Nat.lt_of_lt_of_le (hpos j a ha) hincl.2
    obtain ⟨v, hv, hle⟩ := hnext.after x.value (Nat.le_refl _) hvalue
    apply (hreach.mono (p := ⟨q, v⟩) ⟨rfl, hle⟩).before_last
    simp [batchOperation, Submission.points, hv]
  · apply hreach.before_last
    rw [batchOperation, Submission.points, hwaits]
    exact List.mem_append_right _ hp

/-! ## Every call that goes well keeps the invariant -/

/-- Each operation of a slot is on its timeline. -/
def Numbered (slots : S → Slot S F) (ops : KernelOps S) : Prop :=
  ∀ (i : Nat) a, ops[i]? = some a →
    0 < a.point.number ∧ a.point.number ≤ (slots a.point.queue).value

structure Inv (s : WeightState S F) : Prop where
  sound : Sound s.cache s.ops s.leases fun q i => Pending s.ops (s.slots q) q i
  numbered : Numbered s.slots s.ops
  /-- the compute stage of a kernel is the last that its slot has submitted -/
  done : ∀ l ∈ s.leases, ∀ j, l.Launched j → ∃ a, s.ops[j]? = some a ∧
    a.point = ⟨l.queue, ((s.slots l.queue).stages .compute).done⟩
  apart : ∀ (j k : Nat) l l', s.leases[j]? = some l → s.leases[k]? = some l' → l.queue = l'.queue →
    l.phase ≠ .ended → l'.phase ≠ .ended → j = k
  given : ∀ l ∈ s.leases, (∃ j, l.phase = .thrown j) ∨ l.phase = .completed →
    l.load = none ∧ l.save = none

variable {s s' : WeightState S F} {l : WeightLease S} {k n j : Nat} {env : SlotEnv S}

omit [DecidableEq S] in
theorem inv_start (count : Nat) : Inv (start (S := S) (F := F) count) :=
  ⟨sound_start count, nofun, nofun, nofun, nofun⟩

theorem Numbered.add {slots : S → Slot S F} {x : Slot S F} {bs : List (Submission S)}
    (h : Numbered slots ops) (hadds : Slot.Adds (slots q) x bs) (kernel : Option Kernel) :
    Numbered (Function.update slots q x) (ops ++ bs.map (batchOperation q kernel)) := by
  intro i a ha
  rcases Nat.lt_or_ge i ops.length with hi | hi
  · rw [List.getElem?_append_left hi] at ha
    obtain ⟨hpos, hle⟩ := h i a ha
    by_cases hq : a.point.queue = q
    · rw [hq, Function.update_self]
      exact ⟨hpos, Nat.le_trans (hq ▸ hle) hadds.value⟩
    · rw [Function.update_of_ne hq]
      exact ⟨hpos, hle⟩
  · rw [List.getElem?_append_right hi] at ha
    obtain ⟨b, hb, rfl⟩ := List.mem_map.mp (List.mem_of_getElem? ha)
    have hvalue : (slots q).value < b.value := (hadds.next b hb).value
    refine ⟨Nat.zero_lt_of_lt hvalue, ?_⟩
    change b.value ≤ (Function.update slots q x q).value
    rw [Function.update_self]
    exact hadds.le b hb

/-- Another slot, and what it has submitted since, as long as it has no kernel to submit. -/
theorem Inv.setSlot {x : Slot S F} {bs : List (Submission S)} (h : Inv s)
    (hadds : Slot.Adds (s.slots q) x bs)
    (hslot : ∀ l ∈ s.leases, l.queue = q → (∀ j, ¬ l.Launched j) ∧ (l.phase = .held →
      Slot.Raised ((s.slots q).stages .compute).waits (x.stages .compute).waits)) :
    Inv (s.setSlot q x none) where
  sound := by
    refine h.sound.idle (fun a ha => ?_) fun l hl hheld i hi hpending => ?_
    · obtain ⟨b, -, rfl⟩ := List.mem_map.mp ha
      simp [batchOperation]
    · by_cases hq : l.queue = q
      · subst hq
        simp only [WeightState.setSlot, Function.update_self]
        exact hpending.append.raised hadds.value ((hslot l hl rfl).2 hheld)
      · simp only [WeightState.setSlot, Function.update_of_ne hq]
        exact hpending.append
  numbered := by
    have hnumbered := h.numbered.add hadds none
    rwa [← hadds.newBatches_eq] at hnumbered
  done l hl j hj := by
    have hq : l.queue ≠ q := fun hq => (hslot l hl hq).1 j hj
    obtain ⟨a, ha, hpoint⟩ := h.done l hl j hj
    simp only [WeightState.setSlot, Function.update_of_ne hq]
    exact ⟨a, getElem?_append ha, hpoint⟩
  apart := h.apart
  given := h.given

theorem Inv.call {c : SlotCall S F} (h : Inv s)
    (hmay : ∀ l ∈ s.leases, l.queue = q → mayCall l c = true) :
    Inv (s.setSlot q ((s.slots q).call (envOf env q) c) none) := by
  obtain ⟨bs, hadds⟩ := Slot.call_adds (envOf env q) (s.slots q) c
  apply h.setSlot hadds
  intro l hl hq
  have hl' := hmay l hl hq
  unfold mayCall at hl'
  constructor
  · rintro j (hj | hj) <;> rw [hj] at hl' <;> cases hl'
  · intro hheld
    rw [hheld] at hl'
    exact (Slot.call_keeps (of_decide_eq_true hl') (s.slots q)).waits .compute

/-- What the waits of a constructor leave in the slot. -/
theorem construct_waits {began : LeaseWait → VkResult} {stored : LeaseWait → Bool}
    {points : List (LeaseWait × Option (Point S))}
    (h : waitAll (leaseWait env q began stored) points x = (true, x')) :
    Slot.Keeps x x' ∧ ∀ p ∈ points, ∀ y, p.2 = some y → y.queue = q ∨
      ∃ v, (y.queue, v) ∈ (x'.stages .compute).waits ∧ y.number ≤ v := by
  let Waited (done : List (LeaseWait × Option (Point S))) (x' : Slot S F) : Prop :=
    Slot.Keeps x x' ∧ ∀ p ∈ done, ∀ y, p.2 = some y → y.queue = q ∨
      ∃ v, (y.queue, v) ∈ (x'.stages .compute).waits ∧ y.number ≤ v
  have start : Waited [] x := ⟨.refl x, nofun⟩
  refine waitAll_run (P := Waited) start ?_ h
  rintro done which p x₁ x₂ ⟨hkeeps, hdone⟩ hwait
  -- a wait stays when later ones are added
  have hmono : Slot.Keeps x₁ x₂ → ∀ p ∈ done, ∀ y, p.2 = some y → y.queue = q ∨
      ∃ v, (y.queue, v) ∈ (x₂.stages .compute).waits ∧ y.number ≤ v := by
    intro hkeeps' p hp y hy
    refine (hdone p hp y hy).imp_right ?_
    rintro ⟨v, hv, hle⟩
    obtain ⟨v', hv', hle'⟩ := hkeeps'.waits .compute _ v hv
    exact ⟨v', hv', Nat.le_trans hle hle'⟩
  unfold leaseWait at hwait
  cases p with
  | none =>
    obtain rfl := (Prod.mk.inj hwait).2
    refine ⟨hkeeps, fun p hp y hy => ?_⟩
    rcases List.mem_append.mp hp with hp | hp
    · exact hdone p hp y hy
    · rw [List.mem_singleton.mp hp] at hy
      cases hy
  | some p =>
    obtain ⟨hkeeps', hwaits⟩ := Slot.waitFor_cases (envOf env q) x₁ .compute p.queue p.number
      (began which) (stored which)
    dsimp only at hwait
    split at hwait
    · next x₃ hok =>
      obtain rfl := (Prod.mk.inj hwait).2
      rw [hok] at hkeeps' hwaits
      refine ⟨hkeeps.trans hkeeps', fun p' hp' y hy => ?_⟩
      rcases List.mem_append.mp hp' with hp' | hp'
      · exact hmono hkeeps' p' hp' y hy
      · rw [List.mem_singleton.mp hp'] at hy
        obtain rfl := Option.some.inj hy
        exact hwaits rfl
    · cases hwait

theorem Inv.construct {began : LeaseWait → VkResult} {stored : LeaseWait → Bool} (h : Inv s)
    (hfree : ∀ l ∈ s.leases, l.queue = q → l.phase = .ended)
    (hreturned : (s.construct env n q began stored).returned = true) :
    Inv { s.setSlot q (s.construct env n q began stored).device none with
      cache := (s.construct env n q began stored).cache
      leases := s.leases ++ [(s.construct env n q began stored).lease] } := by
  obtain ⟨x, hwaits, hconstruct⟩ := construct_returned hreturned
  obtain ⟨hkeeps, hpoints⟩ := construct_waits hwaits
  have hslot : Inv (s.setSlot q x none) := by
    apply h.setSlot (Slot.adds_nil hkeeps.submissions hkeeps.value)
    intro l hl hq
    simp [WeightLease.Launched, hfree l hl hq]
  have hstart : (s.setSlot q x none).slots q = x := Function.update_self ..
  have hready : ∀ p ∈ leasePoints s.cache n, ∀ i, Behind (s.setSlot q x none).ops p.2 i →
      Pending (s.setSlot q x none).ops ((s.setSlot q x none).slots q) q i := by
    rintro p hp i ⟨y, hy, hreach⟩
    rw [hstart]
    rcases hpoints p hp y hy with hq | ⟨v, hv, hle⟩
    · -- what is on the slot's own timeline is before its next batch
      obtain ⟨j, a, ha, hincl, hij⟩ := hreach
      obtain ⟨-, hnumber⟩ := hslot.numbered j a ha
      have hqueue : a.point.queue = q := hincl.1.trans hq
      rw [hqueue, hstart] at hnumber
      exact ⟨⟨q, x.value⟩, List.mem_cons_self, j, a, ha, ⟨hqueue, hnumber⟩, hij⟩
    · exact ⟨⟨y.queue, v⟩, List.mem_cons_of_mem _ (List.mem_map.mpr ⟨_, hv, rfl⟩),
        hreach.mono ⟨rfl, hle⟩⟩
  have htake : Sound (s.construct env n q began stored).cache ((s.setSlot q x none).ops ++ [])
      (s.leases ++ [(s.construct env n q began stored).lease]) fun q' i =>
        Pending (s.setSlot q x none).ops ((s.setSlot q x none).slots q') q' i :=
    hslot.sound.take hreturned (List.forall_mem_nil _) (fun _ _ _ _ _ hr => hr) hready
  rw [List.append_nil] at htake
  change WeightState.construct env s n q began stored = _ at hconstruct
  rw [hconstruct] at htake ⊢
  have hlast : ∀ {l : WeightLease S}, l ∈ s.leases ++ [⟨n, q, s.cache.pickLoad n,
      s.cache.pickSave (s.cache.pickLoad n), .held⟩] → l ∈ s.leases ∨ l.phase = .held := by
    intro l hl
    rcases List.mem_append.mp hl with hl | hl
    · exact .inl hl
    · rw [List.mem_singleton.mp hl]
      exact .inr rfl
  refine ⟨htake, hslot.numbered, fun l hl j hj => ?_, ?_, fun l hl hdone => ?_⟩
  · rcases hlast hl with hl | hheld
    · exact hslot.done l hl j hj
    · exact absurd hheld hj.not_held
  · intro j k l l' hl hl' hq hphase hphase'
    rcases Calls.getElem?_snoc_iff.mp hl with hl | ⟨rfl, rfl⟩ <;>
      rcases Calls.getElem?_snoc_iff.mp hl' with hl' | ⟨rfl, rfl⟩
    · exact h.apart j k l l' hl hl' hq hphase hphase'
    · exact absurd (hfree l (List.mem_of_getElem? hl) hq) hphase
    · exact absurd (hfree l' (List.mem_of_getElem? hl') hq.symm) hphase'
    · rfl
  · rcases hlast hl with hl | hheld
    · exact h.given l hl hdone
    · simp [hheld] at hdone

omit [DecidableEq S] in
/-- A request that moves on keeps its slot to itself. -/
theorem Inv.apart_set (h : Inv s) (hl : s.leases[k]? = some l) {l' : WeightLease S}
    (hq : l'.queue = l.queue) (hphase : l.phase ≠ .ended) (i j : Nat) (l₁ l₂ : WeightLease S)
    (hi : (s.leases.set k l')[i]? = some l₁) (hj : (s.leases.set k l')[j]? = some l₂)
    (hsame : l₁.queue = l₂.queue) (h₁ : l₁.phase ≠ .ended) (h₂ : l₂.phase ≠ .ended) : i = j := by
  have hold : ∀ {j : Nat} {l₁ : WeightLease S}, (s.leases.set k l')[j]? = some l₁ →
      l₁.phase ≠ .ended → ∃ l₂, s.leases[j]? = some l₂ ∧ l₂.queue = l₁.queue ∧ l₂.phase ≠ .ended := by
    intro j l₁ hj h₁
    rcases (Calls.getElem?_set_iff hl).mp hj with ⟨rfl, rfl⟩ | ⟨-, hj⟩
    · exact ⟨l, hl, hq.symm, hphase⟩
    · exact ⟨l₁, hj, rfl, h₁⟩
  obtain ⟨l₁', hi', hq₁, h₁'⟩ := hold hi h₁
  obtain ⟨l₂', hj', hq₂, h₂'⟩ := hold hj h₂
  exact h.apart i j l₁' l₂' hi' hj' (hq₁.trans (hsame.trans hq₂.symm)) h₁' h₂'

/-- The compute stage of a request among the batches of its slot. -/
theorem Inv.submitKernel {x : Slot S F} {b : Submission S} {pre post : List (Submission S)}
    (h : Inv s) (hl : s.leases[k]? = some l) (hheld : l.phase = .held)
    (hadds : Slot.Adds (s.slots l.queue) x (pre ++ b :: post)) (hb : b.stage = .compute)
    (hwaits : b.waits = ((s.slots l.queue).stages .compute).waits)
    (hdone : (x.stages .compute).done = b.value)
    (hpre : ∀ b' ∈ pre, b'.stage ≠ .compute) (hpost : ∀ b' ∈ post, b'.stage ≠ .compute) :
    Inv ((s.setSlot l.queue x (some ⟨l.n, l.load, l.save⟩)).setLease k
      { l with phase := .queued (s.ops.length + pre.length) }) := by
  let op := batchOperation (S := S) l.queue (some ⟨l.n, l.load, l.save⟩)
  have hops : (s.setSlot l.queue x (some ⟨l.n, l.load, l.save⟩)).ops =
      (s.ops ++ pre.map op ++ [op b]) ++ post.map op := by
    simp [WeightState.setSlot, hadds.newBatches_eq, op]
  have hlength : (s.ops ++ pre.map op).length = s.ops.length + pre.length := by simp
  have hidle : ∀ {bs : List (Submission S)}, (∀ b' ∈ bs, b'.stage ≠ .compute) →
      ∀ a ∈ bs.map op, a.act = none := by
    intro bs hbs a ha
    obtain ⟨b', hb', rfl⟩ := List.mem_map.mp ha
    exact if_neg (hbs b' hb')
  -- the other requests have other slots
  have hother : ∀ {j : Nat} {l₂}, j ≠ k → s.leases[j]? = some l₂ → l₂.phase ≠ .ended →
      l₂.queue ≠ l.queue := fun hj hl₂ hphase hq =>
    hj (h.apart _ k _ l hl₂ hl hq hphase (by simp [hheld]))
  have hnumbered : Numbered (Function.update s.slots l.queue x)
      (s.setSlot l.queue x (some ⟨l.n, l.load, l.save⟩)).ops := by
    have hadd := h.numbered.add hadds (some ⟨l.n, l.load, l.save⟩)
    rwa [← hadds.newBatches_eq] at hadd
  have hsound : Sound s.cache (s.ops ++ pre.map op) s.leases fun q i =>
      Pending (s.ops ++ pre.map op) (s.slots q) q i :=
    h.sound.idle (hidle hpre) fun _ _ _ _ _ hpending => hpending.append
  have hpos : ∀ (i : Nat) a, (s.ops ++ pre.map op)[i]? = some a → 0 < a.point.number := by
    intro i a ha
    apply (hnumbered i a _).1
    rw [hops]
    exact getElem?_append (getElem?_append ha)
  have hqueue : Sound s.cache (s.ops ++ pre.map op ++ [op b])
      (s.leases.set k { l with phase := .queued (s.ops ++ pre.map op).length }) fun q i =>
        Pending (s.ops ++ pre.map op ++ [op b]) (s.slots q) q i := by
    apply hsound.queue hl hheld (if_pos hb)
    · exact fun i hpending => hpending.before hpos (hadds.next b (by simp)) hwaits
    · exact fun _ _ _ _ _ _ _ hpending => hpending.append
  rw [hlength] at hqueue
  have hlast : ∀ {l₂}, l₂ ∈ s.leases.set k { l with phase := .queued (s.ops.length + pre.length) } →
      l₂ = { l with phase := .queued (s.ops.length + pre.length) } ∨
        l₂ ∈ s.leases ∧ (l₂.phase ≠ .ended → l₂.queue ≠ l.queue) := by
    intro l₂ hl₂
    obtain ⟨j, hj⟩ := List.mem_iff_getElem?.mp hl₂
    rcases (Calls.getElem?_set_iff hl).mp hj with ⟨-, rfl⟩ | ⟨hne, hj⟩
    · exact .inl rfl
    · exact .inr ⟨List.mem_of_getElem? hj, hother hne hj⟩
  constructor
  · change Sound s.cache (s.setSlot l.queue x (some ⟨l.n, l.load, l.save⟩)).ops _ _
    rw [hops]
    refine hqueue.idle (hidle hpost) fun l₂ hl₂ hheld₂ i _ hpending => ?_
    rcases hlast hl₂ with rfl | ⟨-, hq⟩
    · cases hheld₂
    · have hslot : Function.update s.slots l.queue x l₂.queue = s.slots l₂.queue :=
        Function.update_of_ne (hq (by simp [hheld₂])) ..
      change Pending (s.setSlot l.queue x (some ⟨l.n, l.load, l.save⟩)).ops
        (Function.update s.slots l.queue x l₂.queue) _ _
      rw [hslot, hops]
      exact hpending.append
  · exact hnumbered
  · intro l₂ hl₂ j hj
    change ∃ a, (s.setSlot l.queue x (some ⟨l.n, l.load, l.save⟩)).ops[j]? = some a ∧
      a.point = ⟨l₂.queue, ((Function.update s.slots l.queue x l₂.queue).stages .compute).done⟩
    rcases hlast hl₂ with rfl | ⟨hl₂, hq⟩
    · obtain rfl := hj.unique (.inl rfl)
      rw [hops, Function.update_self, hdone]
      refine ⟨op b, getElem?_append ?_, rfl⟩
      rw [← hlength]
      exact getElem?_last
    · obtain ⟨a, ha, hpoint⟩ := h.done l₂ hl₂ j hj
      have hne : l₂.phase ≠ .ended := by rcases hj with hj | hj <;> simp [hj]
      rw [Function.update_of_ne (hq hne)]
      exact ⟨a, getElem?_append ha, hpoint⟩
  · exact h.apart_set hl rfl (by simp [hheld])
  · exact Calls.forall_set (by simp) h.given

omit [DecidableEq S] in
/-- An exception after the kernel of a lease that has no sets. -/
theorem Inv.throws (h : Inv s) (hl : s.leases[k]? = some l) (hj : l.phase = .queued j)
    (hgiven : l.load = none ∧ l.save = none) : Inv (s.setLease k { l with phase := .thrown j }) where
  sound := h.sound.thrown hl hj
  numbered := h.numbered
  done := by
    refine Calls.forall_set (fun i hi => ?_) h.done
    obtain rfl := hi.unique (.inr rfl)
    exact h.done l (List.mem_of_getElem? hl) _ (.inl hj)
  apart := h.apart_set hl rfl (by simp [hj])
  given := Calls.forall_set (fun _ => hgiven) h.given

/-- The kernel of a request among the batches of its slot. -/
theorem Inv.submit {results : Stage → SubmitResult} (h : Inv s) (hl : s.leases[k]? = some l)
    (hheld : l.phase = .held) (hstate : (s.slots l.queue).state = .recording)
    (hrecording : ((s.slots l.queue).stages .compute).recording = true)
    (hgood : ((s.slots l.queue).submit (envOf env l.queue) results).1 = .ok () ∨
      (∀ b ∈ Slot.newBatches (s.slots l.queue)
        ((s.slots l.queue).submit (envOf env l.queue) results).2, b.stage ≠ .compute) ∨
      l.load = none ∧ l.save = none) :
    Inv (s.submit env k l results) := by
  obtain ⟨bs, hadds, hwaits, hsubmits⟩ :=
    Slot.submit_adds (envOf env l.queue) (s.slots l.queue) results hstate
  have hnew := hadds.newBatches_eq
  unfold WeightState.submit
  dsimp only
  rw [hnew] at hgood ⊢
  generalize hr : (s.slots l.queue).submit (envOf env l.queue) results = r at *
  obtain ⟨res, x⟩ := r
  rcases hsubmits with ⟨hnone, hoff⟩ | ⟨pre, b, post, rfl, hb, hbwaits, hdone, hpre, hpost⟩
  · -- the compute stage has not reached its queue
    have hindex : bs.findIdx? (·.stage = .compute) = none := by simpa using hnone
    have hidle : s.setSlot l.queue x (some ⟨l.n, l.load, l.save⟩) = s.setSlot l.queue x none := by
      unfold WeightState.setSlot
      rw [hnew]
      have hmap : bs.map (batchOperation l.queue (some ⟨l.n, l.load, l.save⟩)) =
          bs.map (batchOperation l.queue none) := by
        apply List.map_congr_left
        intro b hb
        simp only [batchOperation, if_neg (hnone b hb)]
      rw [hmap]
    have hsame : s.leases.set k l = s.leases := by
      obtain ⟨hk, rfl⟩ := List.getElem?_eq_some_iff.mp hl
      exact List.set_getElem_self hk
    have hslot : Inv (s.setSlot l.queue x none) := by
      apply h.setSlot hadds
      intro l₂ hl₂ hq
      refine ⟨fun j hj => ?_, fun _ => ?_⟩
      · obtain ⟨i, hi⟩ := List.mem_iff_getElem?.mp hl₂
        have hne : l₂.phase ≠ .ended := by rcases hj with hj | hj <;> simp [hj]
        obtain rfl := h.apart i k l₂ l hi hl hq hne (by simp [hheld])
        obtain rfl := Option.some.inj (hi.symm.trans hl)
        exact hj.not_held hheld
      · rw [hwaits]
        exact .refl _
    cases res with
    | ok _ =>
      have hnot := hoff rfl
      rw [hrecording] at hnot
      cases hnot
    | error e =>
      rw [hidle]
      simp only [hindex]
      change Inv { s.setSlot l.queue x none with leases := s.leases.set k l }
      rw [hsame]
      exact hslot
  · have hindex : (pre ++ b :: post).findIdx? (·.stage = .compute) = some pre.length := by
      rw [List.findIdx?_append, List.findIdx?_eq_none_iff.mpr (by simpa using hpre),
        List.findIdx?_cons]
      simp [hb]
    have hqueued := h.submitKernel hl hheld hadds hb hbwaits hdone hpre hpost
    cases res with
    | ok _ =>
      simp only [hindex]
      exact hqueued
    | error e =>
      have hgiven : l.load = none ∧ l.save = none := by
        rcases hgood with hok | hnone | hgiven
        · cases hok
        · exact absurd hb (hnone b (by simp))
        · exact hgiven
      have hthrown := hqueued.throws (Calls.getElem?_set_iff hl |>.mpr (.inl ⟨rfl, rfl⟩)) rfl hgiven
      simp only [hindex]
      rwa [WeightState.setLease, WeightState.setLease, List.set_set] at hthrown

omit [DecidableEq S] in
/-- Another phase of one request, and other sets. -/
theorem Inv.ends {c' : WeightCache S} {l' : WeightLease S} (h : Inv s)
    (hl : s.leases[k]? = some l) (hphase : l.phase ≠ .ended) (hq : l'.queue = l.queue)
    (hsound : Sound c' s.ops (s.leases.set k l') fun q i => Pending s.ops (s.slots q) q i)
    (hl' : ¬ l'.Live)
    (hgiven : (∃ j, l'.phase = .thrown j) ∨ l'.phase = .completed → l'.load = none ∧ l'.save = none) :
    Inv { s.setLease k l' with cache := c' } where
  sound := hsound
  numbered := h.numbered
  done l₂ hl₂ j hj := by
    rcases List.mem_or_eq_of_mem_set hl₂ with hl₂ | rfl
    · exact h.done l₂ hl₂ j hj
    · exact absurd (.inr ⟨j, hj⟩) hl'
  apart := h.apart_set hl hq hphase
  given := Calls.forall_set hgiven h.given

omit [DecidableEq S] in
theorem Inv.submitted (h : Inv s) (hl : s.leases[k]? = some l) (hj : l.phase = .queued j) :
    Inv (s.submitted k l) := by
  obtain ⟨a, ha, hpoint⟩ := h.done l (List.mem_of_getElem? hl) j (.inl hj)
  have hpos := (h.numbered j a ha).1
  rw [hpoint] at hpos
  have hcompute : Behind s.ops ((s.slots l.queue).doneAt l.queue .compute) j := by
    refine ⟨_, if_pos (Nat.ne_of_gt hpos), reaches_of_includes ha ?_⟩
    rw [hpoint]
    exact ⟨rfl, Nat.le_refl _⟩
  unfold WeightState.submitted
  exact h.ends hl (by simp [hj]) rfl (h.sound.complete hl hj hcompute hcompute rfl)
    (by rintro (h | ⟨_, h | h⟩) <;> cases h) fun _ => ⟨rfl, rfl⟩

omit [DecidableEq S] in
theorem Inv.destroy (h : Inv s) (hl : s.leases[k]? = some l)
    (hphase : l.phase = .held ∨ (∃ j, l.phase = .thrown j) ∨ l.phase = .completed) :
    Inv (s.destroy k l) := by
  have hmem := List.mem_of_getElem? hl
  have hended : ¬ ({ l with phase := .released } : WeightLease S).Live := by
    rintro (h | ⟨_, h | h⟩) <;> cases h
  have hparted := h.sound.parted l hmem
  have hne : l.phase ≠ .ended := by rcases hphase with h | ⟨_, h⟩ | h <;> simp [h]
  unfold WeightState.destroy
  refine h.ends hl hne rfl ?_ hended (by simp)
  rcases hphase with hheld | ⟨j, hj⟩ | hdone
  · exact h.sound.drop hl hheld hended hparted rfl fun _ _ _ _ _ hwritten => hwritten
  · obtain ⟨hload, hsave⟩ := h.given l hmem (.inl ⟨j, hj⟩)
    refine h.sound.abandon hl (.inr hj) hload hended hparted rfl fun w _ hw => ?_
    rw [hsave] at hw
    cases hw
  · obtain ⟨hload, hsave⟩ := h.given l hmem (.inr hdone)
    have hsame : ∀ f g, (s.cache.modify l.load f).modify l.save g = s.cache := by
      intro f g
      rw [hload, hsave]
      rfl
    rw [hsame]
    apply h.sound.retire hl _ hended hparted
    rintro (h | ⟨_, h | h⟩) <;> rw [hdone] at h <;> cases h

omit [DecidableEq S] in
theorem Inv.finish (h : Inv s) (hl : s.leases[k]? = some l) (hreleased : l.phase = .released) :
    Inv (s.setLease k { l with phase := .ended }) := by
  have hended : ¬ ({ l with phase := .ended } : WeightLease S).Live := by
    rintro (h | ⟨_, h | h⟩) <;> cases h
  refine h.ends hl (by simp [hreleased]) rfl ?_ hended (by simp)
  apply h.sound.retire hl _ hended (h.sound.parted l (List.mem_of_getElem? hl))
  rintro (h | ⟨_, h | h⟩) <;> rw [hreleased] at h <;> cases h

/-- A call that goes well. -/
theorem Inv.step {call : WeightCall S F} (h : Inv s) (hgood : s.Completes env call)
    (hstep : s.step env call = some s') : Inv s' := by
  cases call with
  | construct n slot began stored =>
    rw [WeightState.step] at hstep
    split at hstep
    · next hfree =>
      obtain rfl := Option.some.inj hstep
      refine h.construct (fun l hl hq => ?_) hgood
      simpa [hq] using List.all_eq_true.mp hfree l hl
    · cases hstep
  | call slot c =>
    rw [WeightState.step] at hstep
    split at hstep
    · next hmay =>
      obtain rfl := Option.some.inj hstep
      refine h.call fun l hl hq => ?_
      simpa [hq] using List.all_eq_true.mp hmay l hl
    · cases hstep
  | submit k results =>
    obtain ⟨l, hl, hstep⟩ := Option.bind_eq_some_iff.mp hstep
    dsimp only at hstep
    split at hstep
    · next hready =>
      obtain rfl := Option.some.inj hstep
      exact h.submit hl hready.1 hready.2.1 hready.2.2 (hgood l hl)
    · cases hstep
  | throws k =>
    obtain ⟨l, hl, hstep⟩ := Option.bind_eq_some_iff.mp hstep
    split at hstep
    · next j hj =>
      obtain rfl := Option.some.inj hstep
      exact h.throws hl hj (hgood l hl)
    · cases hstep
  | submitted k =>
    obtain ⟨l, hl, hstep⟩ := Option.bind_eq_some_iff.mp hstep
    split at hstep
    · next j hj =>
      obtain rfl := Option.some.inj hstep
      exact h.submitted hl hj
    · cases hstep
  | destroy k =>
    obtain ⟨l, hl, hstep⟩ := Option.bind_eq_some_iff.mp hstep
    split at hstep
    · next hheld =>
      obtain rfl := Option.some.inj hstep
      exact h.destroy hl (.inl hheld)
    · next j hj =>
      obtain rfl := Option.some.inj hstep
      exact h.destroy hl (.inr (.inl ⟨j, hj⟩))
    · next hdone =>
      obtain rfl := Option.some.inj hstep
      exact h.destroy hl (.inr (.inr hdone))
    · cases hstep
  | finish k =>
    obtain ⟨l, hl, hstep⟩ := Option.bind_eq_some_iff.mp hstep
    split at hstep
    · next hreleased =>
      obtain rfl := Option.some.inj hstep
      exact h.finish hl hreleased
    · cases hstep

/-- The calls of a run, each of which goes well. -/
abbrev Run (env : SlotEnv S) (count : Nat) (calls : List (WeightCall S F))
    (s : WeightState S F) : Prop :=
  Path (fun s call s' => s.Completes env call ∧ s.step env call = some s') (start count) calls s

theorem Run.inv {count : Nat} {calls : List (WeightCall S F)} (h : Run env count calls s) :
    Inv s :=
  h.invariant (inv_start count) fun _ _ _ hs h => h.step hs.1 hs.2

end WeightState

end NssFactory.Vulkan

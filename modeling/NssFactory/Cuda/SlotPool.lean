import Mathlib.Data.Multiset.AddSub
import NssFactory.Lib.Calls
import NssFactory.Lib.Steps

/-!
# The slot pool

`cuda/runtime/stream_pool.hpp`: a pool of slots with one mutex and one condition variable.
`acquire()` takes the slot free the longest, `acquire(order)` only for the lowest order that
waits; a lease gives its slot back when it is destroyed. A pool may be used with either, or
with both at once.

A step of the model is a critical section of the mutex, a notification (made after the mutex
is released, so that others may come in between), a wake-up without one, or a lease moved or
destroyed. `slotPool_leases` is what holds after every run.
-/

namespace NssFactory.Cuda.SlotPool

/-- Where a call is: one of `acquire`, with its order if it has one, before its section
(`entering`), blocked in the condition variable (`asleep`) or about to check again (`woken`);
`acquire(order)` that has its slot and found `more`; `give_back` before its section and, after
it, before its notification. -/
inductive Call where
  | entering (order : Option Int)
  | asleep (order : Option Int)
  | woken (order : Option Int)
  | more (slot : Nat)
  | returning (slot : Nat)
  | notifyAll
  | notifyOne
  | finished
deriving DecidableEq

namespace Call

/-- The order of a call in `waiting_`. -/
def waits : Call → Option Int
  | .asleep order | .woken order => order
  | _ => none

/-- The slot that a call has taken from a lease, or not yet given to one. -/
def slot : Call → Option Nat
  | .more slot | .returning slot => some slot
  | _ => none

def sleeps : Call → Bool
  | .asleep _ => true
  | _ => false

def wake : Call → Call
  | .asleep order => .woken order
  | c => c

/-- The call is about to wake everyone. -/
def wakesAll : Call → Bool
  | .more _ | .notifyAll => true
  | _ => false

/-- A wake-up of one unordered waiter that is on its way, or has arrived. -/
def wakesOne : Call → Bool
  | .notifyOne | .woken none => true
  | _ => false

end Call

/-- The members of `SlotPool`, its calls, and its leases (their `slot_`, empty once the lease
was moved from or destroyed). A slot stands for the address of an element of `slots_`. -/
structure Pool where
  free : List Nat
  waiting : Multiset Int
  calls : List Call
  leases : List (Option Nat)

inductive Event where
  | acquire (order : Option Int)
  | lock (k : Nat)
  | spurious (k : Nat)
  | notify (k : Nat) (target : Option Nat)
  | move (l : Nat)
  | release (l : Nat)

namespace Pool

def init (size : Nat) : Pool := ⟨List.range size, 0, [], []⟩

variable (s : Pool)

def setCall (k : Nat) (c : Call) : Pool := { s with calls := s.calls.set k c }

def lease (slot : Nat) : Pool := { s with leases := s.leases ++ [some slot] }

/-- `*waiting_.begin() == order`, for an order in `waiting_`. -/
def lowest (order : Int) : Prop := ∀ o ∈ s.waiting, order ≤ o

instance (order : Int) : Decidable (s.lowest order) := inferInstanceAs (Decidable (∀ _ ∈ _, _))

/-- `acquire` from the check of its predicate to where it waits or has its slot. -/
def check (k : Nat) (order : Option Int) : Pool :=
  match s.free, order with
  | [], _ => s.setCall k (.asleep order)
  | slot :: rest, none => ({ s with free := rest }.setCall k .finished).lease slot
  | slot :: rest, some o =>
    if s.lowest o then
      if rest ≠ [] ∧ s.waiting.erase o ≠ 0 then
        { s with free := rest, waiting := s.waiting.erase o }.setCall k (.more slot)
      else ({ s with free := rest, waiting := s.waiting.erase o }.setCall k .finished).lease slot
    else s.setCall k (.asleep order)

/-- A call gets the mutex. -/
def lock (k : Nat) : Call → Option Pool
  | .entering none => some (s.check k none)
  | .entering (some o) => some ({ s with waiting := o ::ₘ s.waiting }.check k (some o))
  | .woken order => some (s.check k order)
  | .returning slot =>
    some ({ s with free := s.free ++ [slot] }.setCall k (if s.waiting = 0 then .notifyOne else .notifyAll))
  | _ => none

def wakeAll : Pool := { s with calls := s.calls.map Call.wake }

/-- The notification of a call. `notify_one` wakes any one of the calls that sleep. -/
def notify (k : Nat) (target : Option Nat) : Call → Option Pool
  | .notifyAll => some (s.wakeAll.setCall k .finished)
  | .more slot => some ((s.wakeAll.setCall k .finished).lease slot)
  | .notifyOne =>
    match target with
    | some j =>
      match s.calls[j]? with
      | some (.asleep order) => some ((s.setCall j (.woken order)).setCall k .finished)
      | _ => none
    | none => if s.calls.any Call.sleeps then none else some (s.setCall k .finished)
  | _ => none

def step : Event → Option Pool
  | .acquire order => some { s with calls := s.calls ++ [.entering order] }
  | .lock k => s.calls[k]?.bind (s.lock k)
  | .spurious k =>
    match s.calls[k]? with
    | some (.asleep order) => some (s.setCall k (.woken order))
    | _ => none
  | .notify k target => s.calls[k]?.bind (s.notify k target)
  | .move l =>
    match s.leases[l]? with
    | some (some slot) => some ({ s with leases := s.leases.set l none }.lease slot)
    | _ => none
  | .release l =>
    match s.leases[l]? with
    | some (some slot) =>
      some { s with leases := s.leases.set l none, calls := s.calls ++ [.returning slot] }
    | _ => none

/-- The slots of the leases, and those on their way to or from one. -/
def held : List Nat := s.leases.filterMap id ++ s.calls.filterMap Call.slot

/-- A waiter of this order would not wait if it checked now. -/
def mayTake (order : Option Int) : Prop := s.free ≠ [] ∧ ∀ o ∈ order, s.lowest o

/-- A wake-up that reaches a waiter of this order. -/
def WakeDue (order : Option Int) : Prop :=
  (∃ c ∈ s.calls, c.wakesAll = true) ∨ order = none ∧ ∃ c ∈ s.calls, c.wakesOne = true

end Pool

/-! ## What every step keeps -/

/-- The slots are the pool's, `waiting_` the orders of the calls that wait. An ordered waiter
that may go is woken with everyone; unordered ones are so too, or there are as many wake-ups of
one as free slots. -/
structure Sound (size : Nat) (s : Pool) : Prop where
  slots : (s.free ++ s.held).Perm (List.range size)
  waiting : s.waiting = (s.calls.filterMap Call.waits : List Int)
  ordered : s.free ≠ [] → ∀ o, .asleep (some o) ∈ s.calls → s.lowest o → ∃ c ∈ s.calls, c.wakesAll = true
  unordered : s.free ≠ [] → .asleep none ∈ s.calls → (∃ c ∈ s.calls, c.wakesAll = true) ∨
    s.waiting = 0 ∧ s.free.length ≤ s.calls.countP Call.wakesOne

section Steps

variable {size k : Nat} {s s' : Pool} {c c' : Call} {order : Option Int} {o : Int} {slot : Nat} {rest : List Nat}

theorem Sound.init (size : Nat) : Sound size (Pool.init size) where
  slots := by simp [Pool.init, Pool.held]
  waiting := rfl
  ordered := nofun
  unordered := nofun

theorem waits_set (hc : s.calls[k]? = some c) (hsame : c'.waits = c.waits) :
    ((s.calls.set k c').filterMap Call.waits : Multiset Int) = (s.calls.filterMap Call.waits : List Int) :=
  Multiset.coe_eq_coe.mpr (Calls.filterMap_set_same hc hsame)

/-- A new lease of a slot. -/
theorem held_lease {leases : List (Option Nat)} {l l' : List Nat} (h : l'.Perm l) :
    ((leases ++ [some slot]).filterMap id ++ l').Perm (slot :: (leases.filterMap id ++ l)) := by
  rw [List.filterMap_append, List.append_assoc]
  exact List.perm_middle.trans ((h.append_left _).cons _)

/-- A wake-up of everyone outlasts the steps of the other calls. -/
theorem wakesAll_set (hc : s.calls[k]? = some c) (hall : c.wakesAll = false)
    (h : ∃ d ∈ s.calls, d.wakesAll = true) : ∃ d ∈ s.calls.set k c', d.wakesAll = true := by
  obtain ⟨d, hd, hwakes⟩ := h
  refine ⟨d, Calls.mem_set_of_ne hc hd ?_, hwakes⟩
  rintro rfl
  rw [hall] at hwakes
  cases hwakes

theorem mem_set_asleep {d : Call} (hd : d ∈ s.calls.set k c') : d ∈ s.calls ∨ d = c' :=
  List.mem_or_eq_of_mem_set hd

/-- A call waits: no slot is free, or a lower order waits. -/
theorem Sound.sleep (h : Sound size s) (hc : s.calls[k]? = some c) (hslot : c.slot = none)
    (hall : c.wakesAll = false) {w : Multiset Int}
    (hw : w = ((s.calls.set k (.asleep order)).filterMap Call.waits : List Int)) (hsub : ∀ o ∈ s.waiting, o ∈ w)
    (hno : s.free = [] ∨ ∃ o, order = some o ∧ ∃ o' ∈ s.waiting, o' < o) :
    Sound size ({ s with waiting := w }.setCall k (.asleep order)) where
  slots := by
    refine List.Perm.trans (List.Perm.append_left _ (List.Perm.append_left _ ?_)) h.slots
    exact Calls.filterMap_set_same hc hslot.symm
  waiting := hw
  ordered hfree o hmem hlow := by
    obtain ⟨o₁, rfl, o', ho', hlt⟩ := hno.resolve_left hfree
    rcases mem_set_asleep hmem with hmem | heq
    · exact wakesAll_set hc hall (h.ordered hfree o hmem fun o₂ ho₂ => hlow o₂ (hsub o₂ ho₂))
    · cases heq
      exact absurd (hlow o' (hsub o' ho')) (Int.not_le.mpr hlt)
  unordered hfree hmem := by
    obtain ⟨o₁, rfl, o', ho', -⟩ := hno.resolve_left hfree
    rcases mem_set_asleep hmem with hmem | heq
    · rcases h.unordered hfree hmem with hall' | ⟨hzero, -⟩
      · exact .inl (wakesAll_set hc hall hall')
      · rw [hzero] at ho'
        cases ho'
    · cases heq

/-- An unordered call takes the slot free the longest. -/
theorem Sound.take (h : Sound size s) (hc : s.calls[k]? = some c) (hslot : c.slot = none)
    (hall : c.wakesAll = false) (hwaits : c.waits = none) (hfree : s.free = slot :: rest) :
    Sound size (({ s with free := rest }.setCall k .finished).lease slot) where
  slots := by
    have hsame : Call.finished.slot = c.slot := hslot.symm
    have hold := h.slots
    rw [hfree] at hold
    refine List.Perm.trans ?_ hold
    exact ((held_lease (Calls.filterMap_set_same hc hsame)).append_left _).trans List.perm_middle
  waiting := by
    have hsame : Call.finished.waits = c.waits := hwaits.symm
    exact h.waiting.trans (waits_set hc hsame).symm
  ordered hrest o hmem hlow := by
    rcases mem_set_asleep hmem with hmem | heq
    · exact wakesAll_set hc hall (h.ordered (by simp [hfree]) o hmem hlow)
    · cases heq
  unordered hrest hmem := by
    rcases mem_set_asleep hmem with hmem | heq
    · rcases h.unordered (by simp [hfree]) hmem with hall' | ⟨hzero, hle⟩
      · exact .inl (wakesAll_set hc hall hall')
      · refine .inr ⟨hzero, ?_⟩
        have hcount := Calls.countP_set (y := Call.finished) (p := Call.wakesOne) hc
        have hno : Call.finished.wakesOne = false := rfl
        rw [hfree, List.length_cons] at hle
        simp only [hno, Bool.false_eq_true, if_false, Nat.add_zero] at hcount
        simp only [Pool.lease, Pool.setCall]
        split at hcount <;> omega
    · cases heq

/-- An ordered call takes the slot free the longest: no lower order waits. With `more` it wakes
the others. -/
theorem Sound.takeOrdered (h : Sound size s) (hc : s.calls[k]? = some c) (hslot : c.slot = none)
    (hall : c.wakesAll = false) (hone : c.wakesOne = false) (hfree : s.free = slot :: rest) {w : Multiset Int}
    (hw : w = ((s.calls.set k .finished).filterMap Call.waits : List Int)) (hzero : s.waiting = 0 → w = 0) :
    Sound size (if rest ≠ [] ∧ w ≠ 0 then { s with free := rest, waiting := w }.setCall k (.more slot)
      else ({ s with free := rest, waiting := w }.setCall k .finished).lease slot) := by
  have hold := h.slots
  rw [hfree] at hold
  have hne : s.free ≠ [] := by simp [hfree]
  have hmem : ∀ {c' d : Call}, d ∈ s.calls.set k c' → c'.sleeps = false → d.sleeps = true → d ∈ s.calls := by
    intro c' d hd hc' hsleeps
    rcases List.mem_or_eq_of_mem_set hd with hd | rfl
    · exact hd
    · rw [hc'] at hsleeps
      cases hsleeps
  split
  · rename_i hmore
    have hwakes : ∃ d ∈ s.calls.set k (.more slot), d.wakesAll = true := ⟨_, Calls.mem_set hc, rfl⟩
    constructor
    · have hperm := Calls.filterMap_set Call.slot hc (.more slot)
      rw [hslot] at hperm
      have hheld : (s.leases.filterMap id ++ (s.calls.set k (.more slot)).filterMap Call.slot).Perm
          (slot :: s.held) := (hperm.append_left _).trans List.perm_middle
      exact ((hheld.append_left _).trans List.perm_middle).trans hold
    · have hperm := (Calls.filterMap_set Call.waits hc .finished).trans
        (Calls.filterMap_set Call.waits hc (.more slot)).symm
      exact hw.trans (Multiset.coe_eq_coe.mpr ((List.perm_append_left_iff _).mp hperm))
    · exact fun _ _ _ _ => hwakes
    · exact fun _ _ => .inl hwakes
  · rename_i hlast
    have hsame : Call.finished.slot = c.slot := hslot.symm
    constructor
    · exact (((held_lease (Calls.filterMap_set_same hc hsame)).append_left _).trans List.perm_middle).trans hold
    · exact hw
    · intro hrest o ho hlow
      have ho' : o ∈ w := by
        rw [hw]
        exact Multiset.mem_coe.mpr (List.mem_filterMap.mpr ⟨_, ho, rfl⟩)
      exact absurd ⟨hrest, fun h0 => by simp [h0] at ho'⟩ hlast
    · intro hrest hasleep
      rcases h.unordered hne (hmem hasleep rfl rfl) with hall' | ⟨h0, hle⟩
      · exact .inl (wakesAll_set hc hall hall')
      · refine .inr ⟨hzero h0, ?_⟩
        have hsame := Calls.countP_set_same (y := Call.finished) (p := Call.wakesOne) hc hone.symm
        rw [hfree, List.length_cons] at hle
        simp only [Pool.lease, Pool.setCall]
        rw [hsame]
        omega

/-- The multiset of orders when call `k` begins to wait, or ends. -/
theorem waits_begin (h : Sound size s) (hc : s.calls[k]? = some c) (hwaits : c.waits = none)
    (hwaits' : c'.waits = some o) :
    o ::ₘ s.waiting = ((s.calls.set k c').filterMap Call.waits : List Int) := by
  have hperm := Calls.filterMap_set Call.waits hc c'
  rw [hwaits, hwaits'] at hperm
  rw [h.waiting, Multiset.cons_coe]
  exact (Multiset.coe_eq_coe.mpr hperm).symm

theorem waits_end (h : Sound size s) (hc : s.calls[k]? = some c) (hwaits : c.waits = some o)
    (hwaits' : c'.waits = none) :
    s.waiting.erase o = ((s.calls.set k c').filterMap Call.waits : List Int) := by
  have hperm := Calls.filterMap_set Call.waits hc c'
  rw [hwaits, hwaits'] at hperm
  have heq : o ::ₘ ((s.calls.set k c').filterMap Call.waits : Multiset Int) = s.waiting := by
    rw [h.waiting, Multiset.cons_coe]
    exact Multiset.coe_eq_coe.mpr hperm
  rw [← heq, Multiset.erase_cons_head]

theorem not_lowest (h : ¬ s.lowest o) : ∃ o' ∈ s.waiting, o' < o := by
  simpa [Pool.lowest] using h

/-- An unordered call checks its predicate. -/
theorem Sound.checkFree (h : Sound size s) (hc : s.calls[k]? = some c) (hslot : c.slot = none)
    (hall : c.wakesAll = false) (hwaits : c.waits = none) : Sound size (s.check k none) := by
  have hwaits' : (Call.asleep none).waits = c.waits := hwaits.symm
  unfold Pool.check
  split
  · rename_i hfree
    exact h.sleep hc hslot hall (h.waiting.trans (waits_set hc hwaits').symm) (fun _ ho => ho) (.inl hfree)
  · rename_i hfree _
    exact h.take hc hslot hall hwaits hfree
  · rename_i heq
    cases heq

/-- An ordered call that has waited checks its predicate again. -/
theorem Sound.checkWoken (h : Sound size s) (hc : s.calls[k]? = some (.woken (some o))) :
    Sound size (s.check k (some o)) := by
  have hwaits : (Call.asleep (some o)).waits = (Call.woken (some o)).waits := rfl
  have hasleep := h.waiting.trans (waits_set hc hwaits).symm
  have hmem : o ∈ s.waiting := by
    rw [h.waiting]
    exact Multiset.mem_coe.mpr (List.mem_filterMap.mpr ⟨_, List.mem_of_getElem? hc, rfl⟩)
  unfold Pool.check
  split
  · rename_i hfree
    exact h.sleep hc rfl rfl hasleep (fun _ ho => ho) (.inl hfree)
  · rename_i heq
    cases heq
  · rename_i slot rest _ hfree heq
    cases heq
    split
    · refine h.takeOrdered hc rfl rfl rfl hfree (waits_end h hc rfl rfl) fun h0 => ?_
      rw [h0] at hmem
      cases hmem
    · rename_i hlow
      exact h.sleep hc rfl rfl hasleep (fun _ ho => ho) (.inr ⟨o, rfl, not_lowest hlow⟩)

/-- An ordered call comes: its order goes into `waiting_`, and it checks its predicate. -/
theorem Sound.checkEntering (h : Sound size s) (hc : s.calls[k]? = some (.entering (some o))) :
    Sound size ({ s with waiting := o ::ₘ s.waiting }.check k (some o)) := by
  have hasleep : o ::ₘ s.waiting = ((s.calls.set k (.asleep (some o))).filterMap Call.waits : List Int) :=
    waits_begin h hc rfl rfl
  have hsub : ∀ o' ∈ s.waiting, o' ∈ o ::ₘ s.waiting := fun _ ho' => Multiset.mem_cons_of_mem ho'
  have hfinished : Call.finished.waits = (Call.entering (some o)).waits := rfl
  unfold Pool.check
  split
  · rename_i hfree
    exact h.sleep hc rfl rfl hasleep hsub (.inl hfree)
  · rename_i heq
    cases heq
  · rename_i slot rest _ hfree heq
    cases heq
    split
    · dsimp only
      rw [Multiset.erase_cons_head]
      exact h.takeOrdered hc rfl rfl rfl hfree (h.waiting.trans (waits_set hc hfinished).symm) id
    · rename_i hlow
      refine h.sleep hc rfl rfl hasleep hsub (.inr ⟨o, rfl, ?_⟩)
      obtain ⟨o', ho', hlt⟩ := not_lowest hlow
      rcases Multiset.mem_cons.mp ho' with rfl | ho'
      · exact absurd hlt (Int.lt_irrefl _)
      · exact ⟨o', ho', hlt⟩

/-- A slot comes back. With ordered waiters everyone will be woken, else one. -/
theorem Sound.giveBack (h : Sound size s) (hc : s.calls[k]? = some (.returning slot)) :
    Sound size ({ s with free := s.free ++ [slot] }.setCall k
      (if s.waiting = 0 then .notifyOne else .notifyAll)) := by
  have hslots : ∀ c', c'.slot = none →
      (s.free ++ [slot] ++ (s.leases.filterMap id ++ (s.calls.set k c').filterMap Call.slot)).Perm
        (List.range size) := by
    intro c' hc'
    have hperm := Calls.filterMap_set Call.slot hc c'
    rw [hc'] at hperm
    have hheld : (slot :: (s.leases.filterMap id ++ (s.calls.set k c').filterMap Call.slot)).Perm s.held :=
      List.perm_middle.symm.trans (hperm.append_left _)
    rw [List.append_assoc]
    exact (hheld.append_left _).trans h.slots
  split
  · rename_i hzero
    have hwaits : Call.notifyOne.waits = (Call.returning slot).waits := rfl
    have hnone : ∀ o, .asleep (some o) ∉ s.calls := by
      intro o ho
      have hmem : o ∈ s.waiting := by
        rw [h.waiting]
        exact Multiset.mem_coe.mpr (List.mem_filterMap.mpr ⟨_, ho, rfl⟩)
      simp [hzero] at hmem
    constructor
    · exact hslots _ rfl
    · exact h.waiting.trans (waits_set hc hwaits).symm
    · intro _ o ho
      rcases mem_set_asleep ho with ho | heq
      · exact absurd ho (hnone o)
      · cases heq
    · intro _ hasleep
      have hcount := Calls.countP_set (y := Call.notifyOne) (p := Call.wakesOne) hc
      have hno : (Call.returning slot).wakesOne = false := rfl
      have hyes : Call.notifyOne.wakesOne = true := rfl
      simp only [hno, hyes, Bool.false_eq_true, if_false, if_true, Nat.add_zero] at hcount
      have hlen : s.free = [] ∨ (∃ d ∈ s.calls, d.wakesAll = true) ∨ s.free.length ≤ s.calls.countP Call.wakesOne := by
        by_cases hfree : s.free = []
        · exact .inl hfree
        · rcases mem_set_asleep hasleep with hasleep | heq
          · exact .inr ((h.unordered hfree hasleep).imp_right And.right)
          · cases heq
      simp only [Pool.setCall, List.length_append, List.length_singleton]
      rw [hcount]
      rcases hlen with hnil | hall | hle
      · exact .inr ⟨hzero, by simp [hnil]⟩
      · exact .inl (wakesAll_set hc rfl hall)
      · exact .inr ⟨hzero, Nat.succ_le_succ hle⟩
  · have hwaits : Call.notifyAll.waits = (Call.returning slot).waits := rfl
    have hwakes : ∃ d ∈ s.calls.set k .notifyAll, d.wakesAll = true := ⟨_, Calls.mem_set hc, rfl⟩
    constructor
    · exact hslots _ rfl
    · exact h.waiting.trans (waits_set hc hwaits).symm
    · exact fun _ _ _ _ => hwakes
    · exact fun _ _ => .inl hwakes

theorem Sound.lock (h : Sound size s) (hc : s.calls[k]? = some c) (hlock : s.lock k c = some s') : Sound size s' := by
  cases c with
  | entering order =>
    cases order <;> cases hlock
    · exact h.checkFree hc rfl rfl rfl
    · exact h.checkEntering hc
  | woken order =>
    cases order <;> cases hlock
    · exact h.checkFree hc rfl rfl rfl
    · exact h.checkWoken hc
  | returning slot =>
    cases hlock
    exact h.giveBack hc
  | _ => cases hlock

/-- A state in which nobody sleeps. -/
theorem Sound.awake (hslots : (s.free ++ s.held).Perm (List.range size))
    (hwaiting : s.waiting = (s.calls.filterMap Call.waits : List Int)) (hawake : ∀ c ∈ s.calls, c.sleeps = false) :
    Sound size s where
  slots := hslots
  waiting := hwaiting
  ordered _ o ho := absurd (hawake _ ho) (by simp [Call.sleeps])
  unordered _ ho := absurd (hawake _ ho) (by simp [Call.sleeps])

theorem wake_slot (c : Call) : c.wake.slot = c.slot := by cases c <;> rfl

theorem wake_waits (c : Call) : c.wake.waits = c.waits := by cases c <;> rfl

theorem wake_awake (c : Call) : c.wake.sleeps = false := by cases c <;> rfl

theorem Sound.wakeAll (h : Sound size s) : Sound size s.wakeAll := by
  apply Sound.awake
  · have hheld : s.wakeAll.held = s.held := by
      simp only [Pool.held, Pool.wakeAll, List.filterMap_map, Function.comp_def, wake_slot]
    rw [hheld]
    exact h.slots
  · refine h.waiting.trans ?_
    simp only [Pool.wakeAll, List.filterMap_map, Function.comp_def, wake_waits]
  · intro c hc
    obtain ⟨d, -, rfl⟩ := List.mem_map.mp hc
    exact wake_awake d

theorem awake_wakeAll (hc' : c'.sleeps = false) : ∀ d ∈ (s.wakeAll.setCall k c').calls, d.sleeps = false := by
  refine Calls.forall_set hc' fun d hd => ?_
  obtain ⟨d', -, rfl⟩ := List.mem_map.mp hd
  exact wake_awake d'

theorem getElem?_wakeAll (hc : s.calls[k]? = some c) : s.wakeAll.calls[k]? = some c.wake := by
  simp [Pool.wakeAll, hc]

theorem Sound.notifyAll (h : Sound size s) (hc : s.calls[k]? = some .notifyAll) :
    Sound size (s.wakeAll.setCall k .finished) := by
  have hc' := getElem?_wakeAll hc
  have hslot : Call.finished.slot = Call.notifyAll.wake.slot := rfl
  have hwaits : Call.finished.waits = Call.notifyAll.wake.waits := rfl
  refine Sound.awake ?_ (h.wakeAll.waiting.trans (waits_set hc' hwaits).symm) (awake_wakeAll rfl)
  exact (((Calls.filterMap_set_same hc' hslot).append_left _).append_left _).trans h.wakeAll.slots

theorem Sound.more (h : Sound size s) (hc : s.calls[k]? = some (.more slot)) :
    Sound size ((s.wakeAll.setCall k .finished).lease slot) := by
  have hc' := getElem?_wakeAll hc
  have hwaits : Call.finished.waits = (Call.more slot).wake.waits := rfl
  refine Sound.awake ?_ (h.wakeAll.waiting.trans (waits_set hc' hwaits).symm) (awake_wakeAll rfl)
  have hperm := Calls.filterMap_set Call.slot hc' .finished
  have hheld : ((s.leases ++ [some slot]).filterMap id ++ (s.wakeAll.calls.set k .finished).filterMap Call.slot).Perm
      (s.leases.filterMap id ++ slot :: (s.wakeAll.calls.set k .finished).filterMap Call.slot) :=
    (held_lease (List.Perm.refl _)).trans List.perm_middle.symm
  exact ((hheld.trans (hperm.append_left _)).append_left _).trans h.wakeAll.slots

/-- A call in the condition variable is woken. -/
theorem Sound.woken (h : Sound size s) (hc : s.calls[k]? = some (.asleep order)) :
    Sound size (s.setCall k (.woken order)) := by
  have hslot : (Call.woken order).slot = (Call.asleep order).slot := rfl
  have hwaits : (Call.woken order).waits = (Call.asleep order).waits := rfl
  constructor
  · exact (((Calls.filterMap_set_same hc hslot).append_left _).append_left _).trans h.slots
  · exact h.waiting.trans (waits_set hc hwaits).symm
  · intro hfree o ho hlow
    rcases mem_set_asleep ho with ho | heq
    · exact wakesAll_set hc rfl (h.ordered hfree o ho hlow)
    · cases heq
  · intro hfree ho
    rcases mem_set_asleep ho with ho | heq
    · refine (h.unordered hfree ho).imp (wakesAll_set hc rfl) fun ⟨hzero, hle⟩ => ⟨hzero, ?_⟩
      have hcount := Calls.countP_set (y := Call.woken order) (p := Call.wakesOne) hc
      have hno : (Call.asleep order).wakesOne = false := rfl
      simp only [hno, Bool.false_eq_true, if_false, Nat.add_zero] at hcount
      refine Nat.le_trans hle ?_
      simp only [Pool.setCall]
      omega
    · cases heq

/-- The notification of one is over, with a wake-up more than the free slots. -/
theorem Sound.notified (h : Sound size s) (hc : s.calls[k]? = some .notifyOne)
    (hmore : s.free ≠ [] → .asleep none ∈ s.calls → (∃ d ∈ s.calls, d.wakesAll = true) ∨
      s.waiting = 0 ∧ s.free.length < s.calls.countP Call.wakesOne) : Sound size (s.setCall k .finished) := by
  have hslot : Call.finished.slot = Call.notifyOne.slot := rfl
  have hwaits : Call.finished.waits = Call.notifyOne.waits := rfl
  constructor
  · exact (((Calls.filterMap_set_same hc hslot).append_left _).append_left _).trans h.slots
  · exact h.waiting.trans (waits_set hc hwaits).symm
  · intro hfree o ho hlow
    rcases mem_set_asleep ho with ho | heq
    · exact wakesAll_set hc rfl (h.ordered hfree o ho hlow)
    · cases heq
  · intro hfree ho
    rcases mem_set_asleep ho with ho | heq
    · refine (hmore hfree ho).imp (wakesAll_set hc rfl) fun ⟨hzero, hlt⟩ => ⟨hzero, ?_⟩
      have hcount := Calls.countP_set (y := Call.finished) (p := Call.wakesOne) hc
      have hno : Call.finished.wakesOne = false := rfl
      have hyes : Call.notifyOne.wakesOne = true := rfl
      simp only [hno, hyes, Bool.false_eq_true, if_false, if_true, Nat.add_zero] at hcount
      simp only [Pool.setCall] at hlt ⊢
      omega
    · cases heq

theorem Sound.notifyOne (h : Sound size s) {j : Nat} (hc : s.calls[k]? = some .notifyOne)
    (hj : s.calls[j]? = some (.asleep order)) : Sound size ((s.setCall j (.woken order)).setCall k .finished) := by
  have hne : k ≠ j := by
    rintro rfl
    rw [hc] at hj
    cases hj
  have hk : (s.setCall j (.woken order)).calls[k]? = some .notifyOne :=
    (Calls.getElem?_set_iff hj).mpr (.inr ⟨hne, hc⟩)
  refine (h.woken hj).notified hk fun hfree ho => ?_
  rcases mem_set_asleep ho with ho | heq
  · refine (h.unordered hfree ho).imp (wakesAll_set hj rfl) fun ⟨hzero, hle⟩ => ⟨hzero, ?_⟩
    -- No ordered call sleeps, so the one that is woken may take any slot.
    have hnone : order = none := by
      cases order with
      | none => rfl
      | some o =>
        have hmem : o ∈ s.waiting := by
          rw [h.waiting]
          exact Multiset.mem_coe.mpr (List.mem_filterMap.mpr ⟨_, List.mem_of_getElem? hj, rfl⟩)
        simp [hzero] at hmem
    subst hnone
    have hcount := Calls.countP_set (y := Call.woken none) (p := Call.wakesOne) hj
    have hno : (Call.asleep none).wakesOne = false := rfl
    have hyes : (Call.woken none).wakesOne = true := rfl
    simp only [hno, hyes, Bool.false_eq_true, if_false, if_true, Nat.add_zero] at hcount
    simp only [Pool.setCall]
    omega
  · cases heq

theorem Sound.notify (h : Sound size s) {target : Option Nat} (hc : s.calls[k]? = some c)
    (hnotify : s.notify k target c = some s') : Sound size s' := by
  cases c with
  | notifyAll =>
    cases hnotify
    exact h.notifyAll hc
  | more slot =>
    cases hnotify
    exact h.more hc
  | notifyOne =>
    cases target with
    | none =>
      simp only [Pool.notify] at hnotify
      split at hnotify <;> cases hnotify
      rename_i hnobody
      refine h.notified hc fun _ ho => absurd (List.any_eq_true.mpr ⟨_, ho, rfl⟩) hnobody
    | some j =>
      simp only [Pool.notify] at hnotify
      split at hnotify
      · rename_i hj
        cases hnotify
        exact h.notifyOne hc hj
      · cases hnotify
  | _ => cases hnotify

theorem Sound.acquire (h : Sound size s) (order : Option Int) :
    Sound size { s with calls := s.calls ++ [.entering order] } where
  slots := by
    have hnil : [Call.entering order].filterMap Call.slot = [] := rfl
    simp only [Pool.held, List.filterMap_append, hnil, List.append_nil]
    exact h.slots
  waiting := by
    have hnil : [Call.entering order].filterMap Call.waits = [] := rfl
    rw [List.filterMap_append, hnil, List.append_nil]
    exact h.waiting
  ordered hfree o ho hlow := by
    obtain ⟨d, hd, hwakes⟩ := h.ordered hfree o (by simpa using ho) hlow
    exact ⟨d, List.mem_append_left _ hd, hwakes⟩
  unordered hfree ho := by
    refine (h.unordered hfree (by simpa using ho)).imp ?_ ?_
    · rintro ⟨d, hd, hwakes⟩
      exact ⟨d, List.mem_append_left _ hd, hwakes⟩
    · simp [Call.wakesOne]

/-- A lease is moved: another one has its slot. -/
theorem Sound.move (h : Sound size s) {l : Nat} (hl : s.leases[l]? = some (some slot)) :
    Sound size ({ s with leases := s.leases.set l none }.lease slot) := by
  have hheld : ({ s with leases := s.leases.set l none }.lease slot).held.Perm s.held := by
    have hperm := (Calls.filterMap_set id hl none).append_right (s.calls.filterMap Call.slot)
    exact (held_lease (List.Perm.refl _)).trans hperm
  exact ⟨(hheld.append_left _).trans h.slots, h.waiting, h.ordered, h.unordered⟩

/-- A lease is destroyed: its slot is on its way back. -/
theorem Sound.release (h : Sound size s) {l : Nat} (hl : s.leases[l]? = some (some slot)) :
    Sound size { s with leases := s.leases.set l none, calls := s.calls ++ [.returning slot] } where
  slots := by
    have hperm := (Calls.filterMap_set id hl none).append_right (s.calls.filterMap Call.slot)
    have hheld : ((s.leases.set l none).filterMap id ++ (s.calls ++ [Call.returning slot]).filterMap Call.slot).Perm
        s.held := by
      rw [List.filterMap_append, ← List.append_assoc]
      exact (List.perm_append_singleton slot _).trans hperm
    exact (hheld.append_left _).trans h.slots
  waiting := by
    have hnil : [Call.returning slot].filterMap Call.waits = [] := rfl
    rw [List.filterMap_append, hnil, List.append_nil]
    exact h.waiting
  ordered hfree o ho hlow := by
    obtain ⟨d, hd, hwakes⟩ := h.ordered hfree o (by simpa using ho) hlow
    exact ⟨d, List.mem_append_left _ hd, hwakes⟩
  unordered hfree ho := by
    refine (h.unordered hfree (by simpa using ho)).imp ?_ ?_
    · rintro ⟨d, hd, hwakes⟩
      exact ⟨d, List.mem_append_left _ hd, hwakes⟩
    · simp [Call.wakesOne]

theorem Sound.step (h : Sound size s) {e : Event} (hstep : s.step e = some s') : Sound size s' := by
  cases e with
  | acquire order =>
    cases hstep
    exact h.acquire order
  | lock k =>
    obtain ⟨c, hc, hlock⟩ := Option.bind_eq_some_iff.mp hstep
    exact h.lock hc hlock
  | spurious k =>
    simp only [Pool.step] at hstep
    split at hstep <;> cases hstep
    exact h.woken ‹_›
  | notify k target =>
    obtain ⟨c, hc, hnotify⟩ := Option.bind_eq_some_iff.mp hstep
    exact h.notify hc hnotify
  | move l =>
    simp only [Pool.step] at hstep
    split at hstep <;> cases hstep
    exact h.move ‹_›
  | release l =>
    simp only [Pool.step] at hstep
    split at hstep <;> cases hstep
    exact h.release ‹_›

theorem Sound.mem_waiting (h : Sound size s) (hc : c ∈ s.calls) (hwaits : c.waits = some o) : o ∈ s.waiting := by
  rw [h.waiting]
  exact Multiset.mem_coe.mpr (List.mem_filterMap.mpr ⟨c, hc, hwaits⟩)

/-- A check that does not wait finds no lower order in `waiting_`. -/
theorem check_lowest (hk : k < s.calls.length) (h : (s.check k (some o)).calls[k]? ≠ some (.asleep (some o))) :
    s.lowest o := by
  have hsleep : (s.setCall k (.asleep (some o))).calls[k]? = some (.asleep (some o)) := by
    simp [Pool.setCall, hk]
  by_contra hlow
  refine h ?_
  unfold Pool.check
  split
  · exact hsleep
  · rename_i heq
    cases heq
  · rename_i heq
    cases heq
    rw [if_neg hlow]
    exact hsleep

/-- The wake-ups that the invariant promises. -/
theorem Sound.wakeDue (h : Sound size s) (hc : .asleep order ∈ s.calls) (hmay : s.mayTake order) : s.WakeDue order := by
  cases order with
  | some o => exact .inl (h.ordered hmay.1 o hc (hmay.2 o rfl))
  | none =>
    refine (h.unordered hmay.1 hc).imp_right fun ⟨_, hle⟩ => ⟨rfl, ?_⟩
    have hpos : 0 < s.calls.countP Call.wakesOne := Nat.lt_of_lt_of_le (List.length_pos_iff.mpr hmay.1) hle
    exact List.countP_pos_iff.mp hpos

end Steps

/-- In every run: the free slots and those of the leases are the pool's, and no two leases have
the same one; a call that gets its slot for an order is below every order that waits; and a
sleeping call that may take a slot is about to be woken. -/
theorem slotPool_leases {size : Nat} {es : List Event} {s : Pool}
    (hrun : Path (fun s e s' => s.step e = some s') (Pool.init size) es s) :
    (s.free ++ s.held).Perm (List.range size) ∧
    (∀ i j slot : Nat, s.leases[i]? = some (some slot) → s.leases[j]? = some (some slot) → i = j ∧ slot ∉ s.free) ∧
    (∀ (k : Nat) (order : Int) (s' : Pool),
      s.calls[k]? = some (.entering (some order)) ∨ s.calls[k]? = some (.woken (some order)) →
      s.step (.lock k) = some s' → s'.calls[k]? ≠ some (.asleep (some order)) →
        ∀ o, .asleep (some o) ∈ s.calls ∨ .woken (some o) ∈ s.calls → order ≤ o) ∧
    ∀ order, .asleep order ∈ s.calls → s.mayTake order → s.WakeDue order := by
  have h : Sound size s := hrun.invariant (.init size) fun _ _ _ hstep h => h.step hstep
  have hnodup := h.slots.nodup_iff.mpr List.nodup_range
  refine ⟨h.slots, fun i j slot hi hj => ?_, fun k order s' hc hstep htook o ho => ?_, fun order => h.wakeDue⟩
  · have hmem : slot ∈ s.leases.filterMap id := List.mem_filterMap.mpr ⟨_, List.mem_of_getElem? hi, rfl⟩
    have hapart := List.nodup_append.mp hnodup
    have hleases := (List.nodup_append.mp hapart.2.1).1
    refine ⟨Calls.Alone.of_nodup hleases i j _ _ slot hi hj rfl rfl, fun hfree => ?_⟩
    exact hapart.2.2 slot hfree slot (List.mem_append_left _ hmem) rfl
  · have hwait : o ∈ s.waiting := by
      rcases ho with ho | ho
      · exact h.mem_waiting ho rfl
      · exact h.mem_waiting ho rfl
    rcases hc with hc | hc
    · rw [Pool.step, hc] at hstep
      cases hstep
      have hk := (List.getElem?_eq_some_iff.mp hc).1
      exact check_lowest (s := { s with waiting := order ::ₘ s.waiting }) hk htook o (Multiset.mem_cons_of_mem hwait)
    · rw [Pool.step, hc] at hstep
      cases hstep
      exact check_lowest (List.getElem?_eq_some_iff.mp hc).1 htook o hwait

/-- Two slots, both leased; two ordered requests wait when both come back at once. -/
def bothBack : List Event :=
  [.acquire none, .lock 0, .acquire (some 4), .lock 1, .acquire (some 9), .lock 2, .acquire (some 7), .lock 3,
    .release 0, .release 1, .lock 4, .lock 5]

theorem slotPool_leases_two : ∃ s : Pool, bothBack.foldlM Pool.step (Pool.init 2) = some s ∧
    .asleep (some 7) ∈ s.calls ∧ s.mayTake (some 7) ∧ s.WakeDue (some 7) := by
  refine ⟨_, rfl, by decide, ⟨by decide, by decide⟩, ?_⟩
  exact (slotPool_leases (Path.of_foldlM (rfl : bothBack.foldlM Pool.step (Pool.init 2) = some _))).2.2.2 (some 7)
    (by decide) ⟨by decide, by decide⟩

end NssFactory.Cuda.SlotPool
